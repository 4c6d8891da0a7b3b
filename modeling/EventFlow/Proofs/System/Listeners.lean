import EventFlow.Proofs.System.Helpers

namespace EventFlow

open Source

-- The calls in a line of plain text, as the reader of source files sees them.
section Calls

variable {name other : String} {c : Char} {rest : List Token}

namespace Source.Token

@[simp] theorem callArguments?_word : callArguments? (.word name :: rest) = none := rfl

@[simp] theorem callArguments?_mark (h : c ≠ '(') : callArguments? (.mark c :: rest) = none := by
  have hopens : Bracket.opens .round (.mark c) = false := by
    simp [Bracket.opens, Bracket.opening, h]
  rw [callArguments?, group?_of_not_opens hopens]
  rfl

@[simp] theorem callArguments?_empty : callArguments? (.mark '(' :: .mark ')' :: rest) = some [] :=
  rfl

@[simp] theorem callArguments?_one :
    callArguments? (.mark '(' :: .word name :: .mark ')' :: rest) = some [[.word name]] := rfl

@[simp] theorem callArguments?_two :
    callArguments? (.mark '(' :: .word name :: .mark ',' :: .word other :: .mark ')' :: rest) =
      some [[.word name], [.word other]] := rfl

@[simp] theorem bareText_word : bareText [.word name] = name := by
  simp [bareText, String.join]

end Source.Token

namespace Listener.SourceFile

@[simp] theorem registrations_mark : registrations (.mark c :: rest) = registrations rest := by
  simp [registrations]

@[simp] theorem subscriptions_mark : subscriptions (.mark c :: rest) = subscriptions rest := by
  simp [subscriptions]

@[simp] theorem calledNames_mark : calledNames (.mark c :: rest) = calledNames rest := by
  cases rest with
  | nil => rfl
  | cons next rest => simp [calledNames]

@[simp] theorem calledNames_call :
    calledNames (.word name :: .mark '(' :: rest) = name :: calledNames rest := by
  simp [calledNames]

@[simp] theorem calledNames_word (h : c ≠ '(') :
    calledNames (.word name :: .mark c :: rest) = calledNames rest := by
  simp [calledNames, h]

@[simp] theorem calledNames_words :
    calledNames (.word name :: .word other :: rest) = calledNames (.word other :: rest) := by
  simp [calledNames]

end Listener.SourceFile

end Calls

namespace System

open Piece

-- The line of a function whose body is one statement.
def functionLine (function : String) (body : List Piece) : List Piece :=
  word "void" :: gap :: word function :: mark '(' :: word "void" :: mark ')' :: gap :: mark '{' ::
    (body ++ [gap, mark '}'])

def Helper.invocationPieces (helper : Helper) : List Piece :=
  if helper.kind.needsCall then [gap, word helper.name, mark '(', mark ')', mark ';']
  else [gap, word helper.name, mark ';']

def macroLine (marker name last : String) : List Piece :=
  [word marker, mark '(', word name, mark ',', gap, word last, mark ')', mark ';']

def Statement.line (name : String) : Statement → List Piece
  | subscribes tier event => macroLine (subscriptionMacro tier) name event
  | creates function event =>
    functionLine function [gap, word ("new_" ++ event), mark '(', mark ')', mark ';']
  | uses function helper => functionLine function helper.invocationPieces

namespace ListenerFile

def lines (file : ListenerFile) : List (List Piece) :=
  file.above.map (Statement.line file.name) ++
    macroLine registrationMacro file.name file.handler ::
      file.below.map (Statement.line file.name)

end ListenerFile

namespace Statement

def subscription? : Statement → Option (Tier × String)
  | subscribes tier event => some (tier, event)
  | creates .. | uses .. => none

def called : Statement → List String
  | subscribes tier _ => [subscriptionMacro tier]
  | creates function event => [function, "new_" ++ event]
  | uses function helper =>
    if helper.kind.needsCall then [function, helper.name] else [function]

section Steps

open Listener.SourceFile

variable {name : String} {rest : List Token}

theorem registrations_line (statement : Statement) :
    registrations (tokensOf (statement.line name) ++ rest) = registrations rest := by
  cases statement with
  | subscribes tier event =>
    simp [line, macroLine, registrations, registers_subscriptionMacro]
  | creates function event => simp [line, functionLine, registrations]
  | uses function helper =>
    cases hcall : helper.kind.needsCall with
    | true => simp [line, functionLine, Helper.invocationPieces, hcall, registrations]
    | false => simp [line, functionLine, Helper.invocationPieces, hcall, registrations]

theorem registrations_registration {handler : String} :
    registrations (tokensOf (macroLine registrationMacro name handler) ++ rest) =
      name :: registrations rest := by
  simp [macroLine, registrations, registers_registrationMacro]

theorem calledNames_line (statement : Statement) :
    calledNames (tokensOf (statement.line name) ++ rest) = statement.called ++ calledNames rest := by
  cases statement with
  | subscribes tier event => simp [line, macroLine, called]
  | creates function event => simp [line, functionLine, called]
  | uses function helper =>
    cases hcall : helper.kind.needsCall with
    | true => simp [line, functionLine, Helper.invocationPieces, called, hcall]
    | false => simp [line, functionLine, Helper.invocationPieces, called, hcall]

theorem subscriptions_line {system : System} {statement : Statement}
    (hsound : statement.Sound system) (h : statement.Unmistakable) :
    subscriptions (tokensOf (statement.line name) ++ rest) =
      statement.subscription?.toList ++ subscriptions rest := by
  cases statement with
  | subscribes tier event =>
    have hne : event ≠ "" := by
      rintro rfl
      cases hsound
    simp [line, macroLine, subscriptions, subscribes?_subscriptionMacro, subscription?, hne]
  | creates function event =>
    simp [line, functionLine, subscriptions, subscription?, h.2]
  | uses function helper =>
    cases hcall : helper.kind.needsCall with
    | true =>
      simp [line, functionLine, Helper.invocationPieces, hcall, subscriptions, subscription?, h.2.1]
    | false =>
      simp [line, functionLine, Helper.invocationPieces, hcall, subscriptions, subscription?, h.2.1]

theorem subscriptions_registration {handler : String} :
    subscriptions (tokensOf (macroLine registrationMacro name handler) ++ rest) =
      subscriptions rest := by
  simp [macroLine, subscriptions, subscribes?_registrationMacro]

end Steps

end Statement

theorem Helper.toList_invocation (helper : Helper) :
    (" " ++ helper.invocation).toList = textOf helper.invocationPieces := by
  rw [invocation, invocationPieces]
  cases helper.kind with
  | function => simp [Callable.Kind.needsCall, textOf, Piece.text]
  | functionMacro => simp [Callable.Kind.needsCall, textOf, Piece.text]
  | objectMacro => simp [Callable.Kind.needsCall, textOf, Piece.text]

theorem toList_macroLine (marker name last : String) :
    (marker ++ "(" ++ name ++ ", " ++ last ++ ");\n").toList =
      textOf (macroLine marker name last) ++ ['\n'] := by
  simp [macroLine, textOf, Piece.text]

theorem fits_macroLine {marker name last : String} (hmarker : isIdentifier marker)
    (hname : isIdentifier name) (hlast : isIdentifier last) :
    Fits (macroLine marker name last) :=
  ⟨hmarker, by simp, by decide, hname, by simp, by decide, ⟨by simp, by simp⟩, hlast, by simp,
    by decide, by decide, trivial⟩

theorem fits_functionLine {function : String} {body : List Piece}
    (hfunction : isIdentifier function) (h : Fits (body ++ [gap, mark '}'])) :
    Fits (functionLine function body) :=
  ⟨by decide, by simp, ⟨by simp, by simp⟩, hfunction, by simp, by decide,
    by decide, by simp, by decide, ⟨by simp, by simp⟩, by decide, h⟩

namespace ListenerFile

theorem toList_textOf (file : ListenerFile) (statement : Statement) :
    (file.textOf statement).toList = Piece.textOf (statement.line file.name) ++ ['\n'] := by
  cases statement with
  | subscribes tier event => exact toList_macroLine (subscriptionMacro tier) file.name event
  | creates function event =>
    refine toList_functionText ?_
    simp [Piece.textOf, Piece.text]
  | uses function helper => exact toList_functionText helper.toList_invocation

theorem toList_text (file : ListenerFile) : file.text.toList = linesText file.lines := by
  have hlines : ∀ statements : List Statement, statements.flatMap (fun statement =>
      (file.textOf statement).toList) = linesText (statements.map (Statement.line file.name)) := by
    intro statements
    rw [linesText, List.flatMap_map]
    exact List.flatMap_congr fun statement _ => file.toList_textOf statement
  have hregistration : file.registration.toList =
      Piece.textOf (macroLine registrationMacro file.name file.handler) ++ ['\n'] :=
    toList_macroLine registrationMacro file.name file.handler
  rw [text, String.toList_join, List.flatMap_append, List.flatMap_cons, List.flatMap_map,
    List.flatMap_map, hlines, hlines, hregistration, lines, linesText, linesText, linesText,
    List.flatMap_append, List.flatMap_cons]

end ListenerFile

theorem Helper.fits_invocation {helper : Helper} (h : isIdentifier helper.name) :
    Fits (helper.invocationPieces ++ [gap, mark '}']) := by
  have hend : Fits [gap, mark '}'] := ⟨⟨by simp, by simp⟩, by decide, trivial⟩
  unfold invocationPieces
  split
  · exact ⟨⟨by simp, by simp⟩, h, by simp, by decide, by decide, by decide, hend⟩
  · exact ⟨⟨by simp, by simp⟩, h, by simp, by decide, hend⟩

theorem Statement.Sound.fits_line {system : System} {statement : Statement} {name : String}
    (h : statement.Sound system) (hname : isIdentifier name)
    (hhelpers : ∀ helper ∈ system.helpers, helper.Sound) : Fits (statement.line name) := by
  cases statement with
  | subscribes tier event =>
    have hmarker : isIdentifier (subscriptionMacro tier) := by
      cases tier with
      | early => decide
      | normal => decide
      | final => decide
    exact fits_macroLine hmarker hname h
  | creates function event =>
    exact fits_functionLine h.1 ⟨⟨by simp, by simp⟩, isIdentifier_new h.2, by simp, by decide,
      by decide, by decide, ⟨by simp, by simp⟩, by decide, trivial⟩
  | uses function helper =>
    exact fits_functionLine h.1 (Helper.fits_invocation (hhelpers helper h.2).identifier)

theorem Statement.opensDirective_line (statement : Statement) (name : String) :
    opensDirective (statement.line name) = false := by
  cases statement with
  | subscribes tier event => rfl
  | creates function event => rfl
  | uses function helper => rfl

namespace ListenerFile

variable {system : System} {file : ListenerFile}

theorem mem_lines_iff {line : List Piece} :
    line ∈ file.lines ↔ line = macroLine registrationMacro file.name file.handler ∨
      ∃ statement ∈ file.statements, line = statement.line file.name := by
  simp only [lines, statements, List.mem_append, List.mem_cons, List.mem_map, or_and_right,
    exists_or, eq_comm]
  exact or_left_comm

-- The stream of a listener file, without the places of its tokens.
def stream (file : ListenerFile) : Stream := ⟨file.lines.flatMap tokensOf, []⟩

theorem Sound.unplaced_text (h : file.Sound system)
    (hhelpers : ∀ helper ∈ system.helpers, helper.Sound) :
    (Stream.ofText file.text).unplaced = file.stream := by
  have hfits : ∀ line ∈ file.lines, Fits line := by
    intro line hline
    rcases mem_lines_iff.mp hline with rfl | ⟨statement, hstatement, rfl⟩
    · exact fits_macroLine (by decide) h.name_identifier h.handler_identifier
    · exact (h.statements_sound statement hstatement).fits_line h.name_identifier hhelpers
  have hcode : ∀ line ∈ file.lines.map (List.map placed) ++ [[]],
      Stream.opensDirective line = false := by
    intro line hline
    rcases List.mem_append.mp hline with hline | hline
    · obtain ⟨pieces, hpieces, rfl⟩ := List.mem_map.mp hline
      rw [opensDirective_placed]
      rcases mem_lines_iff.mp hpieces with rfl | ⟨statement, _, rfl⟩
      · rfl
      · exact statement.opensDirective_line file.name
    · rw [List.mem_singleton.mp hline]
      rfl
  rw [unplaced_ofText file.toList_text hfits, Stream.ofLines_of_code 0 0 hcode,
    List.flatMap_append, List.flatMap_map]
  simp only [tokens_placed]
  rw [List.flatMap_singleton, List.filterMap_nil, List.append_nil, stream]

end ListenerFile

end System

end EventFlow
