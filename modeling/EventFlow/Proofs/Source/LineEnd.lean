import EventFlow.Proofs.Source.Lines
import EventFlow.Proofs.Source.Returns
import Mathlib.Data.List.DropRight

namespace EventFlow.Source

def Token.withoutOffset (token : Token) : Token := { token with offset := 0 }

namespace Placed

-- A word and its line. What keeps words apart counts as a space, and octets are not counted.
def outlined (placed : Placed) : Placed := ⟨placed.lexeme.evened, placed.line, 0⟩

def isSpace (placed : Placed) : Bool := placed.lexeme.isSpace

-- A line without the spaces at its end.
def clipped (line : List Placed) : List Placed := line.rdropWhile isSpace

variable {placed other : Placed} {line rest : List Placed}

theorem token?_outlined (tag : Option Nat) (placed : Placed) :
    token? tag placed.outlined = (token? tag placed).map Token.withoutOffset := by
  obtain ⟨⟨kind, text⟩, line, offset⟩ := placed
  cases kind with
  | punctuation => cases text <;> rfl
  | newline | blank | splice | lineComment | blockComment | stray => rfl
  | identifier | number | string | character => rfl

theorem token?_of_isSpace (tag : Option Nat) (h : placed.isSpace) : token? tag placed = none := by
  obtain ⟨⟨kind, text⟩, line, offset⟩ := placed
  cases kind <;> first | rfl | cases h

theorem clipped_concat (line : List Placed) (placed : Placed) :
    clipped (line ++ [placed]) = if placed.isSpace then clipped line else line ++ [placed] :=
  List.rdropWhile_concat _ _ _

theorem tokens_clipped (tag : Option Nat) (line : List Placed) :
    (clipped line).filterMap (token? tag) = line.filterMap (token? tag) := by
  induction line using List.reverseRecOn with
  | nil => rfl
  | append_singleton line placed ih =>
    rw [clipped_concat]
    split
    · rename_i hspace
      rw [ih, List.filterMap_append, List.filterMap_cons_none (token?_of_isSpace tag hspace),
        List.filterMap_nil, List.append_nil]
    · rfl

-- What a line is without its last spaces does not depend on those of its rest.
theorem clipped_cons (h : clipped line = clipped rest) (placed : Placed) :
    clipped (placed :: line) = clipped (placed :: rest) := by
  have hback : line.reverse.dropWhile isSpace = rest.reverse.dropWhile isSpace :=
    List.reverse_inj.mp h
  rw [clipped, clipped, List.rdropWhile, List.rdropWhile, List.reverse_cons, List.reverse_cons,
    List.dropWhile_append, List.dropWhile_append, hback]

theorem isNewline_outlined (placed : Placed) :
    placed.outlined.lexeme.kind = .newline ↔ placed.lexeme.kind = .newline := by
  obtain ⟨⟨kind, text⟩, line, offset⟩ := placed
  cases kind <;> simp [outlined, Lexeme.evened, Lexeme.isSpace, Lexeme.space]

-- The lines of a text with nothing but their words and the spaces between these.
def outlines (placed : List Placed) : List (List Placed) :=
  (lines placed).map fun line => clipped (line.map outlined)

theorem outlines_cons {others : List Placed} (hfirst : placed.outlined = other.outlined)
    (h : outlines rest = outlines others) :
    outlines (placed :: rest) = outlines (other :: others) := by
  have hkind : other.lexeme.kind = .newline ↔ placed.lexeme.kind = .newline := by
    rw [← isNewline_outlined, ← hfirst, isNewline_outlined]
  simp only [outlines, lines, hkind] at h ⊢
  split
  · exact congrArg (clipped [] :: ·) h
  · obtain ⟨line, behind, hlines⟩ := List.exists_cons_of_ne_nil (lines_ne_nil rest)
    obtain ⟨line', behind', hlines'⟩ := List.exists_cons_of_ne_nil (lines_ne_nil others)
    rw [hlines, hlines'] at h ⊢
    obtain ⟨hline, hbehind⟩ := List.cons.inj h
    rw [List.modifyHead_cons, List.modifyHead_cons, List.map_cons, List.map_cons, hbehind,
      List.map_cons, List.map_cons, hfirst, clipped_cons hline]

end Placed

namespace Directive

open Placed

theorem textOf_concat {placed : Placed} (h : placed.isSpace) (line : List Placed) :
    textOf (line ++ [placed]) = textOf line := by
  have hword : placed.lexeme.isWord = false := by
    obtain ⟨⟨kind, text⟩, line, offset⟩ := placed
    cases kind <;> first | rfl | cases h
  have hwrite : ∀ written, (writeBackwards written placed.lexeme).dropWhile Text.isBlank =
      written.dropWhile Text.isBlank := by
    intro written
    have hspace : placed.lexeme.isSpace := h
    unfold writeBackwards
    rw [if_neg (by simp [hword]), if_pos hspace]
    split
    · rfl
    · rfl
  simp only [textOf, List.map_append, List.map_cons, List.map_nil, List.dropWhile_append]
  split
  · rename_i hnone
    rw [List.isEmpty_iff.mp hnone, List.dropWhile_cons_of_pos (by simp [hword])]
    rfl
  · rw [List.foldl_append, List.foldl_cons, List.foldl_nil, hwrite]

theorem textOf_clipped (line : List Placed) : textOf (clipped line) = textOf line := by
  induction line using List.reverseRecOn with
  | nil => rfl
  | append_singleton line placed ih =>
    rw [clipped_concat]
    split
    · rename_i hspace
      rw [ih, textOf_concat hspace]
    · rfl

end Directive

namespace Stream

-- A stream with its tokens on their lines, wherever they stand in the text.
def withoutOffsets (stream : Stream) : Stream :=
  ⟨stream.tokens.map Token.withoutOffset, stream.directives⟩

theorem directiveOf_clipped (line : List Placed) (first : Nat) :
    directiveOf (Placed.clipped line) first = directiveOf line first := by
  simp only [directiveOf, Directive.textOf_clipped, Placed.tokens_clipped]

theorem opensDirective_clipped (line : List Placed) :
    opensDirective (Placed.clipped line) = opensDirective line := by
  simp only [opensDirective, Placed.tokens_clipped]

theorem ofLines_clipped (directives tokens : Nat) (lines : List (List Placed)) :
    ofLines directives tokens (lines.map Placed.clipped) = ofLines directives tokens lines := by
  induction lines generalizing directives tokens with
  | nil => rfl
  | cons line rest ih =>
    simp only [List.map_cons, ofLines, opensDirective_clipped, directiveOf_clipped,
      Placed.tokens_clipped, ih]

theorem textOf_outlined (line : List Placed) :
    Directive.textOf (line.map Placed.outlined) = Directive.textOf line := by
  rw [← textOf_evened line]
  have hlexemes : (line.map Placed.outlined).map Placed.lexeme =
      (line.map Placed.evened).map Placed.lexeme := by
    rw [List.map_map, List.map_map]
    rfl
  rw [Directive.textOf, hlexemes, Directive.textOf]

theorem keeps_outlined : Keeps Placed.outlined Token.withoutOffset id 0 0 where
  token?_eq tag placed := by
    have htag : tag.map (· + 0) = tag := Option.map_id_apply
    rw [htag, Placed.token?_outlined]
  isPunctuation_eq token c := rfl
  directiveOf_eq line first _ := by
    simp only [directiveOf, textOf_outlined, Placed.tokens_map (Placed.token?_outlined none),
      List.length_map, List.head?_map, Option.map_map]
    rfl

-- A stream is what its lines are without the spaces at their ends.
theorem withoutOffsets_ofText (text : String) : (ofText text).withoutOffsets =
    ofLines 0 0 (Placed.outlines (Placed.ofLexemes 1 0 (Lexeme.scan text.toList))) := by
  have hkeeps := keeps_outlined.ofLines_map 0 0
    (Placed.lines (Placed.ofLexemes 1 0 (Lexeme.scan text.toList)))
  rw [List.map_id] at hkeeps
  have hlines : ∀ placed, Placed.outlines placed =
      ((Placed.lines placed).map (List.map Placed.outlined)).map Placed.clipped := by
    intro placed
    rw [List.map_map]
    rfl
  rw [hlines, ofLines_clipped]
  exact hkeeps.symm

end Stream

open Placed in
-- Where the words and the line ends agree, the lines do.
theorem Lexeme.Alike.outlines_eq {first second : List Lexeme} (h : Alike first second)
    (line offset other : Nat) :
    outlines (ofLexemes line offset first) = outlines (ofLexemes line other second) := by
  induction h generalizing line offset other with
  | done => rfl
  | @keep lexeme changed rest others hevened hcount h ih =>
    have hfirst : outlined ⟨lexeme, line, offset⟩ = outlined ⟨changed, line, other⟩ := by
      rw [outlined, outlined, hevened]
    have hrest := ih (line + lexeme.text.count '\n') (offset + octets lexeme.text)
      (other + octets changed.text)
    rw [ofLexemes, ofLexemes, ← hcount]
    exact outlines_cons hfirst hrest
  | @lineEnd rest others h ih =>
    -- the return is all there is on its line behind the words
    have hrest := ih (line + 1) (offset + 1) (other + 1 + 1)
    exact congrArg (clipped [] :: ·) hrest

-- A text without returns whose literals are closed on the lines they begin on.
structure Unbroken (text : String) : Prop where
  returns : '\r' ∉ text.toList
  literals : ∀ lexeme ∈ Lexeme.scan text.toList, lexeme.Unbroken

instance (text : String) : Decidable (Unbroken text) :=
  decidable_of_iff ('\r' ∉ text.toList ∧ ∀ lexeme ∈ Lexeme.scan text.toList, lexeme.Unbroken)
    ⟨fun h => ⟨h.1, h.2⟩, fun h => ⟨h.1, h.2⟩⟩

-- The text as it is with a return in front of every line end.
def returned (text : String) : String := String.ofList (withReturns text.toList)

-- The same tokens stand on the same lines of the same preprocessor lines.
theorem Unbroken.withoutOffsets_returned {text : String} (h : Unbroken text) :
    (Stream.ofText (returned text)).withoutOffsets = (Stream.ofText text).withoutOffsets := by
  have halike := Lexeme.alike_scan h.returns h.literals
  rw [Stream.withoutOffsets_ofText, returned, String.toList_ofList, ← halike.outlines_eq 1 0 0,
    ← Stream.withoutOffsets_ofText]

end EventFlow.Source
