import EventFlow.Proofs.Callable
import EventFlow.Proofs.Corpus.Files
import EventFlow.Proofs.Source.Bracket
import EventFlow.Proofs.Source.PlainText
import EventFlow.Proofs.System.Names

namespace EventFlow.System

open Source Piece

-- The creations in a helper, each with what stands behind it.
def creations (behind : List Piece) (events : List String) : List Piece :=
  events.flatMap fun event => gap :: word ("new_" ++ event) :: mark '(' :: mark ')' :: behind

namespace Helper

def line (helper : Helper) : List Piece :=
  match helper.kind with
  | .function => word "void" :: gap :: word helper.name :: mark '(' :: word "void" :: mark ')' ::
      gap :: mark '{' :: (creations [mark ';'] helper.events ++ [gap, mark '}'])
  | .functionMacro => mark '#' :: word "define" :: gap :: word helper.name :: mark '(' ::
      word "x" :: mark ')' :: creations [] helper.events
  | .objectMacro => mark '#' :: word "define" :: gap :: word helper.name ::
      creations [] helper.events

end Helper

theorem toList_creations (behind : List Piece) (events : List String) {ending : String}
    (h : ending.toList = '(' :: ')' :: textOf behind) :
    (String.join (events.map fun event => " new_" ++ event ++ ending)).toList =
      textOf (creations behind events) := by
  rw [String.toList_join, List.flatMap_map, textOf, creations, List.flatMap_assoc]
  refine List.flatMap_congr fun event _ => ?_
  rw [String.toList_append, String.toList_append, h, List.flatMap_cons, List.flatMap_cons,
    Piece.text, Piece.text, String.toList_append, List.append_assoc, List.append_assoc]
  rfl

theorem toList_functionText {name body : String} {pieces : List Piece}
    (h : body.toList = textOf pieces) :
    (functionText name body).toList =
      textOf (word "void" :: gap :: word name :: mark '(' :: word "void" :: mark ')' :: gap ::
        mark '{' :: (pieces ++ [gap, mark '}'])) ++ ['\n'] := by
  simp [functionText, h, textOf, Piece.text]

theorem Helper.toList_text (helper : Helper) :
    helper.text.toList = textOf helper.line ++ ['\n'] := by
  rcases helper with ⟨name, kind, events⟩
  cases kind with
  | function => exact toList_functionText (toList_creations [mark ';'] events rfl)
  | functionMacro =>
    have hcreations := @toList_creations [] events "()" rfl
    simp [Helper.text, Helper.line, hcreations, textOf, Piece.text]
  | objectMacro =>
    have hcreations := @toList_creations [] events "()" rfl
    simp [Helper.text, Helper.line, hcreations, textOf, Piece.text]

theorem fits_creations {behind rest : List Piece} {events : List String}
    (hbehind : behind = [] ∨ behind = [mark ';']) (hevents : ∀ event ∈ events, isEventName event)
    (h : Fits rest) : Fits (creations behind events ++ rest) := by
  induction events with
  | nil => exact h
  | cons event events ih =>
    rw [List.forall_mem_cons] at hevents
    have hrest := ih hevents.2
    have hname := isIdentifier_new hevents.1
    rw [creations, List.flatMap_cons, ← creations]
    rcases hbehind with rfl | rfl
    · exact ⟨⟨by simp, by simp⟩, hname, by simp, by decide, by decide, hrest⟩
    · exact ⟨⟨by simp, by simp⟩, hname, by simp, by decide, by decide, by decide, hrest⟩

theorem Helper.Sound.fits_line {helper : Helper} (h : helper.Sound) : Fits helper.line := by
  obtain ⟨hname, _, _, hevents⟩ := h
  unfold line
  cases helper.kind with
  | function =>
    have hbody : Fits (creations [mark ';'] helper.events ++ [gap, mark '}']) :=
      fits_creations (.inr rfl) hevents ⟨⟨by simp, by simp⟩, by decide, trivial⟩
    exact ⟨by decide, by simp, ⟨by simp, by simp⟩, hname, by simp, by decide,
      by decide, by simp, by decide, ⟨by simp, by simp⟩, by decide, hbody⟩
  | functionMacro =>
    have hbody : Fits (creations [] helper.events ++ []) := fits_creations (.inl rfl) hevents trivial
    rw [List.append_nil] at hbody
    exact ⟨by decide, by decide, by simp, ⟨by simp, by simp⟩, hname, by simp, by decide,
      by decide, by simp, by decide, hbody⟩
  | objectMacro =>
    have hbody : Fits (creations [] helper.events ++ []) := fits_creations (.inl rfl) hevents trivial
    rw [List.append_nil] at hbody
    have hhead : ∀ other, (creations [] helper.events).head? ≠ some (word other) := by
      intro other
      cases helper.events with
      | nil => exact fun h => nomatch h
      | cons event events => exact fun h => nomatch h
    exact ⟨by decide, by decide, by simp, ⟨by simp, by simp⟩, hname, hhead, hbody⟩

theorem namesOf_creations {behind : List Piece} (events : List String)
    (hbehind : behind = [] ∨ behind = [mark ';']) :
    namesOf (creations behind events) = events.map ("new_" ++ ·) := by
  induction events with
  | nil => rfl
  | cons event events ih =>
    rw [creations, List.flatMap_cons, ← creations, namesOf_append, ih]
    rcases hbehind with rfl | rfl
    · rfl
    · rfl

theorem createdIn_creations {behind : List Piece} {events : List String}
    (hbehind : behind = [] ∨ behind = [mark ';']) (hevents : ∀ event ∈ events, isEventName event) :
    Event.createdIn (tokensOf (creations behind events)) = NameSet.ofList events := by
  have hnew : (events.map ("new_" ++ ·)).filterMap Event.createdBy? = events := by
    rw [List.filterMap_map]
    refine (List.filterMap_congr fun event hevent => ?_).trans List.filterMap_some
    exact createdBy?_new (hevents event hevent)
  rw [createdIn_tokensOf, namesOf_creations events hbehind, hnew]

theorem not_curly_of_mem_creations {events : List String} {token : Token}
    (h : token ∈ tokensOf (creations [mark ';'] events)) :
    Bracket.opens .curly token = false ∧ Bracket.closes .curly token = false := by
  induction events with
  | nil => cases h
  | cons event events ih =>
    rw [creations, List.flatMap_cons, ← creations, tokensOf_append, List.mem_append] at h
    rcases h with h | h
    · simp only [tokensOf_gap, tokensOf_word, tokensOf_mark, tokensOf_nil, List.mem_cons,
        List.not_mem_nil, or_false] at h
      rcases h with rfl | rfl | rfl | rfl
      · exact ⟨rfl, rfl⟩
      · exact ⟨rfl, rfl⟩
      · exact ⟨rfl, rfl⟩
      · exact ⟨rfl, rfl⟩
    · exact ih h

namespace Helper

-- What is to be found out about a helper.
def definition (helper : Helper) : Callable.Definition :=
  ⟨helper.name, helper.kind, NameSet.ofList helper.events, 0⟩

theorem opensDirective_line (helper : Helper) :
    opensDirective helper.line = decide (helper.kind ≠ .function) := by
  unfold line
  cases helper.kind with
  | function => rfl
  | functionMacro => rfl
  | objectMacro => rfl

namespace Sound

variable {helper : Helper}

theorem functions_line (h : helper.Sound) (hkind : helper.kind = .function) (rest : List Token) :
    Callable.functions [] ⟨none, none⟩ (tokensOf helper.line ++ rest) =
      helper.definition :: Callable.functions [] ⟨none, none⟩ rest := by
  have htokens : tokensOf helper.line ++ rest = .word "void" :: .word helper.name :: .mark '(' ::
      ([.word "void"] ++ .mark ')' :: .mark '{' ::
        (tokensOf (creations [mark ';'] helper.events) ++ .mark '}' :: rest)) := by
    simp [line, hkind]
  have hparameters : ∀ token ∈ [Token.word "void"],
      Bracket.opens .round token = false ∧ Bracket.closes .round token = false := by
    simp [Bracket.opens, Bracket.closes]
  have hbody : Callable.parametersAndBody? (.mark '(' ::
      ([.word "void"] ++ .mark ')' :: .mark '{' ::
        (tokensOf (creations [mark ';'] helper.events) ++ .mark '}' :: rest))) =
      some (tokensOf (creations [mark ';'] helper.events), rest) := by
    rw [Callable.parametersAndBody?, Token.group?_append rfl hparameters rfl, Option.bind_some,
      Token.group?_append rfl (fun token => not_curly_of_mem_creations) rfl]
  rw [htokens, Callable.functions_passing (by simp) (by simp) fun _ => rfl,
    Callable.functions_defining rfl rfl h.free hbody,
    createdIn_creations (.inr rfl) h.events_named]
  rw [definition, hkind]
  rfl

theorem macroOfLine?_line (h : helper.Sound) (hkind : helper.kind ≠ .function) :
    Callable.macroOfLine? (helper.line.map placed) = some helper.definition := by
  have hfits := h.fits_line
  have hcreated := @createdIn_creations [] helper.events (.inl rfl) h.events_named
  unfold line at hfits ⊢
  cases hcases : helper.kind with
  | function => exact absurd hcases hkind
  | functionMacro =>
    simp only [hcases] at hfits ⊢
    rw [macroOfLine?_define hfits, definition, ← hcreated, hcases]
    rfl
  | objectMacro =>
    have hhead : (creations [] helper.events).head? ≠ some (mark '(') := by
      cases helper.events with
      | nil => exact fun h => nomatch h
      | cons event events => exact fun h => nomatch h
    simp only [hcases] at hfits ⊢
    rw [macroOfLine?_define hfits, if_neg hhead, definition, ← hcreated, hcases]

theorem definition_emits_ne_empty (h : helper.Sound) : helper.definition.emits ≠ ∅ := by
  obtain ⟨event, hevent⟩ := List.exists_mem_of_ne_nil _ h.events_ne_nil
  exact NameSet.ne_empty_iff.mpr ⟨event, NameSet.mem_ofList.mpr hevent⟩

end Sound

theorem functions_lines {helpers : List Helper} (h : ∀ helper ∈ helpers, helper.Sound)
    (hkind : ∀ helper ∈ helpers, helper.kind = .function) :
    Callable.functions [] ⟨none, none⟩ (helpers.flatMap fun helper => tokensOf helper.line) =
      helpers.map definition := by
  induction helpers with
  | nil => rw [List.flatMap_nil, Callable.functions, List.map_nil]
  | cons helper rest ih =>
    rw [List.forall_mem_cons] at h hkind
    rw [List.flatMap_cons, h.1.functions_line hkind.1, ih h.2 hkind.2, List.map_cons]

theorem macros_lines {helpers : List Helper} (h : ∀ helper ∈ helpers, helper.Sound)
    (hkind : ∀ helper ∈ helpers, helper.kind ≠ .function) :
    helpers.filterMap (fun helper => Callable.macroOfLine? (helper.line.map placed)) =
      helpers.map definition := by
  induction helpers with
  | nil => rfl
  | cons helper rest ih =>
    rw [List.forall_mem_cons] at h hkind
    rw [List.filterMap_cons, h.1.macroOfLine?_line hkind.1, ih h.2 hkind.2, List.map_cons]

end Helper

section Text

variable {helpers : List Helper}

theorem toList_helpersText :
    (helpersText helpers).toList = linesText (helpers.map Helper.line) := by
  rw [helpersText, String.toList_join, List.flatMap_map, linesText, List.flatMap_map]
  exact List.flatMap_congr fun helper _ => helper.toList_text

-- The stream of a file of helpers, without the places of its tokens.
theorem unplaced_helpersText (h : ∀ helper ∈ helpers, helper.Sound) :
    (Stream.ofText (helpersText helpers)).unplaced =
      Stream.ofLines 0 0 ((helpers.map Helper.line).map (List.map placed) ++ [[]]) := by
  refine unplaced_ofText toList_helpersText fun line hline => ?_
  obtain ⟨helper, hhelper, rfl⟩ := List.mem_map.mp hline
  exact (h helper hhelper).fits_line

-- Each helper is found, functions first.
theorem definitions_helpersText (h : ∀ helper ∈ helpers, helper.Sound) :
    (Callable.definitions (Stream.ofText (helpersText helpers))).map
        Callable.Definition.unplaced =
      ((helpers.filter fun helper => helper.kind = .function) ++
        helpers.filter fun helper => helper.kind ≠ .function).map Helper.definition := by
  have hsub : ∀ p : Helper → Bool, ∀ helper ∈ helpers.filter p, helper.Sound :=
    fun p helper hmem => h helper (List.mem_of_mem_filter hmem)
  have hfunctions := Helper.functions_lines (hsub fun helper => helper.kind = .function)
    fun helper hmem => of_decide_eq_true (List.mem_filter.mp hmem).2
  have hmacros := Helper.macros_lines (hsub fun helper => helper.kind ≠ .function)
    fun helper hmem => of_decide_eq_true (List.mem_filter.mp hmem).2
  rw [← Callable.definitions_unplaced, unplaced_helpersText h, Callable.definitions, code_ofPieces,
    macros_ofPieces, List.filter_map, List.filter_map, List.flatMap_map, List.filterMap_map]
  simp only [Function.comp_def, Helper.opensDirective_line, decide_not, Bool.not_not]
  simp only [decide_not] at hmacros
  rw [hfunctions, hmacros, ← List.map_append, List.filter_eq_self]
  intro definition hmem
  obtain ⟨helper, hhelper, rfl⟩ := List.mem_map.mp hmem
  have hsound : helper.Sound := by
    rcases List.mem_append.mp hhelper with hin | hin
    · exact hsub _ helper hin
    · exact hsub _ helper hin
  simpa using hsound.definition_emits_ne_empty

end Text

namespace Helper.Sound

variable {helper : Helper}

-- The registration macro is not among the words that the line of a helper is written with.
theorem registers_of_mem (h : helper.Sound)
    (hname : Listener.SourceFile.registers helper.name = false) {name : String}
    (hmem : name ∈ namesOf helper.line) : Listener.SourceFile.registers name = false := by
  have hnew : ∀ event ∈ helper.events,
      Listener.SourceFile.registers ("new_" ++ event) = false :=
    fun event hevent => registers_new (h.events_named event hevent)
  have hvoid : Listener.SourceFile.registers "void" = false := by decide
  have hdefine : Listener.SourceFile.registers "define" = false := by decide
  have hx : Listener.SourceFile.registers "x" = false := by decide
  unfold line at hmem
  cases hkind : helper.kind with
  | function =>
    simp only [hkind, namesOf_word, namesOf_mark, namesOf_gap, namesOf_append, namesOf_nil,
      namesOf_creations helper.events (.inr rfl), List.append_nil, List.mem_cons,
      List.mem_map] at hmem
    rcases hmem with rfl | rfl | rfl | ⟨event, hevent, rfl⟩
    · exact hvoid
    · exact hname
    · exact hvoid
    · exact hnew event hevent
  | functionMacro =>
    simp only [hkind, namesOf_word, namesOf_mark, namesOf_gap,
      namesOf_creations helper.events (.inl rfl), List.mem_cons, List.mem_map] at hmem
    rcases hmem with rfl | rfl | rfl | ⟨event, hevent, rfl⟩
    · exact hdefine
    · exact hname
    · exact hx
    · exact hnew event hevent
  | objectMacro =>
    simp only [hkind, namesOf_word, namesOf_mark, namesOf_gap,
      namesOf_creations helper.events (.inl rfl), List.mem_cons, List.mem_map] at hmem
    rcases hmem with rfl | rfl | ⟨event, hevent, rfl⟩
    · exact hdefine
    · exact hname
    · exact hnew event hevent

end Helper.Sound

theorem isCandidate_helpersText {helpers : List Helper} (h : ∀ helper ∈ helpers, helper.Sound)
    (hname : ∀ helper ∈ helpers, Listener.SourceFile.registers helper.name = false) :
    Corpus.isCandidate (helpersText helpers) = false := by
  rw [Corpus.isCandidate, ← Listener.SourceFile.isCandidate_unplaced, unplaced_helpersText h,
    Listener.SourceFile.isCandidate, identifiers_ofPieces, List.any_eq_false]
  intro name hmem
  simp only [List.flatMap_map, List.mem_flatMap] at hmem
  obtain ⟨helper, hhelper, hin⟩ := hmem
  exact Bool.not_eq_true _ |>.mpr ((h helper hhelper).registers_of_mem (hname helper hhelper) hin)

end EventFlow.System
