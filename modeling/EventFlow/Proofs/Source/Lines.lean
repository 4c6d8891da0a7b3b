import EventFlow.Proofs.Source.Piece
import EventFlow.Proofs.Source.Placement

namespace EventFlow

open Source

namespace Source

def Token.inDirective (directive : Option Nat) (token : Token) : Token :=
  { token with directive := directive }

theorem Placed.lines_ne_nil (placed : List Placed) : lines placed ≠ [] := by
  induction placed with
  | nil => exact List.cons_ne_nil _ _
  | cons head tail ih =>
    rw [lines]
    split
    · exact List.cons_ne_nil _ _
    · exact fun h => ih (List.modifyHead_eq_nil_iff.mp h)

theorem Placed.tokens_inDirective (directive : Option Nat) (line : List Placed) :
    line.filterMap (token? directive) =
      (line.filterMap (token? none)).map (Token.inDirective directive) := by
  rw [List.map_filterMap]
  refine List.filterMap_congr fun placed _ => ?_
  rw [token?, token?, Option.map_map]
  rfl

namespace Stream

theorem length_tokens (line : List Placed) (tag : Option Nat) :
    (line.filterMap (Placed.token? tag)).length = (line.filterMap (Placed.token? none)).length := by
  rw [Placed.tokens_inDirective tag, List.length_map]

theorem code_ofLines (directives tokens : Nat) (lines : List (List Placed)) :
    (ofLines directives tokens lines).code =
      (lines.filter fun line => !opensDirective line).flatMap
        (List.filterMap (Placed.token? none)) := by
  induction lines generalizing directives tokens with
  | nil => rfl
  | cons line rest ih =>
    have hin : ∀ directive, ((line.filterMap (Placed.token? (some directive))).filter
        fun token => token.directive = none) = [] := by
      intro directive
      rw [Placed.tokens_inDirective, List.filter_eq_nil_iff]
      intro token htoken
      obtain ⟨other, _, rfl⟩ := List.mem_map.mp htoken
      simp [Token.inDirective]
    have hout : ((line.filterMap (Placed.token? none)).filter
        fun token => token.directive = none) = line.filterMap (Placed.token? none) := by
      rw [Placed.tokens_inDirective, List.filter_eq_self]
      intro token htoken
      obtain ⟨other, _, rfl⟩ := List.mem_map.mp htoken
      simp [Token.inDirective]
    cases h : opensDirective line with
    | true =>
      simp only [ofLines, h, if_true, code, List.filter_append, hin, List.nil_append]
      rw [List.filter_cons_of_neg (by simp [h]), ← ih]
      rfl
    | false =>
      simp only [ofLines, h, Bool.false_eq_true, if_false, code, List.filter_append, hout]
      rw [List.filter_cons_of_pos (by simp [h]), List.flatMap_cons, ← ih]
      rfl

theorem identifiers_ofLines (directives tokens : Nat) (lines : List (List Placed)) :
    (ofLines directives tokens lines).identifiers = lines.flatMap fun line =>
      ((line.filterMap (Placed.token? none)).filter Token.isIdentifier).map Token.text := by
  induction lines generalizing directives tokens with
  | nil => rfl
  | cons line rest ih =>
    have hline : ∀ directive, ((line.filterMap (Placed.token? directive)).filter
        Token.isIdentifier).map Token.text =
        ((line.filterMap (Placed.token? none)).filter Token.isIdentifier).map Token.text := by
      intro directive
      rw [Placed.tokens_inDirective, List.filter_map, List.map_map]
      rfl
    cases h : opensDirective line with
    | true =>
      simp only [ofLines, h, if_true, identifiers, List.filter_append, List.map_append, hline,
        List.flatMap_cons]
      rw [← ih (directives + 1)]
      rfl
    | false =>
      simp only [ofLines, h, Bool.false_eq_true, if_false, identifiers, List.filter_append,
        List.map_append, List.flatMap_cons]
      rw [← ih]
      rfl

-- A text without preprocessor lines is all code.
theorem ofLines_of_code (directives tokens : Nat) {lines : List (List Placed)}
    (h : ∀ line ∈ lines, opensDirective line = false) :
    ofLines directives tokens lines =
      ⟨lines.flatMap (List.filterMap (Placed.token? none)), []⟩ := by
  induction lines generalizing tokens with
  | nil => rfl
  | cons line rest ih =>
    rw [List.forall_mem_cons] at h
    simp only [ofLines, h.1, Bool.false_eq_true, if_false, ih _ h.2, List.flatMap_cons]

end Stream

end Source

namespace Callable

-- The macro that a line defines, read off the line alone.
def macroOfLine? (line : List Placed) : Option Definition :=
  (Stream.directiveOf line 0).definition?.map fun definition =>
    { name := definition.name
      kind := if definition.takesArguments then .functionMacro else .objectMacro
      emits := Event.createdIn ((line.filterMap (Placed.token? none)).drop 3)
      line := (Stream.directiveOf line 0).line }

theorem createdIn_inDirective (directive : Option Nat) (tokens : List Token) :
    Event.createdIn (tokens.map (Token.inDirective directive)) = Event.createdIn tokens := by
  rw [Event.createdIn, List.filter_map, List.filterMap_map]
  rfl

-- The tokens of a preprocessor line are found by their numbers. `before` are those of the lines
-- above.
theorem macroOf?_directiveOf {before behind : List Token} {directive : Option Nat}
    {line : List Placed} {stream : Stream}
    (h : stream.tokens = before ++ (line.filterMap (Placed.token? directive) ++ behind)) :
    macroOf? stream (Stream.directiveOf line before.length) = macroOfLine? line := by
  have hwithin : stream.within (Stream.directiveOf line before.length) =
      line.filterMap (Placed.token? directive) := by
    have hstop : (Stream.directiveOf line before.length).stop =
        before.length + (line.filterMap (Placed.token? directive)).length := by
      rw [Placed.tokens_inDirective directive, List.length_map]
      rfl
    have hfirst : (Stream.directiveOf line before.length).first = before.length := rfl
    rw [Stream.within, hstop, hfirst, h, List.take_length_add_append, List.take_left,
      List.drop_left]
  rw [macroOf?, hwithin, Placed.tokens_inDirective, ← List.map_drop, createdIn_inDirective]
  rfl

theorem macros_ofLines (before : List Token) (directives : Nat) (lines : List (List Placed))
    {stream : Stream} (h : stream.tokens =
      before ++ (Stream.ofLines directives before.length lines).tokens) :
    (Stream.ofLines directives before.length lines).directives.filterMap (macroOf? stream) =
      (lines.filter Stream.opensDirective).filterMap macroOfLine? := by
  induction lines generalizing before directives with
  | nil => rfl
  | cons line rest ih =>
    have hlength : ∀ directive, before.length + (line.filterMap (Placed.token? none)).length =
        (before ++ line.filterMap (Placed.token? directive)).length := by
      intro directive
      rw [List.length_append, Placed.tokens_inDirective directive, List.length_map]
    cases hopens : Stream.opensDirective line with
    | true =>
      simp only [Stream.ofLines, hopens, if_true] at h ⊢
      have hmacro := macroOf?_directiveOf h
      rw [hlength (some directives)] at h ⊢
      rw [← List.append_assoc] at h
      rw [List.filterMap_cons, List.filter_cons_of_pos hopens, List.filterMap_cons, hmacro,
        ih _ _ h]
    | false =>
      simp only [Stream.ofLines, hopens, Bool.false_eq_true, if_false] at h ⊢
      rw [hlength none] at h ⊢
      rw [← List.append_assoc] at h
      rw [List.filter_cons_of_neg (by simp [hopens]), ih _ _ h]

end Callable

end EventFlow
