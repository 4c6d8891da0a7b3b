import Mathlib.Data.List.Pairwise
import EventFlow.Proofs.Source.Writing

namespace EventFlow.Source

namespace Placed

variable {above line below : List Placed} {lexemes : List Lexeme}

theorem lines_of_not_newline (h : ∀ part ∈ line, part.lexeme.kind ≠ .newline) :
    lines line = [line] := by
  induction line with
  | nil => rfl
  | cons head tail ih =>
    obtain ⟨hhead, htail⟩ := List.forall_mem_cons.mp h
    rw [lines, if_neg hhead, ih htail]
    rfl

-- What stands between line ends, or between them and the ends of the text, is a line.
theorem mem_lines (habove : ∀ part ∈ above.getLast?, part.lexeme.kind = .newline)
    (hline : ∀ part ∈ line, part.lexeme.kind ≠ .newline)
    (hbelow : ∀ part ∈ below.head?, part.lexeme.kind = .newline) :
    line ∈ lines (above ++ (line ++ below)) := by
  have hfirst : line ∈ lines (line ++ below) := by
    cases below with
    | nil => simp [lines_of_not_newline hline]
    | cons stop below => simp [lines_append_cons (hbelow stop rfl), lines_of_not_newline hline]
  rcases List.eq_nil_or_concat above with rfl | ⟨front, stop, rfl⟩
  · exact hfirst
  · have hstop : stop.lexeme.kind = .newline := habove stop (by simp)
    rw [List.concat_eq_append, List.append_assoc, List.singleton_append,
      lines_append_cons hstop]
    exact List.mem_append_right _ hfirst

-- Each line has numbers of its own.
def Above (above below : List Placed) : Prop :=
  ∀ first ∈ above, ∀ second ∈ below, first.line < second.line

theorem exists_lines_ofLexemes (h : ∀ lexeme ∈ lexemes, lexeme.kind = .newline → '\n' ∈ lexeme.text)
    (number offset : Nat) : ∃ first others,
      lines (ofLexemes number offset lexemes) = first :: others ∧
      (∀ part ∈ first, number ≤ part.line) ∧
      (∀ other ∈ others, ∀ part ∈ other, number < part.line) ∧
      (first :: others).Pairwise Above := by
  induction lexemes generalizing number offset with
  | nil => exact ⟨[], [], rfl, by simp, by simp, by simp⟩
  | cons lexeme rest ih =>
    obtain ⟨hlexeme, hrest⟩ := List.forall_mem_cons.mp h
    obtain ⟨first, others, hlines, hfirst, hothers, habove⟩ :=
      ih hrest (number + lexeme.text.count '\n') (offset + octets lexeme.text)
    rw [ofLexemes, lines, hlines]
    split
    · rename_i hnewline
      have hcount := List.count_pos_iff.mpr (hlexeme hnewline)
      refine ⟨[], first :: others, rfl, by simp, ?_, List.pairwise_cons.mpr ⟨?_, habove⟩⟩
      · rintro other hother part hpart
        rcases List.mem_cons.mp hother with rfl | hother
        · have hle := hfirst part hpart
          omega
        · have hlt := hothers other hother part hpart
          omega
      · intro other _ part hpart
        cases hpart
    · obtain ⟨hbelow, hpairs⟩ := List.pairwise_cons.mp habove
      refine ⟨⟨lexeme, number, offset⟩ :: first, others, rfl, ?_, ?_,
        List.pairwise_cons.mpr ⟨?_, hpairs⟩⟩
      · refine List.forall_mem_cons.mpr ⟨Nat.le_refl number, fun part hpart => ?_⟩
        exact (Nat.le_add_right _ _).trans (hfirst part hpart)
      · intro other hother part hpart
        exact (Nat.le_add_right _ _).trans_lt (hothers other hother part hpart)
      · intro other hother
        refine List.forall_mem_cons.mpr ⟨fun part hpart => ?_, hbelow other hother⟩
        exact (Nat.le_add_right _ _).trans_lt (hothers other hother part hpart)

end Placed

theorem Lexeme.newline_mem_of_kind {text : List Char} {lexeme : Lexeme} (h : lexeme ∈ scan text)
    (hkind : lexeme.kind = .newline) : '\n' ∈ lexeme.text := by
  obtain ⟨before, behind, hscan⟩ := List.append_of_mem h
  have hends := endsBefore_of_scan hscan
  obtain ⟨c, taken, htext, -⟩ := id hends
  have hbegins := hends.begins htext
  rw [hkind] at hbegins
  generalize taken.length = count at hbegins
  cases hbegins
  rw [htext]
  exact List.mem_cons_self

namespace Stream

variable {text : String} {directive other : Directive} {lines : List (List Placed)}
  {line : List Placed}

theorem exists_directiveOf (directives tokens : Nat) (hline : line ∈ lines)
    (hopens : opensDirective line) :
    ∃ count, directiveOf line count ∈ (ofLines directives tokens lines).directives := by
  induction lines generalizing directives tokens with
  | nil => cases hline
  | cons head rest ih =>
    rcases List.mem_cons.mp hline with rfl | hline
    · exact ⟨tokens, by simp [ofLines, hopens]⟩
    · rw [ofLines]
      split
      · obtain ⟨count, hcount⟩ := ih (directives + 1) _ hline
        exact ⟨count, List.mem_cons_of_mem _ hcount⟩
      · exact ih directives _ hline

-- A preprocessor line has the number of one of the parts of its line.
theorem exists_part (directives tokens : Nat)
    (h : directive ∈ (ofLines directives tokens lines).directives) :
    ∃ line ∈ lines, ∃ part ∈ line, directive.line = part.line := by
  obtain ⟨number, hnumber⟩ := List.mem_iff_getElem?.mp h
  obtain ⟨line, hline, -, -, before, behind, hholds⟩ := exists_line directives tokens lines hnumber
  obtain ⟨hash, hhash, -, heq⟩ := hholds.mark
  obtain ⟨part, hpart, htoken⟩ := List.mem_filterMap.mp (List.mem_of_mem_head? hhash)
  obtain ⟨kind, -, rfl⟩ := Option.map_eq_some_iff.mp htoken
  exact ⟨line, hline, part, hpart, heq⟩

theorem directives_numbered (directives tokens : Nat) (h : lines.Pairwise Placed.Above) :
    (ofLines directives tokens lines).directives.Pairwise
      (fun first second => first.line < second.line) := by
  induction lines generalizing directives tokens with
  | nil => exact .nil
  | cons line rest ih =>
    obtain ⟨habove, hrest⟩ := List.pairwise_cons.mp h
    cases hopens : opensDirective line with
    | false =>
      simp only [ofLines, hopens, Bool.false_eq_true, if_false]
      exact ih _ _ hrest
    | true =>
      simp only [ofLines, hopens, if_true]
      refine List.pairwise_cons.mpr ⟨fun other hother => ?_, ih _ _ hrest⟩
      have hfirst : directiveOf line tokens ∈ (ofLines 0 tokens [line]).directives := by
        simp [ofLines, hopens]
      obtain ⟨_, hmem, first, hpart, hline⟩ := exists_part 0 tokens hfirst
      obtain rfl := List.mem_singleton.mp hmem
      obtain ⟨below, hbelow, second, hsecond, hother⟩ := exists_part _ _ hother
      rw [hline, hother]
      exact habove below hbelow first hpart second hsecond

-- The number of its line tells a preprocessor line from all the others.
theorem eq_of_line_eq (h : directive ∈ (ofText text).directives)
    (hother : other ∈ (ofText text).directives) (hline : directive.line = other.line) :
    directive = other := by
  have hnewline (lexeme : Lexeme) (hlexeme : lexeme ∈ Lexeme.scan text.toList) :=
    @Lexeme.newline_mem_of_kind text.toList lexeme hlexeme
  obtain ⟨first, others, hlines, -, -, habove⟩ := Placed.exists_lines_ofLexemes hnewline 1 0
  rw [← hlines] at habove
  have hne : (ofText text).directives.Pairwise fun first second => first.line ≠ second.line :=
    (directives_numbered 0 0 habove).imp Nat.ne_of_lt
  have : Std.Symm fun first second : Directive => first.line ≠ second.line :=
    ⟨fun _ _ hne => hne.symm⟩
  by_contra hdiffer
  exact hne.forall h hother hdiffer hline

end Stream

end EventFlow.Source
