import EventFlow.Proofs.Grid.Closing
import EventFlow.Proofs.Grid.Layout

namespace EventFlow.Grid

variable {first : Column} {others : List Column} {rows row : Nat} {marker : String} {span : Nat}
  {grid : Grid} {widths : List Nat} {flags : List Bool} {before after : List Char}

section Closed

theorem closed_idem (widths : List Nat) (span : Nat) (line : List Char) :
    closed widths span (closed widths span line) = closed widths span line := by
  by_cases hbar : line.head? = some '|'
  · by_cases hnone : widths.take span = []
    · simp [closed, dashBelow, hbar, hnone]
    · obtain ⟨width, rest, hwidths⟩ := List.exists_cons_of_ne_nil hnone
      have hcross : (closed widths span line).head? = some '+' := by
        simp [closed, dashBelow, hbar, hwidths]
      rw [closed, if_neg (by rw [hcross]; decide)]
  · have hline : closed widths span line = line := if_neg hbar
    rw [hline, hline]

-- A closed line is the line that it was, or starts with a cross.
theorem isMarked_closed {line : List Char} (h : isMarked marker line = false) :
    isMarked marker (closed widths span line) = false := by
  unfold closed dashBelow
  split_ifs
  · exact h
  · rename_i hnone
    obtain ⟨width, rest, hwidths⟩ := List.exists_cons_of_ne_nil hnone
    rw [hwidths, Bool.eq_false_iff, ne_eq, isMarked_iff, List.flatMap_cons, List.cons_append,
      List.cons_append, List.cons_prefix_cons]
    exact fun hprefix => absurd hprefix.1 (by decide)
  · exact h

theorem modify_eq_self {α : Type} {items : List α} {index : Nat} {f : α → α}
    (h : ∀ item, items[index]? = some item → f item = item) : items.modify index f = items := by
  refine List.ext_getElem? fun place => ?_
  rw [List.getElem?_modify]
  cases hitem : items[place]? with
  | none => rfl
  | some item =>
    by_cases heq : index = place
    · subst heq
      simp [h item hitem]
    · simp [heq]

-- The line below the last marked one is closed, and stays so.
theorem closeBelowLast_idem (grid : Grid) (marker : String) (span : Nat) :
    (grid.closeBelowLast marker span).closeBelowLast marker span =
      grid.closeBelowLast marker span := by
  cases hlast : lastIndex? (isMarked marker) grid.lines with
  | none => rw [closeBelowLast_of_none hlast, closeBelowLast_of_none hlast]
  | some index =>
    obtain ⟨line, hline, hmarked⟩ := exists_of_lastIndex? hlast
    have hagain : lastIndex? (isMarked marker)
        (grid.lines.modify (index + 1) (closed grid.widths span)) = some index := by
      refine @lastIndex?_eq_some _ _ _ line ?_ hmarked fun later other hlater hother => ?_
      · rw [List.getElem?_modify, hline]
        simp
      · rw [List.getElem?_modify] at hother
        obtain ⟨old, hold, rfl⟩ := Option.map_eq_some_iff.mp hother
        have hunmarked := eq_false_of_lastIndex? hlast hlater hold
        split_ifs
        · exact isMarked_closed hunmarked
        · exact hunmarked
    rw [closeBelowLast_of_some hlast, closeBelowLast_of_some hagain, List.modify_modify_eq]
    simp only [Function.comp_def, closed_idem]

end Closed

-- What closing a separator across its first `count` columns is to make of it: they are dashed,
-- with a cross at every junction that touches them, and the rest is left alone.
structure ClosedAcross (widths : List Nat) (count : Nat) (before after : List Char) : Prop where
  length_eq : after.length = before.length
  dashed : ∀ column < count,
    segment widths column after = List.replicate (widths.getD column 0 + 2) '-'
  crossed : 0 < count → ∀ column ≤ count, after[place widths column]? = some '+'
  segment_eq : ∀ column, count ≤ column → column < widths.length →
    segment widths column after = segment widths column before
  junction_eq : ∀ column, count = 0 ∨ count < column → column ≤ widths.length →
    after[place widths column]? = before[place widths column]?

theorem closedAcross_of_ruled (h : flags.length = widths.length)
    (hbefore : Ruled widths flags before) (hafter : Ruled widths (raiseFirst span flags) after) :
    ClosedAcross widths (min span widths.length) before after where
  length_eq := hafter.length_eq.trans hbefore.length_eq.symm
  dashed column hcolumn := by
    rw [Nat.lt_min] at hcolumn
    exact hafter.segment_eq column true
      (getElem?_raiseFirst_of_lt hcolumn.1 (h ▸ hcolumn.2))
  crossed hcount column hcolumn := by
    rw [Nat.lt_min] at hcount
    rw [Nat.le_min] at hcolumn
    have hraised : ∀ other < span, other < widths.length →
        (raiseFirst span flags).getD other false = true := by
      intro other hspan hother
      rw [List.getD_eq_getElem?_getD, getElem?_raiseFirst_of_lt hspan (h ▸ hother)]
      rfl
    rw [hafter.junction_eq column hcolumn.2]
    cases column with
    | zero => rw [hraised 0 hcount.1 hcount.2, Bool.or_true, if_pos rfl]
    | succ column =>
      rw [List.getD_cons_succ, hraised column (by omega) (by omega), Bool.true_or, if_pos rfl]
  segment_eq column hcolumn hlt := by
    have hspan : span ≤ column := by omega
    obtain ⟨flag, hflag⟩ : ∃ flag, flags[column]? = some flag :=
      ⟨_, List.getElem?_eq_getElem (h ▸ hlt)⟩
    rw [hbefore.segment_eq column _ hflag]
    exact hafter.segment_eq column _ ((getElem?_raiseFirst_of_le hspan).trans hflag)
  junction_eq column hcolumn hle := by
    rw [hbefore.junction_eq column hle, hafter.junction_eq column hle]
    obtain hzero | hlt := hcolumn
    · have hself : raiseFirst span flags = flags :=
        raiseFirst_eq_self fun other hspan hother => by omega
      rw [hself]
    · cases column with
      | zero => cases hlt
      | succ column =>
        simp only [List.getD_cons_succ]
        rw [getD_raiseFirst_of_le (by omega), getD_raiseFirst_of_le (by omega)]

-- A separator that is left as it is counts as closed where it is dashed already.
theorem closedAcross_self_iff (h : flags.length = widths.length)
    (hruled : Ruled widths flags before) :
    ClosedAcross widths (min span widths.length) before before ↔
      ∀ flag ∈ flags.take span, flag = true := by
  constructor
  · intro hclosed flag hflag
    obtain ⟨column, hcolumn⟩ := List.mem_iff_getElem?.mp hflag
    have hspan : column < span := by
      have hlt := (List.getElem?_eq_some_iff.mp hcolumn).1
      rw [List.length_take] at hlt
      omega
    rw [List.getElem?_take_of_lt hspan] at hcolumn
    have hlt := (List.getElem?_eq_some_iff.mp hcolumn).1
    have hdashes := hclosed.dashed column (by omega)
    rw [hruled.segment_eq column flag hcolumn] at hdashes
    cases flag with
    | true => rfl
    | false => exact absurd (List.cons.inj hdashes).1 (by decide)
  · intro hall
    refine closedAcross_of_ruled h hruled ?_
    rw [raiseFirst_eq_self fun column hspan hlt => ?_]
    · exact hruled
    · have hmem : flags[column] ∈ flags.take span := by
        refine List.mem_iff_getElem?.mpr ⟨column, ?_⟩
        rw [List.getElem?_take_of_lt hspan, List.getElem?_eq_getElem hlt]
      rw [List.getElem?_eq_getElem hlt, hall _ hmem]

-- The last row of a table whose first cell starts with the marker.
structure LastMarked (marker : String) (first : Column) (rows row : Nat) : Prop where
  lt : row < rows
  marked : MarkedAt marker first row
  unmarked : ∀ later, row < later → later < rows → ¬ MarkedAt marker first later

section Drawing

theorem header_or_lastMarked (hne : marker.toList ≠ []) (hblank : ' ' ∉ marker.toList)
    (hrows : 0 < rows) {index : Nat}
    (h : lastIndex? (isMarked marker) (drawing (first :: others) rows).lines = some index) :
    index = 1 ∨ ∃ row, LastMarked marker first rows row ∧ index = 2 * row + 3 := by
  obtain ⟨line, hline, hmarked⟩ := exists_of_lastIndex? h
  match index with
  | 0 =>
    cases hline
    rw [isMarked_rule] at hmarked
    cases hmarked
  | 1 => exact .inl rfl
  | 2 =>
    cases hline
    rw [isMarked_rule] at hmarked
    cases hmarked
  | index + 3 =>
    obtain ⟨row, hrow, heq, hmarkedRow⟩ :=
      exists_row_of_isMarked hne hblank hrows (Nat.le_add_left 3 index) hline hmarked
    refine .inr ⟨row, ⟨hrow, hmarkedRow, fun later hlater hlt hmarkedLater => ?_⟩, heq⟩
    have hbelow : 2 * row + 3 < 2 * later + 3 := by omega
    have hunmarked := eq_false_of_lastIndex? h (heq ▸ hbelow) (getElem?_row hlt)
    have hmark : isMarked marker (rowLine (widthsOf (first :: others))
        (cellsAt (first :: others) later)) = true :=
      (isMarked_rowLine hblank _ _ _ _).mpr hmarkedLater
    rw [hmark] at hunmarked
    cases hunmarked

-- Below the headings and below the last row there is a rule, which is never changed.
theorem closeBelowLast_drawing_eq_self (hne : marker.toList ≠ []) (hblank : ' ' ∉ marker.toList)
    (hrows : 0 < rows) (h : ∀ row, LastMarked marker first rows row → row + 1 = rows) :
    (drawing (first :: others) rows).closeBelowLast marker span =
      drawing (first :: others) rows := by
  cases hlast : lastIndex? (isMarked marker) (drawing (first :: others) rows).lines with
  | none => exact closeBelowLast_of_none hlast
  | some index =>
    have hrule : ∃ fill, (drawing (first :: others) rows).lines[index + 1]? =
        some (rule fill (widthsOf (first :: others))) := by
      obtain rfl | ⟨row, hrow, rfl⟩ := header_or_lastMarked hne hblank hrows hlast
      · exact ⟨'=', rfl⟩
      · have hbottom : 2 * row + 3 + 1 = 2 * rows + 2 := by
          have hrow := h row hrow
          omega
        exact ⟨'-', hbottom ▸ getElem?_bottom hrows⟩
    obtain ⟨fill, hfill⟩ := hrule
    rw [closeBelowLast_of_some hlast, modify_eq_self fun line hline => ?_]
    rw [hfill] at hline
    cases hline
    exact closed_rule fill _

-- A separator that is dashed in its first column passes for a rule, and is left as it is.
theorem closed_of_hasContent (h : hasContent (first.cell row) = true) :
    closed (widthsOf (first :: others)) span (separatorFrom false
        ((widthsOf (first :: others)).zip (flagsAbove (first :: others) row))) =
      separatorFrom false
        ((widthsOf (first :: others)).zip (flagsAbove (first :: others) row)) := by
  refine if_neg ?_
  rw [flagsAbove_cons, h, widthsOf, List.map_cons, List.zip_cons_cons, separatorFrom]
  simp

theorem closed_of_blank (h : hasContent (first.cell row) = false) :
    closed (widthsOf (first :: others)) span (separatorFrom false
        ((widthsOf (first :: others)).zip (flagsAbove (first :: others) row))) =
      separatorFrom false ((widthsOf (first :: others)).zip
        (raiseFirst span (flagsAbove (first :: others) row))) := by
  rw [flagsAbove_cons, h, widthsOf, List.map_cons]
  exact closed_separatorFrom (length_flagsAbove others row)

-- A separator comes out closed unless its first column is dashed and another of the first
-- columns is not.
theorem closedAcross_iff (span : Nat) :
    ClosedAcross (widthsOf (first :: others)) (min span (others.length + 1))
        (separatorFrom false ((widthsOf (first :: others)).zip (flagsAbove (first :: others) row)))
        (closed (widthsOf (first :: others)) span (separatorFrom false
          ((widthsOf (first :: others)).zip (flagsAbove (first :: others) row)))) ↔
      hasContent (first.cell row) = false ∨
        ∀ column ∈ (first :: others).take span, hasContent (column.cell row) = true := by
  have hlength := length_flagsAbove (first :: others) row
  have hruled := ruled_separatorFrom hlength
  have hcount : others.length + 1 = (widthsOf (first :: others)).length := by simp [widthsOf]
  rw [hcount]
  cases hcontent : hasContent (first.cell row) with
  | false =>
    refine iff_of_true ?_ (.inl rfl)
    rw [closed_of_blank hcontent]
    exact closedAcross_of_ruled hlength hruled
      (ruled_separatorFrom ((length_raiseFirst span _).trans hlength))
  | true =>
    rw [closed_of_hasContent hcontent, closedAcross_self_iff hlength hruled, flagsAbove, cellsAt,
      List.map_map, ← List.map_take, List.forall_mem_map]
    simp

end Drawing

-- Closing a table that was drawn. Where the last marked row has no row below it, nothing changes.
-- Otherwise only the separator below it may change, and comes out closed unless it is dashed in
-- its first column and open in another of the columns to be closed: then it stays open. A second
-- time nothing changes.
theorem closeBelowLast_effect {owner : String} (hdraw : draw owner (first :: others) = .ok grid)
    (hne : marker.toList ≠ []) (hblank : ' ' ∉ marker.toList) (span : Nat) :
    ((∀ row, LastMarked marker first first.filled.cells.length row →
        row + 1 = first.filled.cells.length) → grid.closeBelowLast marker span = grid) ∧
    (∀ row, LastMarked marker first first.filled.cells.length row →
      row + 1 < first.filled.cells.length →
      ∃ before after, grid.lines[2 * row + 4]? = some before ∧
        grid.closeBelowLast marker span =
          { grid with lines := grid.lines.set (2 * row + 4) after } ∧
        (ClosedAcross grid.widths (min span (others.length + 1)) before after ↔
          hasContent (first.cell (row + 1)) = false ∨
            ∀ column ∈ (first :: others).take span, hasContent (column.cell (row + 1)) = true) ∧
        (hasContent (first.cell (row + 1)) = true → after = before)) ∧
    (grid.closeBelowLast marker span).closeBelowLast marker span =
      grid.closeBelowLast marker span := by
  have hlaidOut := laidOut_of_draw hdraw
  rw [draw_eq_ok (List.cons_ne_nil _ _) hlaidOut.length_cells] at hdraw
  cases hdraw
  have hrows : 0 < first.filled.cells.length := by
    rw [Column.length_filled]
    omega
  refine ⟨closeBelowLast_drawing_eq_self hne hblank hrows, fun row hlast hbelow => ?_,
    closeBelowLast_idem ..⟩
  have hline := @getElem?_below (first :: others) _ _ hbelow
  refine ⟨_, _, hline, ?_, closedAcross_iff span, closed_of_hasContent⟩
  rw [closeBelowLast_of_last hne hblank hlast.lt hlast.marked hlast.unmarked,
    List.modify_eq_set_getElem?, hline]
  rfl

theorem closeBelowLast_effect_source : ∃ grid before after,
    draw "t" [⟨"S", ["r", ""]⟩, ⟨"O", ["", "o"]⟩] = .ok grid ∧ "r".toList ≠ [] ∧
      ' ' ∉ "r".toList ∧ LastMarked "r" ⟨"S", ["r", ""]⟩ 2 0 ∧
      grid.lines[4]? = some before ∧
      grid.closeBelowLast "r" 1 = { grid with lines := grid.lines.set 4 after } ∧
      ClosedAcross grid.widths 1 before after := by
  have hdraw : draw "t" [⟨"S", ["r", ""]⟩, ⟨"O", ["", "o"]⟩] =
      .ok (drawing [⟨"S", ["r", ""]⟩, ⟨"O", ["", "o"]⟩] 2) := by decide +kernel
  have hlast : LastMarked "r" ⟨"S", ["r", ""]⟩ 2 0 := by
    refine ⟨by decide, by decide, fun later hlater hlt => ?_⟩
    obtain rfl : later = 1 := by omega
    decide
  obtain ⟨-, hbelow, -⟩ := @closeBelowLast_effect _ _ "r" _ _ hdraw (by decide) (by decide) 1
  obtain ⟨before, after, hbefore, hgrid, hiff, -⟩ := hbelow 0 hlast (by decide)
  exact ⟨_, before, after, hdraw, by decide, by decide, hlast, hbefore, hgrid,
    hiff.mpr (.inl (by decide))⟩

-- The row below the marked one has a text in its first column only. The separator is dashed there,
-- and so is not closed across the second column.
theorem not_closeBelowLast_half :
    ¬ ∀ (owner marker : String) (first : Column) (others : List Column) (grid : Grid)
      (span row : Nat) (before after : List Char),
      draw owner (first :: others) = .ok grid → marker.toList ≠ [] → ' ' ∉ marker.toList →
      LastMarked marker first first.filled.cells.length row →
      row + 1 < first.filled.cells.length → grid.lines[2 * row + 4]? = some before →
      (grid.closeBelowLast marker span).lines[2 * row + 4]? = some after →
      ClosedAcross grid.widths (min span (others.length + 1)) before after := by
  intro h
  have hlast : LastMarked "r1" ⟨"S", ["r1", "x"]⟩ 2 0 := by
    refine ⟨by decide, by decide, fun later hlater hlt => ?_⟩
    obtain rfl : later = 1 := by omega
    decide
  have hclosed := h "t" "r1" ⟨"S", ["r1", "x"]⟩ [⟨"E", ["e", ""]⟩]
    (drawing [⟨"S", ["r1", "x"]⟩, ⟨"E", ["e", ""]⟩] 2) 2 0
    "+----+   |".toList "+----+   |".toList (by decide +kernel) (by decide) (by decide) hlast
    (by decide) (by decide +kernel) (by decide +kernel)
  have hdashes := hclosed.dashed 1 (by decide)
  exact absurd hdashes (by decide +kernel)

end EventFlow.Grid
