import EventFlow.Proofs.Grid.Drawing

namespace EventFlow.Grid

theorem prefix_append_blank_iff {marker cell rest : List Char} (h : ' ' ∉ marker) :
    marker <+: cell ++ ' ' :: rest ↔ marker <+: cell := by
  induction cell generalizing marker with
  | nil =>
    cases marker with
    | nil => simp
    | cons c marker =>
      have hne : c ≠ ' ' := fun heq => h (heq ▸ List.mem_cons_self)
      simp [List.cons_prefix_cons, hne]
  | cons d cell ih =>
    cases marker with
    | nil => simp
    | cons c marker =>
      rw [List.cons_append, List.cons_prefix_cons, List.cons_prefix_cons,
        ih fun hmem => h (List.mem_cons_of_mem _ hmem)]

section LastIndex

variable {test : List Char → Bool} {lines : List (List Char)} {index : Nat}

theorem lastIndex?_eq_none (h : ∀ line ∈ lines, test line = false) :
    lastIndex? test lines = none := by
  induction lines with
  | nil => rfl
  | cons line lines ih =>
    rw [lastIndex?, ih fun other hother => h other (List.mem_cons_of_mem _ hother)]
    simp [h line List.mem_cons_self]

theorem lastIndex?_eq_some {line : List Char} (hline : lines[index]? = some line)
    (htest : test line)
    (hafter : ∀ later other, index < later → lines[later]? = some other → test other = false) :
    lastIndex? test lines = some index := by
  induction lines generalizing index with
  | nil => cases hline
  | cons first lines ih =>
    cases index with
    | zero =>
      cases hline
      have hnone : lastIndex? test lines = none := by
        refine lastIndex?_eq_none fun other hother => ?_
        obtain ⟨later, hlater⟩ := List.mem_iff_getElem?.mp hother
        exact hafter (later + 1) other (Nat.zero_lt_succ later) hlater
      simp only [lastIndex?, hnone, htest, if_true]
    | succ index =>
      have hrest : lastIndex? test lines = some index :=
        ih hline fun later other hlt hother =>
          hafter (later + 1) other (Nat.succ_lt_succ hlt) hother
      rw [lastIndex?, hrest]

theorem exists_of_lastIndex? (h : lastIndex? test lines = some index) :
    ∃ line, lines[index]? = some line ∧ test line := by
  induction lines generalizing index with
  | nil => cases h
  | cons line lines ih =>
    rw [lastIndex?] at h
    cases hrest : lastIndex? test lines with
    | some later =>
      rw [hrest] at h
      cases h
      exact ih hrest
    | none =>
      rw [hrest] at h
      by_cases hline : test line
      · simp only [hline, if_true, Option.some_inj] at h
        subst h
        exact ⟨line, rfl, hline⟩
      · simp [hline] at h

theorem eq_false_of_lastIndex?_eq_none (h : lastIndex? test lines = none) {line : List Char}
    (hline : line ∈ lines) : test line = false := by
  induction lines with
  | nil => cases hline
  | cons head lines ih =>
    rw [lastIndex?] at h
    cases hrest : lastIndex? test lines with
    | some last =>
      rw [hrest] at h
      cases h
    | none =>
      obtain rfl | hmem := List.mem_cons.mp hline
      · simpa [hrest] using h
      · exact ih hrest hmem

theorem eq_false_of_lastIndex? (h : lastIndex? test lines = some index) {later : Nat}
    {line : List Char} (hlt : index < later) (hline : lines[later]? = some line) :
    test line = false := by
  induction lines generalizing index later with
  | nil => cases hline
  | cons head lines ih =>
    obtain ⟨later, rfl⟩ := Nat.exists_eq_succ_of_ne_zero (Nat.ne_zero_of_lt hlt)
    rw [Nat.succ_eq_add_one, List.getElem?_cons_succ] at hline
    rw [lastIndex?] at h
    cases hrest : lastIndex? test lines with
    | some last =>
      rw [hrest] at h
      cases h
      exact ih hrest (Nat.lt_of_succ_lt_succ hlt) hline
    | none => exact eq_false_of_lastIndex?_eq_none hrest (List.mem_of_getElem? hline)

end LastIndex

variable {first : Column} {others : List Column} {rows : Nat} {marker : String} {span : Nat}

-- A line whose first cell starts with the marker, as the closing of a table looks for it.
def isMarked (marker : String) (line : List Char) : Bool :=
  ('|' :: ' ' :: marker.toList).isPrefixOf line

theorem isMarked_iff {line : List Char} :
    isMarked marker line ↔ '|' :: ' ' :: marker.toList <+: line := List.isPrefixOf_iff_prefix

theorem rowLine_cons (width : Nat) (widths : List Nat) (cell : String) (cells : List String) :
    ∃ rest, rowLine (width :: widths) (cell :: cells) =
      '|' :: ' ' :: (cell.toList ++ ' ' :: rest) := by
  have hblank : ∀ count (behind : List Char), ∃ rest,
      List.replicate count ' ' ++ ' ' :: behind = ' ' :: rest := by
    intro count behind
    cases count with
    | zero => exact ⟨behind, rfl⟩
    | succ count => exact ⟨_, rfl⟩
  rw [rowLine, List.zipWith_cons_cons, pad]
  cases List.zipWith pad widths cells with
  | nil =>
    obtain ⟨rest, hrest⟩ := hblank (width - cell.length) ['|']
    refine ⟨rest, ?_⟩
    rw [List.intercalate_singleton, List.append_assoc, ← hrest]
  | cons next cells =>
    obtain ⟨rest, hrest⟩ := hblank (width - cell.length)
      ('|' :: ' ' :: (List.intercalate [' ', '|', ' '] (next :: cells) ++ [' ', '|']))
    refine ⟨rest, ?_⟩
    rw [List.intercalate_cons_cons, ← hrest]
    simp only [List.append_assoc, List.cons_append, List.nil_append]

theorem isMarked_rowLine (hblank : ' ' ∉ marker.toList) (width : Nat) (widths : List Nat)
    (cell : String) (cells : List String) :
    isMarked marker (rowLine (width :: widths) (cell :: cells)) ↔
      marker.toList <+: cell.toList := by
  obtain ⟨rest, hline⟩ := rowLine_cons width widths cell cells
  rw [isMarked_iff, hline, List.cons_prefix_cons, List.cons_prefix_cons,
    prefix_append_blank_iff hblank]
  simp

theorem isMarked_rule (fill : Char) (widths : List Nat) :
    isMarked marker (rule fill widths) = false := by
  rw [Bool.eq_false_iff, ne_eq, isMarked_iff, rule, List.cons_prefix_cons]
  exact fun h => absurd h.1 (by decide)

theorem isMarked_separatorFrom (hne : marker.toList ≠ []) (hblank : ' ' ∉ marker.toList)
    (columns : List (Nat × Bool)) :
    isMarked marker (separatorFrom false columns) = false := by
  rw [Bool.eq_false_iff, ne_eq, isMarked_iff]
  cases columns with
  | nil => simp [separatorFrom]
  | cons column columns =>
    obtain ⟨width, flag⟩ := column
    cases flag with
    | true => simp [separatorFrom, List.cons_prefix_cons]
    | false =>
      -- two blanks follow the junction of an open column
      have hline : separatorFrom false ((width, false) :: columns) =
          '|' :: ' ' :: ([] ++
            ' ' :: (List.replicate width ' ' ++ separatorFrom false columns)) := rfl
      rw [hline, List.cons_prefix_cons, List.cons_prefix_cons, prefix_append_blank_iff hblank,
        List.prefix_nil]
      exact fun h => hne h.2.2

-- The cell of the first column starts with the marker.
def MarkedAt (marker : String) (first : Column) (row : Nat) : Prop :=
  marker.toList <+: (first.cell row).toList

instance (marker : String) (first : Column) (row : Nat) : Decidable (MarkedAt marker first row) :=
  inferInstanceAs (Decidable (_ <+: _))

-- Among the lines below the headings only rows are marked.
theorem exists_row_of_isMarked (hne : marker.toList ≠ []) (hblank : ' ' ∉ marker.toList)
    (hrows : 0 < rows) {index : Nat} {line : List Char} (hindex : 3 ≤ index)
    (hline : (drawing (first :: others) rows).lines[index]? = some line)
    (hmarked : isMarked marker line) :
    ∃ row < rows, index = 2 * row + 3 ∧ MarkedAt marker first row := by
  have hlength := List.getElem?_eq_some_iff.mp hline |>.1
  rw [length_lines hrows] at hlength
  obtain ⟨row, rfl | rfl⟩ : ∃ row, index = 2 * row + 3 ∨ index = 2 * row + 4 := by
    refine ⟨(index - 3) / 2, ?_⟩
    omega
  · rw [getElem?_row (by omega)] at hline
    cases hline
    exact ⟨row, by omega, rfl, (isMarked_rowLine hblank _ _ _ _).mp hmarked⟩
  · by_cases hlast : row + 1 < rows
    · rw [getElem?_below hlast] at hline
      cases hline
      rw [isMarked_separatorFrom hne hblank] at hmarked
      cases hmarked
    · have hbottom : 2 * row + 4 = 2 * rows + 2 := by omega
      rw [hbottom, getElem?_bottom hrows] at hline
      cases hline
      rw [isMarked_rule] at hmarked
      cases hmarked

-- Of the headings none is marked.
theorem three_le_of_isMarked (hblank : ' ' ∉ marker.toList)
    (hheader : ¬ marker.toList <+: first.header.toList) {index : Nat} {line : List Char}
    (hline : (drawing (first :: others) rows).lines[index]? = some line)
    (hmarked : isMarked marker line) : 3 ≤ index := by
  match index with
  | 0 =>
    cases hline
    rw [isMarked_rule] at hmarked
    cases hmarked
  | 1 =>
    cases hline
    exact absurd ((isMarked_rowLine hblank _ _ _ _).mp hmarked) hheader
  | 2 =>
    cases hline
    rw [isMarked_rule] at hmarked
    cases hmarked
  | index + 3 => exact Nat.le_add_left 3 index

-- What closing makes of the line below the last marked row.
def closed (widths : List Nat) (span : Nat) (line : List Char) : List Char :=
  if line.head? = some '|' then dashBelow (widths.take span) line else line

theorem closed_rule (fill : Char) (widths : List Nat) : closed widths span (rule fill widths) =
    rule fill widths := if_neg (by simp [rule])

theorem closed_separatorFrom {width : Nat} {widths : List Nat} {flags : List Bool}
    (h : flags.length = widths.length) :
    closed (width :: widths) span (separatorFrom false ((width :: widths).zip (false :: flags))) =
      separatorFrom false ((width :: widths).zip (raiseFirst span (false :: flags))) :=
  (if_pos rfl).trans (dashBelow_separatorFrom (by simp [h]) span)

theorem closeBelowLast_of_none {grid : Grid}
    (h : lastIndex? (isMarked marker) grid.lines = none) :
    grid.closeBelowLast marker span = grid := by
  unfold closeBelowLast
  rw [show lastIndex? (fun line => ('|' :: ' ' :: marker.toList).isPrefixOf line) grid.lines =
    none from h]

theorem closeBelowLast_of_some {grid : Grid} {index : Nat}
    (h : lastIndex? (isMarked marker) grid.lines = some index) :
    grid.closeBelowLast marker span =
      { grid with lines := grid.lines.modify (index + 1) (closed grid.widths span) } := by
  unfold closeBelowLast
  rw [show lastIndex? (fun line => ('|' :: ' ' :: marker.toList).isPrefixOf line) grid.lines =
    some index from h]
  rfl

theorem lastIndex?_lines (hne : marker.toList ≠ []) (hblank : ' ' ∉ marker.toList)
    {row : Nat} (hrow : row < rows) (hmarked : MarkedAt marker first row)
    (hafter : ∀ later, row < later → later < rows → ¬ MarkedAt marker first later) :
    lastIndex? (isMarked marker) (drawing (first :: others) rows).lines = some (2 * row + 3) := by
  refine lastIndex?_eq_some (getElem?_row hrow) ((isMarked_rowLine hblank _ _ _ _).mpr hmarked)
    fun index other hindex hother => ?_
  by_contra hmark
  obtain ⟨later, hlater, rfl, hmarkedLater⟩ := exists_row_of_isMarked hne hblank
    (Nat.zero_lt_of_lt hrow) (by omega) hother (Bool.not_eq_false _ ▸ hmark)
  exact hafter later (by omega) hlater hmarkedLater

-- Closing changes the line below the last row whose first cell starts with the marker.
theorem closeBelowLast_of_last (hne : marker.toList ≠ []) (hblank : ' ' ∉ marker.toList)
    {row : Nat} (hrow : row < rows) (hmarked : MarkedAt marker first row)
    (hafter : ∀ later, row < later → later < rows → ¬ MarkedAt marker first later) :
    (drawing (first :: others) rows).closeBelowLast marker span =
      { drawing (first :: others) rows with
        lines := (drawing (first :: others) rows).lines.modify (2 * row + 4)
          (closed (widthsOf (first :: others)) span) } :=
  closeBelowLast_of_some (lastIndex?_lines hne hblank hrow hmarked hafter)

-- A table without marked rows stays as it is.
theorem closeBelowLast_of_unmarked (hne : marker.toList ≠ []) (hblank : ' ' ∉ marker.toList)
    (hrows : 0 < rows) (hheader : ¬ marker.toList <+: first.header.toList)
    (hmarked : ∀ row < rows, ¬ MarkedAt marker first row) :
    (drawing (first :: others) rows).closeBelowLast marker span =
      drawing (first :: others) rows := by
  refine closeBelowLast_of_none (lastIndex?_eq_none fun line hline => ?_)
  obtain ⟨index, hindex⟩ := List.mem_iff_getElem?.mp hline
  by_contra hmark
  have hmark : isMarked marker line := Bool.not_eq_false _ ▸ hmark
  obtain ⟨row, hrow, _, hmarkedRow⟩ := exists_row_of_isMarked hne hblank hrows
    (three_le_of_isMarked hblank hheader hindex hmark) hindex hmark
  exact hmarked row hrow hmarkedRow

-- The table with the separator below its first `count` rows closed.
def closedDrawing (columns : List Column) (rows count span : Nat) : Grid :=
  { drawing columns rows with
    lines := (drawing columns rows).lines.modify (2 * count + 2) (closed (widthsOf columns) span) }

-- Closing a table in which the first `count` rows are marked. Without any, the line above the
-- rows comes into question, but that is a rule.
theorem closeBelowLast_eq {count : Nat} (hne : marker.toList ≠ []) (hblank : ' ' ∉ marker.toList)
    (hheader : ¬ marker.toList <+: first.header.toList) (hrows : 0 < rows) (hcount : count ≤ rows)
    (hmarked : ∀ row < rows, MarkedAt marker first row ↔ row < count) :
    (drawing (first :: others) rows).closeBelowLast marker span =
      closedDrawing (first :: others) rows count span := by
  cases count with
  | zero =>
    have hrule : (drawing (first :: others) rows).lines.modify 2
        (closed (widthsOf (first :: others)) span) = (drawing (first :: others) rows).lines := by
      simp only [drawing, List.modify_succ_cons, List.modify_zero_cons, closed_rule]
    have hunmarked : ∀ row < rows, ¬ MarkedAt marker first row :=
      fun row hrow h => Nat.not_lt_zero row ((hmarked row hrow).mp h)
    rw [closeBelowLast_of_unmarked hne hblank hrows hheader hunmarked, closedDrawing, Nat.mul_zero,
      Nat.zero_add, hrule]
  | succ last =>
    have hmarkedLast : MarkedAt marker first last :=
      (hmarked last hcount).mpr (Nat.lt_succ_self last)
    have hafter : ∀ later, last < later → later < rows → ¬ MarkedAt marker first later :=
      fun later hlater hrow h => absurd ((hmarked later hrow).mp h) (by omega)
    exact closeBelowLast_of_last hne hblank hcount hmarkedLast hafter

section Lines

variable {columns : List Column} {count row : Nat}

theorem length_closed_lines (hrows : 0 < rows) :
    (closedDrawing columns rows count span).lines.length = 2 * rows + 3 := by
  rw [closedDrawing, List.length_modify, length_lines hrows]

theorem getElem?_closed {index : Nat} {line : List Char}
    (h : (drawing columns rows).lines[index]? = some line) :
    (closedDrawing columns rows count span).lines[index]? =
      some (if 2 * count + 2 = index then closed (widthsOf columns) span line else line) := by
  simp only [closedDrawing, List.getElem?_modify, h]
  split_ifs
  · rfl
  · rfl

theorem getElem?_closed_row (h : row < rows) :
    (closedDrawing columns rows count span).lines[2 * row + 3]? =
      some (rowLine (widthsOf columns) (cellsAt columns row)) := by
  rw [getElem?_closed (getElem?_row h), if_neg (by omega)]

-- No rule is ever changed.
theorem getElem?_closed_rule {index : Nat} {fill : Char}
    (h : (drawing columns rows).lines[index]? = some (rule fill (widthsOf columns))) :
    (closedDrawing columns rows count span).lines[index]? =
      some (rule fill (widthsOf columns)) := by
  rw [getElem?_closed h, closed_rule, ite_self]

theorem getElem?_closed_below
    (hopen : count < rows → hasContent (first.cell count) = false) (h : row + 1 < rows) :
    ∃ line, (closedDrawing (first :: others) rows count span).lines[2 * row + 4]? = some line ∧
      Ruled (widthsOf (first :: others))
        (if row + 1 = count then raiseFirst span (flagsAbove (first :: others) (row + 1))
          else flagsAbove (first :: others) (row + 1)) line := by
  refine ⟨_, getElem?_closed (getElem?_below h), ?_⟩
  by_cases hlast : row + 1 = count
  · subst hlast
    rw [if_pos rfl, if_pos (by omega), flagsAbove_cons, hopen h, widthsOf, List.map_cons,
      ← widthsOf, closed_separatorFrom (length_flagsAbove others _)]
    exact ruled_separatorFrom (by rw [length_raiseFirst, List.length_cons, List.length_cons,
      length_flagsAbove])
  · rw [if_neg hlast, if_neg (by omega)]
    exact ruled_separatorFrom (length_flagsAbove _ _)

example : ((drawing [⟨"S", ["r", ""]⟩, ⟨"O", ["", "o"]⟩] 2).closeBelowLast "r" 1).lines[4]? =
    some "+---+---+".toList := by decide +kernel

end Lines

end EventFlow.Grid
