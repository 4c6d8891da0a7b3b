import EventFlow.Proofs.Grid.Closing
import EventFlow.Proofs.Grid.Layout

namespace EventFlow.Grid

-- A line of a table: it begins with a junction and does not reach over a line end.
structure Framed (line : List Char) : Prop where
  starts : line.head? = some '+' ∨ line.head? = some '|'
  oneLine : '\n' ∉ line

-- The texts of a column do not reach over a line end.
structure Column.OneLine (column : Column) : Prop where
  header : '\n' ∉ column.header.toList
  cells : ∀ cell ∈ column.cells, '\n' ∉ cell.toList

variable {columns : List Column} {junction fill : Char} {fills : List (List Char)}
  {widths : List Nat} {line : List Char} {span : Nat}

theorem Column.OneLine.cell {column : Column} (h : column.OneLine) (row : Nat) :
    '\n' ∉ (column.cell row).toList := by
  rw [Column.cell, List.getD_eq_getElem?_getD]
  cases hcell : column.cells[row]? with
  | none => exact List.not_mem_nil
  | some cell => exact h.cells cell (List.mem_of_getElem? hcell)

theorem framed_joined (hjunction : junction = '+' ∨ junction = '|')
    (h : ∀ fill ∈ fills, '\n' ∉ fill) : Framed (joined junction fills) where
  starts := by
    obtain ⟨rest, hrest⟩ := exists_joined junction fills
    rw [hrest]
    exact hjunction.imp (congrArg some) (congrArg some)
  oneLine := by
    have hne : '\n' ≠ junction := by
      rintro rfl
      revert hjunction
      decide
    rw [joined, List.mem_append, List.mem_flatMap, List.mem_singleton]
    rintro (⟨fill, hfill, hmem⟩ | heq)
    · exact (List.mem_cons.mp hmem).elim hne (h fill hfill)
    · exact hne heq

theorem framed_rule (hne : widths ≠ []) (hfill : '\n' ≠ fill) : Framed (rule fill widths) := by
  rw [rule_eq_joined hne]
  refine framed_joined (.inl rfl) fun chars hchars => ?_
  obtain ⟨width, -, rfl⟩ := List.mem_map.mp hchars
  exact fun hmem => hfill (List.eq_of_mem_replicate hmem)

theorem framed_rowLine (hne : columns ≠ []) {text : Column → String}
    (h : ∀ column ∈ columns, '\n' ∉ (text column).toList) :
    Framed (rowLine (widthsOf columns) (columns.map text)) := by
  rw [rowLine_eq_joined hne]
  refine framed_joined (.inr rfl) fun chars hchars => ?_
  obtain ⟨column, hcolumn, rfl⟩ := List.mem_map.mp hchars
  simp [pad, h column hcolumn]

theorem framed_separatorFrom (left : Bool) (columns : List (Nat × Bool)) :
    Framed (separatorFrom left columns) := by
  induction columns generalizing left with
  | nil =>
    cases left with
    | true => exact ⟨.inl rfl, by decide⟩
    | false => exact ⟨.inr rfl, by decide⟩
  | cons column columns ih =>
    obtain ⟨width, dashed⟩ := column
    have hrest := (ih dashed).oneLine
    cases left <;> cases dashed <;> constructor <;> simp [separatorFrom, hrest]

-- No line of a table can be taken for a line of another kind.
theorem framed_drawing (hne : columns ≠ []) (h : ∀ column ∈ columns, column.OneLine)
    (rows : Nat) : ∀ line ∈ (drawing columns rows).lines, Framed line := by
  have hwidths := widthsOf_ne_nil hne
  intro line hline
  simp only [drawing, List.mem_cons, List.mem_append, List.not_mem_nil, or_false] at hline
  obtain rfl | rfl | rfl | hbody | rfl := hline
  · exact framed_rule hwidths (by decide)
  · exact framed_rowLine hne fun column hcolumn => (h column hcolumn).header
  · exact framed_rule hwidths (by decide)
  · obtain ⟨cells, hcells, hline⟩ := mem_body hbody
    obtain ⟨row, _, rfl⟩ := List.mem_map.mp hcells
    obtain rfl | rfl := hline
    · exact framed_rowLine hne fun column hcolumn => (h column hcolumn).cell row
    · exact framed_separatorFrom false _
  · exact framed_rule hwidths (by decide)

theorem framed_dashBelow (h : Framed line) : Framed (dashBelow widths line) := by
  unfold dashBelow
  split_ifs with hnone
  · exact h
  obtain ⟨width, widths, rfl⟩ := List.exists_cons_of_ne_nil hnone
  refine ⟨.inl rfl, ?_⟩
  rw [List.mem_append, List.mem_flatMap, List.mem_cons]
  rintro (⟨width, -, hmem⟩ | heq | hmem)
  · obtain heq | hmem := List.mem_cons.mp hmem
    · exact absurd heq (by decide)
    · exact absurd (List.eq_of_mem_replicate hmem) (by decide)
  · exact absurd heq (by decide)
  · exact h.oneLine (List.mem_of_mem_drop hmem)

theorem framed_closed (h : Framed line) : Framed (closed widths span line) := by
  unfold closed
  split_ifs
  · exact framed_dashBelow h
  · exact h

theorem length_closeBelowLast (grid : Grid) (marker : String) (span : Nat) :
    (grid.closeBelowLast marker span).lines.length = grid.lines.length := by
  cases hlast : lastIndex? (isMarked marker) grid.lines with
  | none => rw [closeBelowLast_of_none hlast]
  | some index => rw [closeBelowLast_of_some hlast, List.length_modify]

theorem framed_closeBelowLast {grid : Grid} (h : ∀ line ∈ grid.lines, Framed line)
    (marker : String) (span : Nat) :
    ∀ line ∈ (grid.closeBelowLast marker span).lines, Framed line := by
  cases hlast : lastIndex? (isMarked marker) grid.lines with
  | none =>
    rw [closeBelowLast_of_none hlast]
    exact h
  | some index =>
    rw [closeBelowLast_of_some hlast]
    intro line hline
    obtain ⟨place, hplace⟩ := List.mem_iff_getElem?.mp hline
    rw [List.getElem?_modify] at hplace
    obtain ⟨other, hother, rfl⟩ := Option.map_eq_some_iff.mp hplace
    have hframed := h other (List.mem_of_getElem? hother)
    split_ifs
    · exact framed_closed hframed
    · exact hframed

end EventFlow.Grid
