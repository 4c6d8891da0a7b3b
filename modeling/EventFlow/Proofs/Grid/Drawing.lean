import EventFlow.Proofs.Grid.Separator

namespace EventFlow.Grid

variable {columns : List Column} {rows row : Nat} {marker : String} {span : Nat}

theorem Column.filled_cell (column : Column) (row : Nat) :
    column.filled.cell row = column.cell row := by
  unfold Column.filled
  split
  · rename_i hnone
    rw [cell, cell, hnone]
    cases row <;> rfl
  · rfl

theorem Column.filled_header (column : Column) : column.filled.header = column.header := by
  unfold Column.filled
  split
  · rfl
  · rfl

theorem Column.length_filled (column : Column) :
    column.filled.cells.length = max 1 column.cells.length := by
  unfold Column.filled
  split
  · rename_i hnone
    rw [hnone]
    rfl
  · rename_i hsome
    exact (Nat.max_eq_right (List.length_pos_of_ne_nil hsome)).symm

-- The cells of a row, column by column.
def cellsAt (columns : List Column) (row : Nat) : List String :=
  columns.map fun column => column.cell row

def widthsOf (columns : List Column) : List Nat := columns.map fun column => column.filled.width

-- Which columns are dashed above a row.
def flagsAbove (columns : List Column) (row : Nat) : List Bool :=
  (cellsAt columns row).map hasContent

theorem length_flagsAbove (columns : List Column) (row : Nat) :
    (flagsAbove columns row).length = (widthsOf columns).length := by
  simp [flagsAbove, cellsAt, widthsOf]

theorem flagsAbove_cons (first : Column) (others : List Column) (row : Nat) :
    flagsAbove (first :: others) row =
      hasContent (first.cell row) :: flagsAbove others row := rfl

-- The table of columns with the same number of cells.
def drawing (columns : List Column) (rows : Nat) : Grid :=
  ⟨widthsOf columns,
    rule '-' (widthsOf columns) :: rowLine (widthsOf columns) (columns.map Column.header) ::
      rule '=' (widthsOf columns) ::
        (body (widthsOf columns) ((List.range rows).map (cellsAt columns)) ++
          [rule '-' (widthsOf columns)])⟩

theorem draw_eq_ok {owner : String} (hne : columns ≠ [])
    (hrows : ∀ column ∈ columns, column.filled.cells.length = rows) :
    draw owner columns = .ok (drawing columns rows) := by
  have hcount : (((columns.map Column.filled).head?.map fun column =>
      column.cells.length).getD 0) = rows := by
    obtain ⟨first, others, rfl⟩ := List.exists_cons_of_ne_nil hne
    exact hrows first List.mem_cons_self
  have heven : (columns.map Column.filled).find?
      (fun column => column.cells.length ≠ rows) = none := by
    refine List.find?_eq_none.mpr fun column hcolumn => ?_
    obtain ⟨original, horiginal, rfl⟩ := List.mem_map.mp hcolumn
    simpa using hrows original horiginal
  have hcells : (fun row => (columns.map Column.filled).map
      (fun column => column.cell row)) = cellsAt columns := by
    funext row
    rw [List.map_map]
    exact List.map_congr_left fun column _ => column.filled_cell row
  have hheaders : (columns.map Column.filled).map Column.header =
      columns.map Column.header := by
    rw [List.map_map]
    exact List.map_congr_left fun column _ => column.filled_header
  have hwidths : (columns.map Column.filled).map Column.width = widthsOf columns := List.map_map
  simp only [draw, hcount, heven, hcells, hheaders, hwidths]
  rfl

theorem getElem?_body_row (widths : List Nat) (cells : List (List String)) (row : Nat) :
    (body widths cells)[2 * row]? = cells[row]?.map (rowLine widths) := by
  induction cells using body.induct generalizing row with
  | case1 => rfl
  | case2 first =>
    cases row with
    | zero => rfl
    | succ row => simp [body, Nat.mul_succ]
  | case3 first second rest ih =>
    cases row with
    | zero => rfl
    | succ row =>
      rw [show 2 * (row + 1) = 2 * row + 1 + 1 from by omega]
      simpa only [body, List.getElem?_cons_succ] using ih row

theorem getElem?_body_separator (widths : List Nat) (cells : List (List String)) (row : Nat) :
    (body widths cells)[2 * row + 1]? = cells[row + 1]?.map (separator widths) := by
  induction cells using body.induct generalizing row with
  | case1 => rfl
  | case2 first => simp [body]
  | case3 first second rest ih =>
    cases row with
    | zero => rfl
    | succ row =>
      rw [show 2 * (row + 1) + 1 = 2 * row + 1 + 1 + 1 from by omega]
      simpa only [body, List.getElem?_cons_succ] using ih row

theorem length_body (widths : List Nat) (cells : List (List String)) :
    (body widths cells).length = 2 * cells.length - 1 := by
  induction cells using body.induct with
  | case1 => rfl
  | case2 first => rfl
  | case3 first second rest ih =>
    rw [body, List.length_cons, List.length_cons, ih]
    simp only [List.length_cons]
    omega

theorem getElem?_row (h : row < rows) : (drawing columns rows).lines[2 * row + 3]? =
    some (rowLine (widthsOf columns) (cellsAt columns row)) := by
  have hlength : 2 * row < (body (widthsOf columns)
      ((List.range rows).map (cellsAt columns))).length := by
    rw [length_body, List.length_map, List.length_range]
    omega
  rw [drawing]
  simp only [List.getElem?_cons_succ, List.getElem?_append_left hlength, getElem?_body_row]
  simp [h]

theorem getElem?_below (h : row + 1 < rows) : (drawing columns rows).lines[2 * row + 4]? =
    some (separatorFrom false ((widthsOf columns).zip (flagsAbove columns (row + 1)))) := by
  have hlength : 2 * row + 1 < (body (widthsOf columns)
      ((List.range rows).map (cellsAt columns))).length := by
    rw [length_body, List.length_map, List.length_range]
    omega
  rw [drawing]
  simp only [List.getElem?_cons_succ, List.getElem?_append_left hlength, getElem?_body_separator]
  simp [h, separator, flagsAbove]

theorem getElem?_bottom (h : 0 < rows) : (drawing columns rows).lines[2 * rows + 2]? =
    some (rule '-' (widthsOf columns)) := by
  have hlength : (body (widthsOf columns) ((List.range rows).map (cellsAt columns))).length =
      2 * rows - 1 := by
    rw [length_body, List.length_map, List.length_range]
  have hindex : 2 * rows + 2 = 2 * rows - 1 + 3 := by omega
  rw [drawing, hindex]
  simp only [List.getElem?_cons_succ]
  rw [List.getElem?_append_right (Nat.le_of_eq hlength), hlength, Nat.sub_self]
  rfl

theorem length_lines (h : 0 < rows) : (drawing columns rows).lines.length = 2 * rows + 3 := by
  rw [drawing]
  simp only [List.length_cons, List.length_append, length_body, List.length_map,
    List.length_range, List.length_nil]
  omega

end EventFlow.Grid
