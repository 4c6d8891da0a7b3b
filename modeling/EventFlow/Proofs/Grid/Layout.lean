import EventFlow.Proofs.Grid.Drawing
import Mathlib.Algebra.BigOperators.Group.List.Basic
import Mathlib.Algebra.Ring.Nat
import Mathlib.Data.List.DropRight
import Mathlib.Data.List.Forall2
import Mathlib.Order.Bounds.Basic
import Mathlib.Order.MinMax

namespace EventFlow.Grid

variable {columns others : List Column} {grid other : Grid} {widths : List Nat} {rows : Nat}

theorem place_eq_sum (widths : List Nat) (column : Nat) :
    place widths column = ((widths.take column).map (· + 3)).sum := by
  induction widths generalizing column with
  | nil => simp [place]
  | cons width widths ih =>
    cases column with
    | zero => rfl
    | succ column => rw [place_cons_succ, ih, List.take_succ_cons, List.map_cons, List.sum_cons]

theorem place_length (widths : List Nat) :
    place widths widths.length = (widths.map (· + 3)).sum := by
  rw [place_eq_sum, List.take_length]

section Joined

variable {junction : Char} {fills : List (List Char)} {fill : List Char} {column : Nat}

-- A line in which a junction stands before each filling and behind the last one.
def joined (junction : Char) (fills : List (List Char)) : List Char :=
  fills.flatMap (junction :: ·) ++ [junction]

theorem joined_cons (junction : Char) (fill : List Char) (fills : List (List Char)) :
    joined junction (fill :: fills) = junction :: (fill ++ joined junction fills) := by
  rw [joined, List.flatMap_cons, List.cons_append, List.cons_append, List.append_assoc, joined]

theorem exists_joined (junction : Char) (fills : List (List Char)) :
    ∃ rest, joined junction fills = junction :: rest := by
  cases fills with
  | nil => exact ⟨[], rfl⟩
  | cons fill fills => exact ⟨_, joined_cons ..⟩

-- Each filling takes the room of its column.
def Fits (widths : List Nat) (fills : List (List Char)) : Prop :=
  List.Forall₂ (fun width fill => fill.length = width + 2) widths fills

theorem length_joined (h : Fits widths fills) :
    (joined junction fills).length = place widths widths.length + 1 := by
  induction h with
  | nil => rfl
  | cons hfill hfills ih =>
    rw [joined_cons, List.length_cons, List.length_append, hfill, ih, List.length_cons,
      place_cons_succ]
    omega

theorem segment_joined (h : Fits widths fills) (hfill : fills[column]? = some fill) :
    segment widths column (joined junction fills) = fill := by
  induction h generalizing column with
  | nil => cases hfill
  | cons hlength hfills ih =>
    rw [joined_cons]
    cases column with
    | zero =>
      cases hfill
      exact segment_cons_zero hlength _
    | succ column =>
      rw [segment_cons_succ hlength]
      exact ih hfill

theorem rule_eq_joined (hne : widths ≠ []) (fill : Char) :
    rule fill widths = joined '+' (widths.map fun width => List.replicate (width + 2) fill) := by
  induction widths with
  | nil => exact absurd rfl hne
  | cons width widths ih =>
    cases widths with
    | nil => rfl
    | cons next widths =>
      have hrest := ih (List.cons_ne_nil _ _)
      rw [List.map_cons, joined_cons, ← hrest, rule, rule, List.map_cons, List.map_cons,
        List.intercalate_cons_cons]
      simp only [List.append_assoc, List.cons_append, List.nil_append]

theorem cons_intercalate_eq_joined {texts : List (List Char)} (hne : texts ≠ []) :
    '|' :: ' ' :: (List.intercalate [' ', '|', ' '] texts ++ [' ', '|']) =
      joined '|' (texts.map fun text => ' ' :: (text ++ [' '])) := by
  induction texts with
  | nil => exact absurd rfl hne
  | cons text texts ih =>
    cases texts with
    | nil => simp [joined]
    | cons next texts =>
      have hrest := ih (List.cons_ne_nil _ _)
      rw [List.map_cons, joined_cons, ← hrest, List.intercalate_cons_cons]
      simp only [List.append_assoc, List.cons_append, List.nil_append]

end Joined

section Width

theorem isGreatest_foldl_max (start : Nat) (list : List Nat) :
    IsGreatest {n | n = start ∨ n ∈ list} (list.foldl max start) := by
  induction list generalizing start with
  | nil => exact ⟨.inl rfl, by simp [upperBounds]⟩
  | cons head tail ih =>
    obtain ⟨hmem, hupper⟩ := ih (max start head)
    refine ⟨?_, ?_⟩
    · rcases hmem with heq | hmem
      · rcases max_choice start head with hstart | hhead
        · exact .inl (heq.trans hstart)
        · exact .inr (List.mem_cons.mpr (.inl (heq.trans hhead)))
      · exact .inr (List.mem_cons_of_mem _ hmem)
    · have hle : max start head ≤ tail.foldl max (max start head) := hupper (.inl rfl)
      rintro n (rfl | hn)
      · exact (le_max_left ..).trans hle
      · rcases List.mem_cons.mp hn with rfl | htail
        · exact (le_max_right ..).trans hle
        · exact hupper (.inr htail)

-- A column is as wide as the longest of its texts.
theorem Column.isGreatest_width (column : Column) :
    IsGreatest {n | n = column.header.length ∨ ∃ cell ∈ column.cells, n = cell.length}
      column.filled.width := by
  have hwidth : column.filled.width = column.width := by
    unfold Column.filled
    split
    · rename_i hnone
      simp [Column.width, hnone]
    · rfl
  have hset : {n | n = column.header.length ∨ ∃ cell ∈ column.cells, n = cell.length} =
      {n | n = column.header.length ∨ n ∈ column.cells.map String.length} := by
    simp only [List.mem_map, eq_comm]
  rw [hwidth, hset]
  exact isGreatest_foldl_max ..

end Width

-- Where a line has the text of a column: behind the junction and a blank, and filled up with
-- blanks to the width of the column.
def Reads (widths : List Nat) (column : Nat) (text : String) (line : List Char) : Prop :=
  (line.drop (((widths.take column).map (· + 3)).sum + 2)).take (widths.getD column 0) =
    text.toList ++ List.replicate (widths.getD column 0 - text.length) ' '

-- The table of columns with the same number of rows, line by line.
structure LaidOut (columns : List Column) (rows : Nat) (grid : Grid) : Prop where
  length_cells : ∀ column ∈ columns, column.filled.cells.length = rows
  length_widths : grid.widths.length = columns.length
  -- a column is as wide as the longest of its texts
  isGreatest_width : ∀ index column, columns[index]? = some column →
    IsGreatest {n | n = column.header.length ∨ ∃ cell ∈ column.cells, n = cell.length}
      (grid.widths.getD index 0)
  length_lines : grid.lines.length = 2 * rows + 3
  length_line : ∀ line ∈ grid.lines, line.length = (grid.widths.map (· + 3)).sum + 1
  top_eq : grid.lines[0]? = some (rule '-' grid.widths)
  header_eq : ∃ line, grid.lines[1]? = some line ∧
    ∀ index column, columns[index]? = some column → Reads grid.widths index column.header line
  under_eq : grid.lines[2]? = some (rule '=' grid.widths)
  row_eq : ∀ row < rows, ∃ line, grid.lines[3 + 2 * row]? = some line ∧
    ∀ (index : Nat) (column : Column) (cell : String), columns[index]? = some column →
      column.filled.cells[row]? = some cell → Reads grid.widths index cell line
  -- between two rows a column is dashed if and only if its cell below has more than blanks
  separator_eq : ∀ row, row + 1 < rows → ∃ line flags, grid.lines[4 + 2 * row]? = some line ∧
    Ruled grid.widths flags line ∧ flags.length = columns.length ∧
    ∀ (index : Nat) (column : Column) (cell : String), columns[index]? = some column →
      column.filled.cells[row + 1]? = some cell →
        (flags[index]? = some true ↔ ∃ c ∈ cell.toList, c ≠ ' ')
  bottom_eq : grid.lines[2 * rows + 2]? = some (rule '-' grid.widths)

section Lines

variable {text : Column → String} {index : Nat} {column : Column}

-- What a row puts between the junctions.
def rowFills (columns : List Column) (text : Column → String) : List (List Char) :=
  columns.map fun column => ' ' :: (pad column.filled.width (text column) ++ [' '])

theorem rowLine_eq_joined (hne : columns ≠ []) (text : Column → String) :
    rowLine (widthsOf columns) (columns.map text) = joined '|' (rowFills columns text) := by
  have htexts : List.zipWith pad (widthsOf columns) (columns.map text) =
      columns.map fun column => pad column.filled.width (text column) := by
    rw [widthsOf, List.zipWith_map, List.zipWith_self]
  rw [rowLine, htexts, cons_intercalate_eq_joined (by simpa using hne), List.map_map, rowFills]
  rfl

theorem fits_rowFills (h : ∀ column ∈ columns, (text column).length ≤ column.filled.width) :
    Fits (widthsOf columns) (rowFills columns text) := by
  rw [Fits, widthsOf, rowFills, List.forall₂_map_left_iff, List.forall₂_map_right_iff,
    List.forall₂_same]
  intro column hcolumn
  have hle := h column hcolumn
  simp only [List.length_cons, List.length_append, pad, String.length_toList,
    List.length_replicate, List.length_nil]
  omega

theorem fits_replicate (widths : List Nat) (fill : Char) :
    Fits widths (widths.map fun width => List.replicate (width + 2) fill) := by
  rw [Fits, List.forall₂_map_right_iff, List.forall₂_same]
  exact fun width _ => List.length_replicate

theorem getD_widthsOf (h : columns[index]? = some column) :
    (widthsOf columns).getD index 0 = column.filled.width := by
  rw [widthsOf, List.getD_eq_getElem?_getD, List.getElem?_map, h]
  rfl

theorem reads_rowLine (text : Column → String)
    (hfit : ∀ column ∈ columns, (text column).length ≤ column.filled.width)
    (h : columns[index]? = some column) :
    Reads (widthsOf columns) index (text column)
      (rowLine (widthsOf columns) (columns.map text)) := by
  have hne : columns ≠ [] := by
    rintro rfl
    cases h
  have hsegment : segment (widthsOf columns) index (joined '|' (rowFills columns text)) =
      ' ' :: (pad column.filled.width (text column) ++ [' ']) :=
    segment_joined (fits_rowFills hfit) (by rw [rowFills, List.getElem?_map, h]; rfl)
  have hlength : (pad column.filled.width (text column)).length = column.filled.width := by
    have hle := hfit column (List.mem_of_getElem? h)
    rw [pad, List.length_append, List.length_replicate, String.length_toList]
    omega
  have hinside := congrArg (fun fill => (fill.drop 1).take column.filled.width) hsegment
  rw [segment, getD_widthsOf h, List.drop_take, List.drop_drop, List.take_take, place_eq_sum,
    Nat.min_eq_left (by omega)] at hinside
  rw [Reads, getD_widthsOf h, rowLine_eq_joined hne, hinside, List.drop_succ_cons, List.drop_zero,
    List.take_left' hlength, pad]

theorem length_rowLine (hne : columns ≠ [])
    (hfit : ∀ column ∈ columns, (text column).length ≤ column.filled.width) :
    (rowLine (widthsOf columns) (columns.map text)).length =
      ((widthsOf columns).map (· + 3)).sum + 1 := by
  rw [rowLine_eq_joined hne, length_joined (fits_rowFills hfit), place_length]

theorem length_rule (hne : widths ≠ []) (fill : Char) :
    (rule fill widths).length = (widths.map (· + 3)).sum + 1 := by
  rw [rule_eq_joined hne, length_joined (fits_replicate widths fill), place_length]

theorem header_fits (column : Column) : column.header.length ≤ column.filled.width :=
  column.isGreatest_width.2 (.inl rfl)

theorem cell_fits (column : Column) (row : Nat) :
    (column.cell row).length ≤ column.filled.width := by
  rw [Column.cell, List.getD_eq_getElem?_getD]
  cases hcell : column.cells[row]? with
  | none => exact Nat.zero_le _
  | some cell => exact column.isGreatest_width.2 (.inr ⟨cell, List.mem_of_getElem? hcell, rfl⟩)

theorem cell_eq {row : Nat} {cell : String} (h : column.filled.cells[row]? = some cell) :
    column.cell row = cell := by
  rw [← column.filled_cell, Column.cell, List.getD_eq_getElem?_getD, h]
  rfl

end Lines

section Drawing

theorem widthsOf_ne_nil (hne : columns ≠ []) : widthsOf columns ≠ [] := by
  simpa [widthsOf] using hne

theorem mem_body {cells : List (List String)} {line : List Char} (h : line ∈ body widths cells) :
    ∃ row ∈ cells, line = rowLine widths row ∨ line = separator widths row := by
  induction cells using body.induct with
  | case1 => cases h
  | case2 row => exact ⟨row, List.mem_cons_self, .inl (List.mem_singleton.mp h)⟩
  | case3 first second rest ih =>
    rw [body, List.mem_cons, List.mem_cons] at h
    obtain rfl | rfl | hrest := h
    · exact ⟨first, List.mem_cons_self, .inl rfl⟩
    · exact ⟨second, List.mem_cons_of_mem _ List.mem_cons_self, .inr rfl⟩
    · obtain ⟨row, hrow, heq⟩ := ih hrest
      exact ⟨row, List.mem_cons_of_mem _ hrow, heq⟩

theorem length_line_drawing (hne : columns ≠ []) {line : List Char}
    (h : line ∈ (drawing columns rows).lines) :
    line.length = ((widthsOf columns).map (· + 3)).sum + 1 := by
  simp only [drawing, List.mem_cons, List.mem_append, List.not_mem_nil, or_false] at h
  obtain rfl | rfl | rfl | hbody | rfl := h
  · exact length_rule (widthsOf_ne_nil hne) '-'
  · exact length_rowLine hne fun column _ => header_fits column
  · exact length_rule (widthsOf_ne_nil hne) '='
  · obtain ⟨cells, hcells, hline⟩ := mem_body hbody
    obtain ⟨row, _, rfl⟩ := List.mem_map.mp hcells
    obtain rfl | rfl := hline
    · exact length_rowLine hne fun column _ => cell_fits column row
    · rw [separator, ← flagsAbove, length_separatorFrom (length_flagsAbove columns row),
        place_length]
  · exact length_rule (widthsOf_ne_nil hne) '-'

theorem laidOut_drawing (hne : columns ≠ [])
    (hrows : ∀ column ∈ columns, column.filled.cells.length = rows) :
    LaidOut columns rows (drawing columns rows) := by
  have hpos : 0 < rows := by
    obtain ⟨first, rest, rfl⟩ := List.exists_cons_of_ne_nil hne
    have hfirst := hrows first List.mem_cons_self
    rw [Column.length_filled] at hfirst
    omega
  exact
    { length_cells := hrows
      length_widths := List.length_map _
      isGreatest_width := fun index column h => by
        rw [show (drawing columns rows).widths = widthsOf columns from rfl, getD_widthsOf h]
        exact column.isGreatest_width
      length_lines := length_lines hpos
      length_line := fun line hline => length_line_drawing hne hline
      top_eq := rfl
      header_eq := ⟨_, rfl, fun index column h =>
        reads_rowLine Column.header (fun column _ => header_fits column) h⟩
      under_eq := rfl
      row_eq := fun row hrow => by
        refine ⟨_, Nat.add_comm (2 * row) 3 ▸ getElem?_row hrow,
          fun index column cell h hcell => ?_⟩
        rw [← cell_eq hcell]
        exact reads_rowLine (fun column => column.cell row)
          (fun column _ => cell_fits column row) h
      separator_eq := fun row hrow => by
        refine ⟨_, _, Nat.add_comm (2 * row) 4 ▸ getElem?_below hrow,
          ruled_separatorFrom (length_flagsAbove columns (row + 1)),
          by simp [flagsAbove, cellsAt], fun index column cell h hcell => ?_⟩
        simp [flagsAbove, cellsAt, h, cell_eq hcell, hasContent]
      bottom_eq := getElem?_bottom hpos }

end Drawing

section Reading

variable {text text' : String} {line : List Char} {column : Nat}

theorem rdropWhile_append_blanks {chars : List Char} (h : chars.getLast? ≠ some ' ')
    (count : Nat) : (chars ++ List.replicate count ' ').rdropWhile (· = ' ') = chars := by
  induction count with
  | zero =>
    rw [List.replicate_zero, List.append_nil, List.rdropWhile_eq_self_iff]
    intro hne hblank
    rw [decide_eq_true_eq] at hblank
    exact h (hblank ▸ List.getLast?_eq_getLast_of_ne_nil hne)
  | succ count ih =>
    rw [List.replicate_succ', ← List.append_assoc, List.rdropWhile_concat_pos _ _ _ (by decide), ih]

-- A text without blanks at its end is known from what stands in its column.
theorem Reads.text_eq (h : Reads widths column text line) (h' : Reads widths column text' line)
    (htrimmed : text.toList.getLast? ≠ some ' ') (htrimmed' : text'.toList.getLast? ≠ some ' ') :
    text = text' := by
  have hpadded := congrArg (List.rdropWhile (· = ' ')) (h.symm.trans h')
  rw [rdropWhile_append_blanks htrimmed, rdropWhile_append_blanks htrimmed'] at hpadded
  exact String.toList_inj.mp hpadded

theorem replicate_append_cross {fill : Char} (hfill : fill ≠ '+') {count count' : Nat}
    {rest rest' : List Char}
    (h : List.replicate count fill ++ '+' :: rest = List.replicate count' fill ++ '+' :: rest') :
    count = count' ∧ rest = rest' := by
  induction count generalizing count' with
  | zero =>
    cases count' with
    | zero => exact ⟨rfl, (List.cons.inj h).2⟩
    | succ count' => exact absurd (List.cons.inj h).1 hfill.symm
  | succ count ih =>
    cases count' with
    | zero => exact absurd (List.cons.inj h).1 hfill
    | succ count' =>
      obtain ⟨hcount, hrest⟩ := ih (List.cons.inj h).2
      exact ⟨congrArg _ hcount, hrest⟩

-- A rule tells the widths of the columns.
theorem rule_injective {fill : Char} (hfill : fill ≠ '+') {widths widths' : List Nat}
    (hne : widths ≠ []) (hne' : widths' ≠ []) (h : rule fill widths = rule fill widths') :
    widths = widths' := by
  rw [rule_eq_joined hne, rule_eq_joined hne'] at h
  clear hne hne'
  induction widths generalizing widths' with
  | nil =>
    cases widths' with
    | nil => rfl
    | cons width widths' => cases h
  | cons width widths ih =>
    cases widths' with
    | nil => cases h
    | cons width' widths' =>
      rw [List.map_cons, joined_cons, List.map_cons, joined_cons] at h
      have htail := (List.cons.inj h).2
      obtain ⟨rest, hrest⟩ :=
        exists_joined '+' (widths.map fun width => List.replicate (width + 2) fill)
      obtain ⟨rest', hrest'⟩ :=
        exists_joined '+' (widths'.map fun width => List.replicate (width + 2) fill)
      rw [hrest, hrest'] at htail
      obtain ⟨hwidth, rfl⟩ := replicate_append_cross hfill htail
      have hwidths := ih (hrest.trans hrest'.symm)
      rw [Nat.add_right_cancel hwidth, hwidths]

end Reading

-- No text of the column ends in a blank.
def Column.Trimmed (column : Column) : Prop :=
  column.header.toList.getLast? ≠ some ' ' ∧
    ∀ cell ∈ column.cells, cell.toList.getLast? ≠ some ' '

instance (column : Column) : Decidable column.Trimmed := inferInstanceAs (Decidable (_ ∧ _))

theorem Column.Trimmed.filled_cell {column : Column} (h : column.Trimmed) {cell : String}
    (hcell : cell ∈ column.filled.cells) : cell.toList.getLast? ≠ some ' ' := by
  unfold Column.filled at hcell
  split at hcell
  · rw [List.mem_singleton.mp hcell]
    decide
  · exact h.2 cell hcell

namespace LaidOut

variable {rows' : Nat}

theorem column_eq (h : LaidOut columns rows grid) (h' : LaidOut others rows other)
    (hlines : grid.lines = other.lines) (hwidths : grid.widths = other.widths) {index : Nat}
    {left right : Column} (hleft : columns[index]? = some left)
    (hright : others[index]? = some right) (htrimmed : left.Trimmed)
    (htrimmed' : right.Trimmed) : left.filled = right.filled := by
  have hheader : left.header = right.header := by
    obtain ⟨line, hline, hreads⟩ := h.header_eq
    obtain ⟨line', hline', hreads'⟩ := h'.header_eq
    obtain rfl : line = line' := by
      rw [← hlines, hline] at hline'
      exact Option.some.inj hline'
    exact (hreads index left hleft).text_eq (hwidths ▸ hreads' index right hright) htrimmed.1
      htrimmed'.1
  have hheight := h.length_cells left (List.mem_of_getElem? hleft)
  have hheight' := h'.length_cells right (List.mem_of_getElem? hright)
  have hcells : left.filled.cells = right.filled.cells := by
    refine List.ext_getElem (hheight.trans hheight'.symm) fun row hrow hrow' => ?_
    obtain ⟨line, hline, hreads⟩ := h.row_eq row (hheight ▸ hrow)
    obtain ⟨line', hline', hreads'⟩ := h'.row_eq row (hheight ▸ hrow)
    obtain rfl : line = line' := by
      rw [← hlines, hline] at hline'
      exact Option.some.inj hline'
    exact (hreads index left _ hleft (List.getElem?_eq_getElem hrow)).text_eq
      (hwidths ▸ hreads' index right _ hright (List.getElem?_eq_getElem hrow'))
      (htrimmed.filled_cell (List.getElem_mem hrow))
      (htrimmed'.filled_cell (List.getElem_mem hrow'))
  calc left.filled = ⟨left.filled.header, left.filled.cells⟩ := rfl
    _ = ⟨right.filled.header, right.filled.cells⟩ := by
        rw [left.filled_header, right.filled_header, hheader, hcells]

-- The lines tell the columns, up to the blank cell of a column without cells.
theorem columns_eq (h : LaidOut columns rows grid) (h' : LaidOut others rows' other)
    (hne : columns ≠ []) (hne' : others ≠ []) (hlines : grid.lines = other.lines)
    (htrimmed : ∀ column ∈ columns, column.Trimmed)
    (htrimmed' : ∀ column ∈ others, column.Trimmed) :
    columns.map Column.filled = others.map Column.filled := by
  have hwidths : grid.widths = other.widths := by
    have htop : rule '-' grid.widths = rule '-' other.widths := by
      have htop' := h'.top_eq
      rw [← hlines, h.top_eq] at htop'
      exact Option.some.inj htop'
    have hsome : ∀ {columns : List Column} {widths : List Nat}, columns ≠ [] →
        widths.length = columns.length → widths ≠ [] := by
      rintro columns widths hcolumns hlength rfl
      exact hcolumns (List.length_eq_zero_iff.mp hlength.symm)
    exact rule_injective (by decide) (hsome hne h.length_widths) (hsome hne' h'.length_widths) htop
  have hcount : columns.length = others.length := by
    rw [← h.length_widths, ← h'.length_widths, hwidths]
  obtain rfl : rows = rows' := by
    have hlength := h.length_lines
    rw [hlines, h'.length_lines] at hlength
    omega
  refine List.ext_getElem (by simpa using hcount) fun index hindex hindex' => ?_
  rw [List.length_map] at hindex hindex'
  rw [List.getElem_map, List.getElem_map]
  exact h.column_eq h' hlines hwidths (List.getElem?_eq_getElem hindex)
    (List.getElem?_eq_getElem hindex') (htrimmed _ (List.getElem_mem hindex))
    (htrimmed' _ (List.getElem_mem hindex'))

end LaidOut

section Outcome

variable {owner : String} {first column : Column} {rest : List Column} {error : Error}

theorem draw_eq_uneven (h : (first :: rest).find? (fun column =>
      column.filled.cells.length ≠ first.filled.cells.length) = some column) :
    draw owner (first :: rest) = .error (.unevenColumn owner column.header
      first.filled.cells.length column.filled.cells.length) := by
  have hfound : ((first :: rest).map Column.filled).find?
      (fun column => column.cells.length ≠ first.filled.cells.length) = some column.filled := by
    rw [List.find?_map]
    exact congrArg (Option.map Column.filled) h
  have hcount : ((((first :: rest).map Column.filled).head?.map fun column =>
      column.cells.length).getD 0) = first.filled.cells.length := rfl
  simp only [draw, hcount, hfound, column.filled_header]

-- The error names the first column that has not as many rows as the first one of all.
theorem draw_eq_error_iff : draw owner (first :: rest) = .error error ↔
    ∃ before column after, first :: rest = before ++ column :: after ∧
      (∀ earlier ∈ before, earlier.filled.cells.length = first.filled.cells.length) ∧
      column.filled.cells.length ≠ first.filled.cells.length ∧
      error = .unevenColumn owner column.header first.filled.cells.length
        column.filled.cells.length := by
  have hsplit : ∀ column, (first :: rest).find? (fun column =>
      column.filled.cells.length ≠ first.filled.cells.length) = some column ↔
      ∃ before after, first :: rest = before ++ column :: after ∧
        (∀ earlier ∈ before, earlier.filled.cells.length = first.filled.cells.length) ∧
        column.filled.cells.length ≠ first.filled.cells.length := by
    intro column
    simp only [List.find?_eq_some_iff_append, ne_eq, decide_not, Bool.not_not,
      Bool.not_eq_eq_eq_not, Bool.not_true, decide_eq_false_iff_not, decide_eq_true_eq]
    constructor
    · rintro ⟨hne, before, after, heq, hbefore⟩
      exact ⟨before, after, heq, hbefore, hne⟩
    · rintro ⟨before, after, heq, hbefore, hne⟩
      exact ⟨hne, before, after, heq, hbefore⟩
  constructor
  · intro herror
    cases hfind : (first :: rest).find? (fun column =>
        column.filled.cells.length ≠ first.filled.cells.length) with
    | none =>
      have heven : ∀ column ∈ first :: rest,
          column.filled.cells.length = first.filled.cells.length := by
        simpa using List.find?_eq_none.mp hfind
      rw [draw_eq_ok (List.cons_ne_nil _ _) heven] at herror
      cases herror
    | some column =>
      obtain ⟨before, after, heq, hbefore, hne⟩ := (hsplit column).mp hfind
      rw [draw_eq_uneven hfind] at herror
      exact ⟨before, column, after, heq, hbefore, hne, (Except.error.inj herror).symm⟩
  · rintro ⟨before, column, after, heq, hbefore, hne, rfl⟩
    exact draw_eq_uneven ((hsplit column).mpr ⟨before, after, heq, hbefore, hne⟩)

theorem exists_error_iff : (∃ error, draw owner (first :: rest) = .error error) ↔
    ∃ left ∈ first :: rest, ∃ right ∈ first :: rest,
      left.filled.cells.length ≠ right.filled.cells.length := by
  constructor
  · rintro ⟨error, herror⟩
    obtain ⟨before, column, after, heq, _, hne, _⟩ := draw_eq_error_iff.mp herror
    exact ⟨column, by simp [heq], first, List.mem_cons_self, hne⟩
  · rintro ⟨left, hleft, right, hright, hne⟩
    by_contra hnone
    have heven : ∀ column ∈ first :: rest,
        column.filled.cells.length = first.filled.cells.length := by
      by_contra huneven
      push Not at huneven
      obtain ⟨column, hcolumn, hdiffers⟩ := huneven
      have hfound : ((first :: rest).find? (fun column =>
          column.filled.cells.length ≠ first.filled.cells.length)).isSome :=
        List.find?_isSome.mpr ⟨column, hcolumn, by simpa using hdiffers⟩
      obtain ⟨found, hfind⟩ := Option.isSome_iff_exists.mp hfound
      exact hnone ⟨_, draw_eq_uneven hfind⟩
    exact hne ((heven left hleft).trans (heven right hright).symm)

theorem laidOut_of_draw (h : draw owner (first :: rest) = .ok grid) :
    LaidOut (first :: rest) first.filled.cells.length grid := by
  have heven : ∀ column ∈ first :: rest,
      column.filled.cells.length = first.filled.cells.length := by
    intro column hcolumn
    by_contra hne
    obtain ⟨error, herror⟩ := (@exists_error_iff owner first rest).mpr
      ⟨column, hcolumn, first, List.mem_cons_self, hne⟩
    rw [h] at herror
    cases herror
  rw [draw_eq_ok (List.cons_ne_nil _ _) heven] at h
  cases h
  exact laidOut_drawing (List.cons_ne_nil _ _) heven

-- Columns with the same number of rows are drawn, and can be read back from the lines if no text
-- ends in a blank. Of others the first one that differs from the first of all is reported.
theorem draw_laidOut (owner : String) (first : Column) (rest : List Column) :
    ((∃ error, draw owner (first :: rest) = .error error) ↔
      ∃ left ∈ first :: rest, ∃ right ∈ first :: rest,
        left.filled.cells.length ≠ right.filled.cells.length) ∧
    (∀ error, draw owner (first :: rest) = .error error →
      ∃ before column after, first :: rest = before ++ column :: after ∧
        (∀ earlier ∈ before, earlier.filled.cells.length = first.filled.cells.length) ∧
        column.filled.cells.length ≠ first.filled.cells.length ∧
        error = .unevenColumn owner column.header first.filled.cells.length
          column.filled.cells.length) ∧
    ∀ grid, draw owner (first :: rest) = .ok grid →
      LaidOut (first :: rest) first.filled.cells.length grid ∧
      ∀ owner' first' rest' grid', draw owner' (first' :: rest') = .ok grid' →
        grid.lines = grid'.lines → (∀ column ∈ first :: rest, column.Trimmed) →
        (∀ column ∈ first' :: rest', column.Trimmed) →
          (first :: rest).map Column.filled = (first' :: rest').map Column.filled := by
  refine ⟨exists_error_iff, fun error => draw_eq_error_iff.mp, fun grid hgrid => ?_⟩
  have hlaidOut := laidOut_of_draw hgrid
  refine ⟨hlaidOut, fun owner' first' rest' grid' hgrid' hlines htrimmed htrimmed' => ?_⟩
  exact hlaidOut.columns_eq (laidOut_of_draw hgrid') (List.cons_ne_nil _ _) (List.cons_ne_nil _ _)
    hlines htrimmed htrimmed'

example : (draw "t" [⟨"A", ["x", ""]⟩, ⟨"Bee", ["1", "2"]⟩]).map (fun grid => grid.lines) =
    .ok (["+---+-----+", "| A | Bee |", "+===+=====+", "| x | 1   |", "|   +-----+",
      "|   | 2   |", "+---+-----+"].map String.toList) := by decide +kernel

end Outcome

end EventFlow.Grid
