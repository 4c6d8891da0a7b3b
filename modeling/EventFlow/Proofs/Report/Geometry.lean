import EventFlow.Proofs.Grid.Closing
import EventFlow.Proofs.Report.Columns

namespace EventFlow.Report

open Grid (hasContent)

-- The separator below a row consists of the mark in a column, between the junctions.
def Below (grid : Grid) (mark : Char) (column row : Nat) : Prop :=
  ∃ line, grid.lines[2 * row + 4]? = some line ∧
    Grid.segment grid.widths column line = List.replicate (grid.widths.getD column 0 + 2) mark

def Sheet.row (sheet : Sheet) (row : Nat) : List String :=
  sheet.cells.map fun cells => cells.getD row ""

variable {project listener : String} {into out : List Group} {sheet : Sheet} {grid : Grid}

-- The separator between a row and the next one. The sources and their events are dashed down to
-- the last source, the rest from there on; at an event, only above the first row of its group.
def Separated (into out : List Group) (grid : Grid) (row : Nat) : Prop :=
  ∃ source input output sink line, grid.lines[2 * row + 4]? = some line ∧
    Grid.Ruled grid.widths [source, input, false, output, sink] line ∧
    (source = true ↔ 1 ≤ height into ∧ row + 1 ≤ height into) ∧
    (input = true ↔ 1 ≤ height into ∧
      (row + 1 < height into ∧ StartsAt into (row + 1) ∨ row + 1 = height into)) ∧
    (output = true ↔ height into ≤ row + 1 ∧ StartsAt out (row + 1 - height into)) ∧
    (sink = true ↔ height into ≤ row + 1)

-- The lines of a listener's table with the groups `into` above the groups `out`. The rows stand
-- on every other line, with a separator between any two.
structure Drawn (into out : List Group) (sheet : Sheet) (grid : Grid) : Prop where
  length_widths : grid.widths.length = 5
  length_lines : grid.lines.length = 2 * max 1 (height into + height out) + 3
  top_eq : grid.lines[2]? = some (Grid.rule '=' grid.widths)
  row_eq : ∀ row < max 1 (height into + height out),
    grid.lines[2 * row + 3]? = some (Grid.rowLine grid.widths (sheet.row row))
  bottom_eq : grid.lines[2 * max 1 (height into + height out) + 2]? =
    some (Grid.rule '-' grid.widths)
  separated : ∀ row, row + 1 < height into + height out → Separated into out grid row

-- In a column, the rows from `first` on are one cell of `count` rows, of `rows` in all.
structure OneCell (grid : Grid) (column rows first count : Nat) : Prop where
  above : first ≠ 0 → Below grid '-' column (first - 1)
  inside : ∀ row, first ≤ row → row + 1 < first + count → Below grid ' ' column row
  below : first + count < rows → Below grid '-' column (first + count - 1)

-- What a reader takes from the lines.
structure Legible (into out : List Group) (sheet : Sheet) (grid : Grid) : Prop where
  -- two cells with content are never merged
  apart : ∀ column cells, sheet.cells[column]? = some cells → ∀ upper lower, upper < lower →
    Filled cells upper → Filled cells lower →
    ∃ row, upper ≤ row ∧ row < lower ∧ Below grid '-' column row
  -- the label of an event goes with the rows of its group
  input_cell : ∀ first group, Spans into first group →
    OneCell grid 1 (height into + height out) first group.mentions.length
  output_cell : ∀ first group, Spans out first group →
    OneCell grid 3 (height into + height out) (height into + first) group.mentions.length
  -- the blank cells beside the sinks do not belong to the last source and its event
  parted : 0 < height into → 0 < height out →
    Below grid '-' 0 (height into - 1) ∧ Below grid '-' 1 (height into - 1)

theorem Filled.lt_length {cells : List String} {row : Nat} (h : Filled cells row) :
    row < cells.length := by
  by_contra hrow
  rw [Filled, List.getD_eq_default _ _ (Nat.le_of_not_lt hrow)] at h
  cases h

theorem prefix_reference (project item : String) :
    ":ref:".toList <+: (reference project item).toList := by
  have hlist : (reference project item).toList =
      ":ref:".toList ++ ('`' :: (project ++ "_" ++ item ++ "`").toList) := by
    simp [reference, toString]
  rw [hlist]
  exact List.prefix_append ..

theorem prefix_text {mention : Mention} (h : mention ≠ .nobody) :
    ":ref:".toList <+: (mention.text project).toList := by
  obtain ⟨item, htext⟩ := Mention.exists_reference project h
  rw [htext]
  exact prefix_reference project item

section Tabulated

variable (h : Tabulates project listener into out sheet)

include h

theorem Tabulates.max_length : ∀ cells ∈ sheet.cells, max 1 cells.length =
    max 1 (height into + height out) := by
  have hlength := h.length_eq
  simp only [List.forall_mem_cons] at hlength
  obtain ⟨hsources, hinputs, houtputs, hsinks, _⟩ := hlength
  simp only [Sheet.cells, List.forall_mem_cons, hsources, hinputs, h.length_self, houtputs, hsinks]
  simp

theorem Tabulates.length_filled (column : Grid.Column) (hcolumn : column ∈ sheet.columns) :
    column.filled.cells.length = max 1 (height into + height out) := by
  have hcells : sheet.columns.map Grid.Column.cells = sheet.cells := rfl
  rw [Grid.Column.length_filled]
  exact h.max_length _ (hcells ▸ List.mem_map_of_mem hcolumn)

theorem Tabulates.markedAt_iff (hinto : .nobody ∉ mentions into) (header : String) (row : Nat) :
    Grid.MarkedAt ":ref:" ⟨header, sheet.sources⟩ row ↔ row < height into := by
  constructor
  · intro hmarked
    refine (h.source_iff row).mp (hasContent_of_mem (c := ':') ?_ (by decide))
    exact hmarked.subset (by decide)
  · intro hrow
    have hcell := h.source_eq row _ (List.getElem?_eq_getElem hrow)
    rw [Grid.MarkedAt, Grid.Column.cell, List.getD_eq_getElem?_getD, hcell]
    exact prefix_text fun heq => hinto (heq ▸ List.getElem_mem hrow)

-- Which columns are dashed above a row, before the last source is closed off.
theorem Tabulates.flags (row : Nat) : ∃ source input output sink,
    Grid.flagsAbove sheet.columns row = [source, input, decide (row = 0), output, sink] ∧
      (source = true ↔ row < height into) ∧ (input = true ↔ StartsAt into row) ∧
      (output = true ↔ height into ≤ row ∧ StartsAt out (row - height into)) ∧
      (sink = true ↔ height into ≤ row ∧
        row < height into + height out) := by
  have hself : hasContent (sheet.self.getD row "") = decide (row = 0) :=
    Bool.eq_iff_iff.mpr ((h.self_iff row).trans decide_eq_true_iff.symm)
  exact ⟨_, _, _, _, hself ▸ rfl, h.source_iff row, h.input_iff row, h.output_iff row,
    h.sink_iff row⟩

theorem Tabulates.closeBelowLast_eq (hinto : .nobody ∉ mentions into) :
    (Grid.drawing sheet.columns (max 1 (height into + height out))).closeBelowLast ":ref:" 2 =
      Grid.closedDrawing sheet.columns (max 1 (height into + height out)) (height into) 2 := by
  have hheader : ¬ ":ref:".toList <+: "Source Module".toList := by decide
  exact Grid.closeBelowLast_eq (by decide) (by decide) hheader (by omega) (by omega)
    fun row _ => h.markedAt_iff hinto "Source Module" row

-- Below the last source, the first two columns are dashed although nothing stands below them.
theorem Tabulates.separated {row : Nat} (hrow : row + 1 < height into + height out) :
    Separated into out (Grid.closedDrawing sheet.columns (max 1 (height into + height out))
      (height into) 2) row := by
  have hopen : height into < max 1 (height into + height out) →
      hasContent ((Grid.Column.mk "Source Module" sheet.sources).cell (height into)) = false := by
    intro _
    rw [Bool.eq_false_iff]
    exact mt (h.source_iff _).mp (Nat.lt_irrefl _)
  obtain ⟨line, hline, hruled⟩ : ∃ line,
      (Grid.closedDrawing sheet.columns (max 1 (height into + height out))
        (height into) 2).lines[2 * row + 4]? = some line ∧
      Grid.Ruled (Grid.widthsOf sheet.columns)
        (if row + 1 = height into then
          Grid.raiseFirst 2 (Grid.flagsAbove sheet.columns (row + 1))
        else Grid.flagsAbove sheet.columns (row + 1)) line :=
    Grid.getElem?_closed_below hopen (by omega)
  obtain ⟨source, input, output, sink, hflags, hsource, hinput, houtput, hsink⟩ := h.flags (row + 1)
  have hbelow : sink = true ↔ height into ≤ row + 1 := hsink.trans (and_iff_left hrow)
  rw [hflags] at hruled
  by_cases hlast : row + 1 = height into
  · rw [if_pos hlast] at hruled
    exact ⟨true, true, output, sink, line, hline, hruled, iff_of_true rfl (by omega),
      iff_of_true rfl ⟨by omega, .inr hlast⟩, houtput, hbelow⟩
  · rw [if_neg hlast] at hruled
    refine ⟨source, input, output, sink, line, hline, hruled, hsource.trans (by omega),
      hinput.trans ?_, houtput, hbelow⟩
    constructor
    · intro hstart
      have hlt := hstart.lt
      exact ⟨by omega, .inl ⟨hlt, hstart⟩⟩
    · rintro ⟨_, hcases⟩
      exact (hcases.resolve_right hlast).2

theorem Tabulates.drawn (hinto : .nobody ∉ mentions into) :
    ∃ grid, Grid.draw listener sheet.columns = .ok grid ∧
      Drawn into out sheet (grid.closeBelowLast ":ref:" 2) := by
  have hrows : 0 < max 1 (height into + height out) := by omega
  refine ⟨_, Grid.draw_eq_ok (List.cons_ne_nil _ _) h.length_filled, ?_⟩
  rw [h.closeBelowLast_eq hinto]
  exact
    { length_widths := rfl
      length_lines := Grid.length_closed_lines hrows
      top_eq := Grid.getElem?_closed_rule rfl
      row_eq := fun row hrow => Grid.getElem?_closed_row hrow
      bottom_eq := Grid.getElem?_closed_rule (Grid.getElem?_bottom hrows)
      separated := fun row hrow => h.separated hrow }

end Tabulated

section Separated

variable {row : Nat} (hseparated : Separated into out grid row)

include hseparated

-- Above every cell with content there is a dashed line.
theorem Separated.below_filled (h : Tabulates project listener into out sheet) {column : Nat}
    {cells : List String} (hcells : sheet.cells[column]? = some cells)
    (hfilled : Filled cells (row + 1)) : Below grid '-' column row := by
  obtain ⟨source, input, output, sink, line, hline, hruled, hsource, hinput, houtput, hsink⟩ :=
    hseparated
  match column, hcells with
  | 0, rfl =>
    have hlt := (h.source_iff _).mp hfilled
    obtain rfl := hsource.mpr (by omega)
    exact ⟨line, hline, hruled.segment_eq 0 true rfl⟩
  | 1, rfl =>
    have hstart := (h.input_iff _).mp hfilled
    have hlt := hstart.lt
    obtain rfl := hinput.mpr ⟨by omega, .inl ⟨hlt, hstart⟩⟩
    exact ⟨line, hline, hruled.segment_eq 1 true rfl⟩
  | 2, rfl => exact absurd ((h.self_iff _).mp hfilled) (Nat.succ_ne_zero row)
  | 3, rfl =>
    obtain rfl := houtput.mpr ((h.output_iff _).mp hfilled)
    exact ⟨line, hline, hruled.segment_eq 3 true rfl⟩
  | 4, rfl =>
    obtain rfl := hsink.mpr ((h.sink_iff _).mp hfilled).1
    exact ⟨line, hline, hruled.segment_eq 4 true rfl⟩

theorem Separated.below_last (hlast : row + 1 = height into) :
    Below grid '-' 0 row ∧ Below grid '-' 1 row := by
  obtain ⟨source, input, output, sink, line, hline, hruled, hsource, hinput, _⟩ := hseparated
  obtain rfl := hsource.mpr (by omega)
  obtain rfl := hinput.mpr ⟨by omega, .inr hlast⟩
  exact ⟨⟨line, hline, hruled.segment_eq 0 true rfl⟩, ⟨line, hline, hruled.segment_eq 1 true rfl⟩⟩

theorem Separated.below_input_inside (hlt : row + 1 < height into)
    (hstart : ¬ StartsAt into (row + 1)) : Below grid ' ' 1 row := by
  obtain ⟨source, input, output, sink, line, hline, hruled, _, hinput, _⟩ := hseparated
  obtain rfl : input = false := by
    refine Bool.eq_false_iff.mpr (mt hinput.mp ?_)
    rintro ⟨_, ⟨_, h⟩ | h⟩
    · exact hstart h
    · omega
  exact ⟨line, hline, hruled.segment_eq 1 false rfl⟩

theorem Separated.below_output_inside (hstart : ¬ StartsAt out (row + 1 - height into)) :
    Below grid ' ' 3 row := by
  obtain ⟨source, input, output, sink, line, hline, hruled, _, _, houtput, _⟩ := hseparated
  obtain rfl : output = false := Bool.eq_false_iff.mpr (mt houtput.mp fun h => hstart h.2)
  exact ⟨line, hline, hruled.segment_eq 3 false rfl⟩

end Separated

namespace Drawn

variable (hdrawn : Drawn into out sheet grid) (h : Tabulates project listener into out sheet)
  {first : Nat} {group : Group}

include hdrawn h

theorem below_of_filled {column row : Nat} {cells : List String}
    (hcells : sheet.cells[column]? = some cells) (hpos : row ≠ 0) (hfilled : Filled cells row) :
    Below grid '-' column (row - 1) := by
  obtain ⟨above, rfl⟩ := Nat.exists_eq_succ_of_ne_zero hpos
  refine (hdrawn.separated above ?_).below_filled h hcells hfilled
  have hlt := hfilled.lt_length
  have hlength := h.max_length cells (List.mem_of_getElem? hcells)
  omega

theorem input_cell (hspans : Spans into first group) :
    OneCell grid 1 (height into + height out) first group.mentions.length where
  above hpos := hdrawn.below_of_filled h rfl hpos ((h.input_iff _).mpr ⟨group, hspans⟩)
  inside row hfirst hlast := by
    have hend := hspans.end_le
    obtain ⟨offset, rfl⟩ := Nat.exists_eq_add_of_le hfirst
    refine (hdrawn.separated _ (by omega)).below_input_inside (by omega) ?_
    exact hspans.not_startsAt (Nat.succ_pos offset) (by omega)
  below hmore := by
    have hpos := hspans.length_pos
    have hend := hspans.end_le
    obtain hlt | heq := Nat.lt_or_eq_of_le hend
    · exact hdrawn.below_of_filled h rfl (by omega) ((h.input_iff _).mpr (hspans.startsAt_end hlt))
    · exact ((hdrawn.separated _ (by omega)).below_last (by omega)).2

theorem output_cell (hspans : Spans out first group) :
    OneCell grid 3 (height into + height out) (height into + first) group.mentions.length where
  above hpos := by
    refine hdrawn.below_of_filled h rfl hpos ((h.output_iff _).mpr ⟨by omega, ?_⟩)
    rw [Nat.add_sub_cancel_left]
    exact ⟨group, hspans⟩
  inside row hfirst hlast := by
    have hend := hspans.end_le
    obtain ⟨offset, rfl⟩ := Nat.exists_eq_add_of_le hfirst
    refine (hdrawn.separated _ (by omega)).below_output_inside ?_
    rw [Nat.add_assoc, Nat.add_assoc, Nat.add_sub_cancel_left]
    exact hspans.not_startsAt (Nat.succ_pos offset) (by omega)
  below hmore := by
    have hpos := hspans.length_pos
    refine hdrawn.below_of_filled h rfl (by omega) ((h.output_iff _).mpr ⟨by omega, ?_⟩)
    rw [Nat.add_assoc, Nat.add_sub_cancel_left]
    exact hspans.startsAt_end (by omega)

theorem legible : Legible into out sheet grid where
  apart column cells hcells upper lower hlt _ hfilled :=
    ⟨lower - 1, by omega, by omega, hdrawn.below_of_filled h hcells (by omega) hfilled⟩
  input_cell _ _ hspans := hdrawn.input_cell h hspans
  output_cell _ _ hspans := hdrawn.output_cell h hspans
  parted _ _ := (hdrawn.separated _ (by omega)).below_last (by omega)

end Drawn

theorem nobody_not_mem_groupsIn (graph : Graph) (limit : Nat) (events : PerTier (List String)) :
    .nobody ∉ mentions (groupsIn graph limit events) := by
  intro h
  obtain ⟨group, hgroup, hmention⟩ := List.mem_flatMap.mp h
  obtain ⟨event, _, rfl⟩ := List.mem_map.mp hgroup
  obtain ⟨heq, _⟩ | ⟨name, heq⟩ := Mention.mem_collapse hmention
  · cases heq
  · cases heq

-- Every listener of a model has a table, drawn so that its cells can be told apart.
theorem listenerTable_drawn {model : Model} {name : String} {record : Listener} (options : Options)
    (h : model.listeners.get? name = some record) :
    ∃ heard created sheet grid, (Graph.ofModel model).inEvents name = .ok heard ∧
      (Graph.ofModel model).outEvents name = .ok created ∧
      columns (Graph.ofModel model) options name = .ok sheet.columns ∧
      Tabulates (options.label (Graph.ofModel model)) name
        (groupsIn (Graph.ofModel model) options.collapseAt heard)
        (groupsOut (Graph.ofModel model) options.collapseAt created) sheet ∧
      Grid.draw name sheet.columns = .ok grid ∧
      listenerTable (Graph.ofModel model) options name =
        .ok (grid.closeBelowLast ":ref:" 2).text ∧
      Drawn (groupsIn (Graph.ofModel model) options.collapseAt heard)
        (groupsOut (Graph.ofModel model) options.collapseAt created) sheet
        (grid.closeBelowLast ":ref:" 2) ∧
      Legible (groupsIn (Graph.ofModel model) options.collapseAt heard)
        (groupsOut (Graph.ofModel model) options.collapseAt created) sheet
        (grid.closeBelowLast ":ref:" 2) := by
  obtain ⟨heard, created, hheard, hcreated, _⟩ := exists_faithful options.collapseAt h
  have hcolumns := columns_eq options hheard hcreated
  have htabulates := tabulates_ofGroups (options.label (Graph.ofModel model)) name
    (groupsIn (Graph.ofModel model) options.collapseAt heard)
    (groupsOut (Graph.ofModel model) options.collapseAt created)
  obtain ⟨grid, hgrid, hdrawn⟩ := htabulates.drawn (nobody_not_mem_groupsIn _ _ _)
  refine ⟨heard, created, _, grid, hheard, hcreated, hcolumns, htabulates, hgrid, ?_, hdrawn,
    hdrawn.legible htabulates⟩
  unfold listenerTable
  rw [hcolumns]
  simp only [bind, Except.bind, pure, Except.pure, hgrid]

def leds : Listener :=
  { Listener.blank "leds" with
    inEvents := ⟨some ∅, some (.ofList ["btn_event"]), some ∅⟩
    outEvents := .ofList ["led_event"] }

def desk : Model :=
  { project := "p"
    callables := ∅
    listeners := .ofList
      [("buttons", { Listener.blank "buttons" with outEvents := .ofList ["btn_event"] }),
       ("leds", leds)] }

theorem listenerTable_drawn_leds :
    desk.listeners.get? "leds" = some leds ∧
      ∃ heard created sheet grid, (Graph.ofModel desk).inEvents "leds" = .ok heard ∧
        (Graph.ofModel desk).outEvents "leds" = .ok created ∧
        columns (Graph.ofModel desk) {} "leds" = .ok sheet.columns ∧
        Tabulates "p" "leds" (groupsIn (Graph.ofModel desk) 7 heard)
          (groupsOut (Graph.ofModel desk) 7 created) sheet ∧
        Grid.draw "leds" sheet.columns = .ok grid ∧
        listenerTable (Graph.ofModel desk) {} "leds" =
          .ok (grid.closeBelowLast ":ref:" 2).text ∧
        Drawn (groupsIn (Graph.ofModel desk) 7 heard) (groupsOut (Graph.ofModel desk) 7 created)
          sheet (grid.closeBelowLast ":ref:" 2) ∧
        Legible (groupsIn (Graph.ofModel desk) 7 heard) (groupsOut (Graph.ofModel desk) 7 created)
          sheet (grid.closeBelowLast ":ref:" 2) :=
  have hleds : desk.listeners.get? "leds" = some leds := by decide +kernel
  ⟨hleds, listenerTable_drawn {} hleds⟩

end EventFlow.Report
