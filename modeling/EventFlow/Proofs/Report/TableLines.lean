import EventFlow.Proofs.Grid.Lines
import EventFlow.Proofs.Report.Listing

namespace EventFlow.Report

open Grid (Framed)

variable {model : Model} {graph : Graph} {options : Options} {project name event item : String}
  {limit : Nat} {groups into out : List Group} {record : Listener} {table : String}
  {columns : List Grid.Column} {grid : Grid}

theorem newline_not_mem_literal (h : '\n' ∉ item.toList) : '\n' ∉ (literal item).toList := by
  simp [literal, toString, h]

theorem newline_not_mem_reference (hproject : '\n' ∉ project.toList) (h : '\n' ∉ item.toList) :
    '\n' ∉ (reference project item).toList := by
  simp [reference, toString, hproject, h]

-- The texts that a group puts into a table do not reach over a line end.
structure Group.OneLine (project : String) (group : Group) : Prop where
  event : '\n' ∉ group.event.toList
  mentions : ∀ mention ∈ group.mentions, '\n' ∉ (mention.text project).toList

section Cells

variable (h : OneLine graph options) (hevent : '\n' ∉ event.toList)

include h hevent

theorem oneLine_heard : (Group.heard graph limit event).OneLine (options.label graph) := by
  refine ⟨hevent, Mention.forall_mem_collapse ?_ fun name hname => ?_⟩
  · rw [Mention.text_sources]
    exact newline_not_mem_reference h.label (by simp [sourcesOf, toString, hevent])
  · exact newline_not_mem_reference h.label (h.producers event name hname)

theorem oneLine_created : (Group.created graph limit event).OneLine (options.label graph) := by
  refine ⟨hevent, fun mention hmention => ?_⟩
  rw [Group.created] at hmention
  split_ifs at hmention with hnone
  · rw [List.mem_singleton.mp hmention]
    exact (by decide : '\n' ∉ "None".toList)
  · revert mention
    refine Mention.forall_mem_collapse ?_ fun name hname => ?_
    · rw [Mention.text_sinks]
      exact newline_not_mem_reference h.label (by simp [sinksOf, toString, hevent])
    · exact newline_not_mem_reference h.label (h.audience event name hname)

end Cells

theorem newline_not_mem_labels (h : ∀ group ∈ groups, group.OneLine project) :
    ∀ cell ∈ labels groups, '\n' ∉ cell.toList := by
  intro cell hcell
  obtain ⟨group, hgroup, hcell⟩ := List.mem_flatMap.mp hcell
  obtain rfl | hblank := List.mem_cons.mp (List.mem_of_mem_take hcell)
  · exact newline_not_mem_literal (h group hgroup).event
  · obtain ⟨_, _, rfl⟩ := List.mem_map.mp hblank
    exact List.not_mem_nil

theorem newline_not_mem_mentions (h : ∀ group ∈ groups, group.OneLine project) :
    ∀ cell ∈ (mentions groups).map (Mention.text project), '\n' ∉ cell.toList := by
  intro cell hcell
  obtain ⟨mention, hmention, rfl⟩ := List.mem_map.mp hcell
  obtain ⟨group, hgroup, hmention⟩ := List.mem_flatMap.mp hmention
  exact (h group hgroup).mentions mention hmention

theorem newline_not_mem_blanks (count : Nat) : ∀ cell ∈ blanks count, '\n' ∉ cell.toList := by
  intro cell hcell
  rw [eq_empty_of_mem_blanks hcell]
  exact List.not_mem_nil

theorem newline_not_mem_cells (hname : '\n' ∉ name.toList)
    (hinto : ∀ group ∈ into, group.OneLine project) (hout : ∀ group ∈ out, group.OneLine project) :
    ∀ cells ∈ (Sheet.ofGroups project name into out).cells, ∀ cell ∈ cells,
      '\n' ∉ cell.toList := by
  simp only [Sheet.cells, Sheet.ofGroups, List.forall_mem_cons, List.forall_mem_append,
    List.not_mem_nil, false_implies, implies_true, and_true]
  exact ⟨⟨newline_not_mem_mentions hinto, newline_not_mem_blanks _⟩,
    ⟨newline_not_mem_labels hinto, newline_not_mem_blanks _⟩,
    ⟨newline_not_mem_literal hname, newline_not_mem_blanks _⟩,
    ⟨newline_not_mem_blanks _, newline_not_mem_labels hout⟩,
    ⟨newline_not_mem_blanks _, newline_not_mem_mentions hout⟩⟩

theorem Sheet.oneLine_columns {sheet : Sheet}
    (h : ∀ cells ∈ sheet.cells, ∀ cell ∈ cells, '\n' ∉ cell.toList) :
    ∀ column ∈ sheet.columns, column.OneLine := by
  intro column hcolumn
  have hheaders : sheet.columns.map Grid.Column.header = columnNames := rfl
  have hcells : sheet.columns.map Grid.Column.cells = sheet.cells := rfl
  have hnames : ∀ header ∈ columnNames, '\n' ∉ header.toList := by decide
  exact ⟨hnames _ (hheaders ▸ List.mem_map_of_mem hcolumn),
    h _ (hcells ▸ List.mem_map_of_mem hcolumn)⟩

theorem mem_events_of_heard {heard : PerTier (List String)} {created : List String} {tier : Tier}
    (hrecord : model.listeners.get? name = some record)
    (h : Faithful model limit record heard created) (hevent : event ∈ heard.get tier) :
    event ∈ model.events :=
  Model.mem_events_iff.mpr
    ⟨name, record, hrecord, .inl ⟨tier, ((h.mem_heard tier event).mp hevent).1⟩⟩

theorem mem_events_of_created {heard : PerTier (List String)} {created : List String}
    (hrecord : model.listeners.get? name = some record)
    (h : Faithful model limit record heard created) (hevent : event ∈ created) :
    event ∈ model.events :=
  Model.mem_events_iff.mpr ⟨name, record, hrecord, .inr ((h.mem_created event).mp hevent)⟩

theorem oneLine_of_columns (h : OneLine (Graph.ofModel model) options)
    (hname : '\n' ∉ name.toList) (hrecord : model.listeners.get? name = some record)
    (hcolumns : Report.columns (Graph.ofModel model) options name = .ok columns) :
    ∀ column ∈ columns, column.OneLine := by
  obtain ⟨heard, created, hheard, hcreated, hfaithful⟩ :=
    exists_faithful options.collapseAt hrecord
  rw [columns_eq options hheard hcreated] at hcolumns
  obtain rfl := Except.ok.inj hcolumns
  refine Sheet.oneLine_columns (newline_not_mem_cells hname ?_ ?_)
  · intro group hgroup
    obtain ⟨event, hevent, rfl⟩ := List.mem_map.mp hgroup
    obtain ⟨list, hlist, hevent⟩ := List.mem_flatten.mp hevent
    obtain ⟨tier, _, rfl⟩ := List.mem_map.mp hlist
    exact oneLine_heard h (h.events event (mem_events_of_heard hrecord hfaithful hevent))
  · intro group hgroup
    obtain ⟨event, hevent, rfl⟩ := List.mem_map.mp hgroup
    exact oneLine_created h (h.events event (mem_events_of_created hrecord hfaithful hevent))

theorem unlines_linesOf (text : String) : unlines (linesOf text) = text.toList ++ ['\n'] := by
  have hne : linesOf text ≠ [] := mt List.map_eq_nil_iff.mp (List.splitOn_ne_nil _ _)
  have hlines : (linesOf text).map String.toList = text.toList.splitOn '\n' := by
    simp [linesOf, Function.comp_def]
  have hdrop := dropLast_unlines hne
  rw [hlines, List.intercalate_splitOn] at hdrop
  obtain ⟨init, last, heq⟩ : ∃ init last, linesOf text = init ++ [last] :=
    ⟨_, _, (List.dropLast_append_getLast hne).symm⟩
  have hend : unlines (linesOf text) = unlines init ++ last.toList ++ ['\n'] := by
    rw [heq]
    simp [unlines]
  rw [← hdrop, hend, List.dropLast_concat]

-- The text of a table is cut into the lines that were drawn.
theorem Rendered.framed (h : Rendered graph options name table columns grid)
    (hcolumns : ∀ column ∈ columns, column.OneLine) :
    ∀ line ∈ linesOf table, Framed line.toList := by
  have hne : columns ≠ [] := by
    rintro rfl
    cases h.length_columns
  obtain ⟨rows, hrows⟩ := h.even
  have hgrid := h.drawn
  rw [Grid.draw_eq_ok hne hrows] at hgrid
  obtain rfl := Except.ok.inj hgrid
  have hframed := Grid.framed_closeBelowLast (Grid.framed_drawing hne hcolumns rows) ":ref:" 2
  have hlines : ((Grid.drawing columns rows).closeBelowLast ":ref:" 2).lines ≠ [] := by
    refine List.ne_nil_of_length_pos ?_
    rw [Grid.length_closeBelowLast]
    exact Nat.zero_lt_succ _
  have htext : linesOf table =
      ((Grid.drawing columns rows).closeBelowLast ":ref:" 2).lines.map String.ofList := by
    rw [h.text_eq, linesOf, Grid.text, String.toList_ofList,
      List.splitOn_intercalate '\n' (fun line hline => (hframed line hline).oneLine) hlines]
  rw [htext, List.forall_mem_map]
  intro line hline
  rw [String.toList_ofList]
  exact hframed line hline

end EventFlow.Report
