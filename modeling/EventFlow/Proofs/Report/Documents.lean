import EventFlow.Proofs.Grid.Bounds
import EventFlow.Proofs.Report.Geometry
import EventFlow.Proofs.Report.Index
import EventFlow.Proofs.Text.Utf8
import EventFlow.Report.Documents

namespace EventFlow.Report

variable {graph : Graph} {options : Options} {parts : List String}

-- How the table of a listener comes about.
structure Rendered (graph : Graph) (options : Options) (listener table : String)
    (columns : List Grid.Column) (grid : Grid) : Prop where
  columns_eq : Report.columns graph options listener = .ok columns
  length_columns : columns.length = 5
  -- with blank cells filled in, all columns have the same number of rows
  even : ∃ rows, ∀ column ∈ columns, column.filled.cells.length = rows
  drawn : Grid.draw listener columns = .ok grid
  inside : grid.ClosesInside ":ref:" 2
  table_eq : listenerTable graph options listener = .ok table
  text_eq : table = (grid.closeBelowLast ":ref:" 2).text

theorem exists_rendered (model : Model) (options : Options) {name : String}
    (h : name ∈ (Graph.ofModel model).listeners) :
    ∃ table columns grid, Rendered (Graph.ofModel model) options name table columns grid := by
  obtain ⟨heard, hheard, _⟩ := Graph.inEvents_ofModel h
  obtain ⟨created, hcreated, _⟩ := Graph.outEvents_ofModel h
  have hcolumns := columns_eq options hheard hcreated
  have htabulates := tabulates_ofGroups (options.label (Graph.ofModel model)) name
    (groupsIn (Graph.ofModel model) options.collapseAt heard)
    (groupsOut (Graph.ofModel model) options.collapseAt created)
  generalize Sheet.ofGroups (options.label (Graph.ofModel model)) name
    (groupsIn (Graph.ofModel model) options.collapseAt heard)
    (groupsOut (Graph.ofModel model) options.collapseAt created) = sheet at hcolumns htabulates
  have hgrid := @Grid.draw_eq_ok sheet.columns _ name (List.cons_ne_nil _ _)
    htabulates.length_filled
  refine ⟨_, sheet.columns, _, hcolumns, rfl, ⟨_, htabulates.length_filled⟩, hgrid, ?_, ?_, rfl⟩
  · have hheader : ¬ ":ref:".toList <+: "Source Module".toList := by decide
    exact Grid.closesInside_drawing (by decide) (by decide) hheader (by omega)
  · unfold listenerTable
    rw [hcolumns]
    simp only [bind, Except.bind, pure, Except.pure, hgrid]

-- The text that a document is made of loses two line ends at its end, and nothing else, be it
-- counted in characters or in octets.
structure Trims (parts : List String) : Prop where
  join_eq : String.join parts = document parts ++ "\n\n"
  encode_eq : Text.Utf8.encode (document parts) =
    (Text.Utf8.encode (String.join parts)).take ((Text.Utf8.encode (String.join parts)).length - 2)

theorem trims (hne : parts ≠ []) (h : ∀ part ∈ parts, EndsBlank part) : Trims parts := by
  obtain ⟨init, last, rfl⟩ : ∃ init last, parts = init ++ [last] :=
    ⟨_, _, (List.dropLast_append_getLast hne).symm⟩
  obtain ⟨body, hbody⟩ := h last (by simp)
  have hjoin : String.join (init ++ [last]) = document (init ++ [last]) ++ "\n\n" := by
    refine String.toList_inj.mp ?_
    simp [document, hbody, String.toList_join]
  refine ⟨hjoin, ?_⟩
  have hencode : Text.Utf8.encode (String.join (init ++ [last])) =
      Text.Utf8.encode (document (init ++ [last])) ++ Text.Utf8.encode "\n\n" := by
    rw [hjoin, Text.Utf8.encode_append]
  have htwo : (Text.Utf8.encode "\n\n").length = 2 := by decide +kernel
  rw [hencode, List.length_append, htwo, Nat.add_sub_cancel, List.take_left]

-- What the propagation document is made of.
def propagationFront (graph : Graph) (options : Options) : String :=
  let title := propagationTitle graph options
  let mark := underline '#' title
  s!":orphan:\n\n{title}\n{mark}\n\n"

-- The table of a listener between its markers.
def bracketed (listener table : String) : String :=
  s!".. table_{listener}_start\n\n{table}\n\n.. table_{listener}_end\n\n\n"

def propagationParts (graph : Graph) (options : Options) (tables : List String) : List String :=
  propagationFront graph options ::
    (graph.listeners.toList.zip tables).map fun entry => bracketed entry.1 entry.2

-- What the index is made of.
def indexFront (graph : Graph) (options : Options) : String :=
  let project := options.label graph
  let heading := "Source and sink module lists"
  let mark := underline '#' heading
  let line := anchor project "event_rel_modules"
  s!"{line}\n\n{heading}\n{mark}\n\n" ++ ".. contents::\n   :local:\n   :depth: 2\n\n"
    ++ introduction

def indexParts (graph : Graph) (options : Options) : List String :=
  indexFront graph options :: (graph.events.toList.filter (isIndexed graph options)).map
    (indexSection graph (options.label graph))

theorem indexDocument_eq (graph : Graph) (options : Options) :
    indexDocument graph options = document (indexParts graph options) := rfl

theorem trims_indexParts (graph : Graph) (options : Options) :
    Trims (indexParts graph options) := by
  refine trims (List.cons_ne_nil _ _) ?_
  rw [indexParts, List.forall_mem_cons]
  refine ⟨endsBlank_introduction.append _, fun part hpart => ?_⟩
  obtain ⟨event, _, rfl⟩ := List.mem_map.mp hpart
  exact ⟨_, toList_indexSection ..⟩

theorem endsBlank_propagationFront (graph : Graph) (options : Options) :
    EndsBlank (propagationFront graph options) := by
  refine ⟨(":orphan:\n\n" ++ propagationTitle graph options ++ "\n" ++
    underline '#' (propagationTitle graph options)).toList, ?_⟩
  simp [propagationFront, toString]

theorem endsBlank_bracketed (listener table : String) : EndsBlank (bracketed listener table) := by
  refine ⟨(".. table_" ++ listener ++ "_start\n\n" ++ table ++ "\n\n.. table_" ++ listener ++
    "_end\n").toList, ?_⟩
  simp [bracketed, toString]

theorem trims_propagationParts (graph : Graph) (options : Options) (tables : List String) :
    Trims (propagationParts graph options tables) := by
  refine trims (List.cons_ne_nil _ _) ?_
  rw [propagationParts, List.forall_mem_cons]
  refine ⟨endsBlank_propagationFront graph options, fun part hpart => ?_⟩
  obtain ⟨entry, _, rfl⟩ := List.mem_map.mp hpart
  exact endsBlank_bracketed entry.1 entry.2

-- The tables of all listeners are put between their markers one after the other.
theorem exists_tables {names : List String}
    (h : ∀ name ∈ names, ∃ table columns grid, Rendered graph options name table columns grid) :
    ∃ tables, List.Forall₂ (fun name table => ∃ columns grid,
        Rendered graph options name table columns grid) names tables ∧
      (names.mapM fun name => (listenerTable graph options name).map (bracketed name)) =
        .ok ((names.zip tables).map fun entry => bracketed entry.1 entry.2) := by
  induction names with
  | nil => exact ⟨[], .nil, rfl⟩
  | cons name names ih =>
    rw [List.forall_mem_cons] at h
    obtain ⟨⟨table, columns, grid, hrendered⟩, hnames⟩ := h
    obtain ⟨tables, htables, hsections⟩ := ih hnames
    refine ⟨table :: tables, .cons ⟨columns, grid, hrendered⟩ htables, ?_⟩
    rw [List.mapM_cons, hrendered.table_eq, hsections]
    rfl

theorem propagationDocument_eq {tables : List String}
    (h : (graph.listeners.toList.mapM fun name =>
      (listenerTable graph options name).map (bracketed name)) =
        .ok ((graph.listeners.toList.zip tables).map fun entry => bracketed entry.1 entry.2)) :
    propagationDocument graph options = .ok (document (propagationParts graph options tables)) := by
  have hsection : ∀ name, (do
      let table ← listenerTable graph options name
      return s!".. table_{name}_start\n\n{table}\n\n.. table_{name}_end\n\n\n") =
      (listenerTable graph options name).map (bracketed name) := by
    intro name
    cases listenerTable graph options name with
    | error error => rfl
    | ok table => rfl
  unfold propagationDocument
  simp only [hsection, h]
  rfl

-- Every model has both its documents, whatever the options. The columns of each table fit
-- together, its closing stays within the lines, and of the documents only the last two line ends
-- are cut.
theorem documents_rendered (model : Model) (options : Options) :
    ∃ tables, List.Forall₂ (fun name table => ∃ columns grid,
        Rendered (Graph.ofModel model) options name table columns grid)
        (Graph.ofModel model).listeners.toList tables ∧
      documents (Graph.ofModel model) options = .ok
        [(propagationFile, document (propagationParts (Graph.ofModel model) options tables)),
         (indexFile, document (indexParts (Graph.ofModel model) options))] ∧
      Trims (propagationParts (Graph.ofModel model) options tables) ∧
      Trims (indexParts (Graph.ofModel model) options) := by
  obtain ⟨tables, htables, hsections⟩ := exists_tables fun name hname =>
    exists_rendered model options hname
  refine ⟨tables, htables, ?_, trims_propagationParts .., trims_indexParts ..⟩
  rw [documents, propagationDocument_eq hsections, indexDocument_eq]
  rfl

end EventFlow.Report
