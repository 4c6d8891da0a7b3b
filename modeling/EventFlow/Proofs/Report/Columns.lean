import EventFlow.Proofs.Graph.Queries
import EventFlow.Proofs.Report.Groups
import Mathlib.Data.List.GetD

namespace EventFlow.Report

open Grid (hasContent)

-- The cells of a listener's table, column by column.
structure Sheet where
  sources : List String
  inputs : List String
  self : List String
  outputs : List String
  sinks : List String
  deriving DecidableEq

namespace Sheet

def cells (sheet : Sheet) : List (List String) :=
  [sheet.sources, sheet.inputs, sheet.self, sheet.outputs, sheet.sinks]

def columns (sheet : Sheet) : List Grid.Column :=
  [⟨"Source Module", sheet.sources⟩, ⟨"Input Event", sheet.inputs⟩, ⟨"This Module", sheet.self⟩,
    ⟨"Output Event", sheet.outputs⟩, ⟨"Sink Module", sheet.sinks⟩]

end Sheet

-- The column has content in the row.
def Filled (cells : List String) (row : Nat) : Prop := hasContent (cells.getD row "") = true

-- What a sheet shows that has the groups `into` on the side of the sources and the groups `out`
-- on the side of the sinks.
structure Tabulates (project listener : String) (into out : List Group) (sheet : Sheet) :
    Prop where
  -- all columns have a row for each mention; only the listener's own row stands in any case
  length_eq : ∀ cells ∈ [sheet.sources, sheet.inputs, sheet.outputs, sheet.sinks],
    cells.length = height into + height out
  length_self : sheet.self.length = max 1 (height into + height out)
  -- the sources take the first rows
  source_eq : ∀ (row : Nat) (mention : Mention), (mentions into)[row]? = some mention →
    sheet.sources[row]? = some (mention.text project)
  source_iff : ∀ row, Filled sheet.sources row ↔ row < height into
  -- an event that comes in stands in the first row of its group
  input_eq : ∀ row group, Spans into row group →
    sheet.inputs[row]? = some s!"``{group.event}``"
  input_iff : ∀ row, Filled sheet.inputs row ↔ StartsAt into row
  self_eq : sheet.self[0]? = some s!"``{listener}``"
  self_iff : ∀ row, Filled sheet.self row ↔ row = 0
  -- so does one that goes out, where its rows are counted from below the sources
  output_eq : ∀ row group, Spans out row group →
    sheet.outputs[height into + row]? = some s!"``{group.event}``"
  output_iff : ∀ row, Filled sheet.outputs row ↔
    height into ≤ row ∧ StartsAt out (row - height into)
  -- the sinks take the last rows
  sink_eq : ∀ (row : Nat) (mention : Mention), (mentions out)[row]? = some mention →
    sheet.sinks[height into + row]? = some (mention.text project)
  sink_iff : ∀ row, Filled sheet.sinks row ↔
    height into ≤ row ∧ row < height into + height out
  -- a cell without content has no characters
  blank : ∀ cells ∈ sheet.cells, ∀ cell ∈ cells, hasContent cell = true ∨ cell = ""

section Content

variable {groups : List Group} {row count : Nat}

theorem hasContent_of_mem {cell : String} {c : Char} (hc : c ∈ cell.toList) (hne : c ≠ ' ') :
    hasContent cell = true := List.any_eq_true.mpr ⟨c, hc, by simpa using hne⟩

theorem hasContent_literal (item : String) : hasContent (literal item) = true :=
  hasContent_of_mem (show '`' ∈ _ by simp [literal, toString]) (by decide)

theorem hasContent_reference (project item : String) : hasContent (reference project item) = true :=
  hasContent_of_mem (show ':' ∈ _ by simp [reference, toString]) (by decide)

theorem hasContent_text (project : String) (mention : Mention) :
    hasContent (mention.text project) = true := by
  by_cases hnobody : mention = .nobody
  · rw [hnobody]
    exact (by decide : hasContent "None" = true)
  · obtain ⟨item, htext⟩ := Mention.exists_reference project hnobody
    rw [htext]
    exact hasContent_reference project item

theorem hasContent_of_mem_map_text {project cell : String} {list : List Mention}
    (h : cell ∈ list.map (Mention.text project)) : hasContent cell = true := by
  obtain ⟨mention, _, rfl⟩ := List.mem_map.mp h
  exact hasContent_text project mention

theorem filled_iff_of_forall {cells : List String} (h : ∀ cell ∈ cells, hasContent cell = true) :
    Filled cells row ↔ row < cells.length := by
  by_cases hrow : row < cells.length
  · refine iff_of_true ?_ hrow
    rw [Filled, List.getD_eq_getElem _ _ hrow]
    exact h _ (List.getElem_mem hrow)
  · refine iff_of_false ?_ hrow
    rw [Filled, List.getD_eq_default _ _ (Nat.le_of_not_lt hrow)]
    decide

theorem filled_map_text {project : String} :
    Filled ((mentions groups).map (Mention.text project)) row ↔ row < height groups := by
  rw [filled_iff_of_forall fun cell => hasContent_of_mem_map_text, List.length_map,
    length_mentions]

theorem filled_labels : Filled (labels groups) row ↔ StartsAt groups row := by
  by_cases hstart : StartsAt groups row
  · refine iff_of_true ?_ hstart
    obtain ⟨group, hspans⟩ := hstart
    rw [Filled, List.getD_eq_getElem?_getD, getElem?_labels_of_spans hspans]
    exact hasContent_literal _
  · refine iff_of_false ?_ hstart
    by_cases hrow : row < height groups
    · rw [Filled, List.getD_eq_getElem?_getD, getElem?_labels_of_not_startsAt hstart hrow]
      decide
    · rw [Filled, List.getD_eq_default _ _ (by rw [length_labels]; omega)]
      decide

theorem blank_of_mem_labels {cell : String} (h : cell ∈ labels groups) :
    hasContent cell = true ∨ cell = "" := by
  obtain ⟨row, hrow⟩ := List.mem_iff_getElem?.mp h
  by_cases hstart : StartsAt groups row
  · obtain ⟨group, hspans⟩ := hstart
    rw [getElem?_labels_of_spans hspans] at hrow
    cases hrow
    exact .inl (hasContent_literal _)
  · have hlt := (List.getElem?_eq_some_iff.mp hrow).1
    rw [length_labels] at hlt
    rw [getElem?_labels_of_not_startsAt hstart hlt] at hrow
    cases hrow
    exact .inr rfl

-- Blanks below the cells of a column cannot be told from no cells.
theorem filled_append_blanks {cells : List String} :
    Filled (cells ++ blanks count) row ↔ Filled cells row := by
  by_cases hrow : row < cells.length
  · rw [Filled, List.getD_append _ _ _ _ hrow, Filled]
  · have hblank : (blanks count).getD (row - cells.length) "" = "" := by
      rw [blanks, List.getD_eq_getElem?_getD, List.getElem?_replicate]
      split_ifs <;> rfl
    rw [Filled, Filled, List.getD_append_right _ _ _ _ (Nat.le_of_not_lt hrow), hblank,
      List.getD_eq_default _ _ (Nat.le_of_not_lt hrow)]

theorem filled_blanks_append {cells : List String} :
    Filled (blanks count ++ cells) row ↔ count ≤ row ∧ Filled cells (row - count) := by
  have hlength : (blanks count).length = count := List.length_replicate
  by_cases hrow : row < count
  · refine iff_of_false ?_ fun h => Nat.not_le_of_lt hrow h.1
    rw [Filled, List.getD_append _ _ _ _ (by rwa [hlength]), blanks, List.getD_replicate _ hrow]
    decide
  · have hle := Nat.le_of_not_lt hrow
    rw [Filled, List.getD_append_right _ _ _ _ (by rwa [hlength]), hlength, and_iff_right hle,
      Filled]

theorem eq_empty_of_mem_blanks {cell : String} (h : cell ∈ blanks count) : cell = "" :=
  (List.mem_replicate.mp h).2

end Content

-- The sheet with the groups of both sides, one side below the other.
def Sheet.ofGroups (project listener : String) (into out : List Group) : Sheet :=
  let above := height into
  let below := height out
  { sources := (mentions into).map (Mention.text project) ++ blanks below
    inputs := labels into ++ blanks below
    self := literal listener :: blanks (above + below - 1)
    outputs := blanks above ++ labels out
    sinks := blanks above ++ (mentions out).map (Mention.text project) }

theorem tabulates_ofGroups (project listener : String) (into out : List Group) :
    Tabulates project listener into out (.ofGroups project listener into out) where
  length_eq := by
    simp [Sheet.ofGroups, length_labels, blanks]
  length_self := by
    simp only [Sheet.ofGroups, List.length_cons, blanks, List.length_replicate]
    omega
  source_eq row mention hrow := by
    have hlt := (List.getElem?_eq_some_iff.mp hrow).1
    rw [Sheet.ofGroups, List.getElem?_append_left (by rwa [List.length_map]), List.getElem?_map,
      hrow]
    rfl
  source_iff row := filled_append_blanks.trans filled_map_text
  input_eq row group hspans := by
    have hlt := StartsAt.lt ⟨group, hspans⟩
    rw [Sheet.ofGroups, List.getElem?_append_left (by rwa [length_labels]),
      getElem?_labels_of_spans hspans, literal]
  input_iff row := filled_append_blanks.trans filled_labels
  self_eq := rfl
  self_iff row := by
    have hself : Filled [literal listener] row ↔ row < 1 :=
      filled_iff_of_forall (by simp [hasContent_literal])
    have hcells : (Sheet.ofGroups project listener into out).self =
        [literal listener] ++ blanks (height into + height out - 1) := rfl
    rw [hcells, filled_append_blanks, hself, Nat.lt_one_iff]
  output_eq row group hspans := by
    have hlength : (blanks (height into)).length = height into :=
      List.length_replicate
    rw [Sheet.ofGroups, List.getElem?_append_right (by omega), hlength, Nat.add_sub_cancel_left,
      getElem?_labels_of_spans hspans, literal]
  output_iff row := filled_blanks_append.trans (and_congr_right' filled_labels)
  sink_eq row mention hrow := by
    have hlength : (blanks (height into)).length = height into :=
      List.length_replicate
    rw [Sheet.ofGroups, List.getElem?_append_right (by omega), hlength, Nat.add_sub_cancel_left,
      List.getElem?_map, hrow]
    rfl
  sink_iff row := by
    refine filled_blanks_append.trans (and_congr_right fun hle => ?_)
    rw [filled_map_text]
    omega
  blank := by
    simp only [Sheet.cells, Sheet.ofGroups, List.forall_mem_cons, List.not_mem_nil,
      List.forall_mem_append, false_implies, implies_true, and_true]
    refine ⟨⟨fun _ h => .inl (hasContent_of_mem_map_text h), ?_⟩,
      ⟨fun _ => blank_of_mem_labels, ?_⟩, ⟨.inl (hasContent_literal listener), ?_⟩,
      ⟨?_, fun _ => blank_of_mem_labels⟩,
      ⟨?_, fun _ h => .inl (hasContent_of_mem_map_text h)⟩⟩
    all_goals exact fun _ h => .inr (eq_empty_of_mem_blanks h)

theorem columns_eq {graph : Graph} {name : String} {heard : PerTier (List String)}
    {created : List String} (options : Options) (hheard : graph.inEvents name = .ok heard)
    (hcreated : graph.outEvents name = .ok created) :
    columns graph options name = .ok (Sheet.ofGroups (options.label graph) name
      (groupsIn graph options.collapseAt heard)
      (groupsOut graph options.collapseAt created)).columns := by
  unfold columns
  rw [hheard, hcreated]
  simp only [bind, Except.bind, pure, Except.pure, inbound_eq, outbound_eq, List.length_map]
  rfl

-- How the groups on both sides of a listener's table come from the records of a model.
structure Faithful (model : Model) (limit : Nat) (listener : Listener)
    (heard : PerTier (List String)) (created : List String) : Prop where
  -- the events that come in at a tier are those that are declared for it first
  heard_ascending : ∀ tier, (heard.get tier).Pairwise (· < ·)
  mem_heard : ∀ tier event, event ∈ heard.get tier ↔ listener.DeclaresFirst tier event
  created_ascending : created.Pairwise (· < ·)
  mem_created : ∀ event, event ∈ created ↔ event ∈ listener.outEvents
  -- whether or not they are collapsed, the rows of an event that comes in stand for those who
  -- create it
  heard_modules : ∀ event,
    (Group.heard (Graph.ofModel model) limit event).mentions.flatMap
      (Mention.modules (Graph.ofModel model)) = (Graph.ofModel model).producers event
  producers_ascending : ∀ event, ((Graph.ofModel model).producers event).Pairwise (· < ·)
  mem_producers : ∀ event name, name ∈ (Graph.ofModel model).producers event ↔
    ∃ creator, model.listeners.get? name = some creator ∧ event ∈ creator.outEvents
  -- those of an event that goes out stand for those who hear it, tier by tier
  created_modules : ∀ event,
    (Group.created (Graph.ofModel model) limit event).mentions.flatMap
      (Mention.modules (Graph.ofModel model)) =
      Tier.all.flatMap ((Graph.ofModel model).subscribers event).get
  subscribers_ascending : ∀ event tier,
    (((Graph.ofModel model).subscribers event).get tier).Pairwise (· < ·)
  mem_subscribers : ∀ event tier name,
    name ∈ ((Graph.ofModel model).subscribers event).get tier ↔
      ∃ hearer, model.listeners.get? name = some hearer ∧ hearer.DeclaresFirst tier event

section Table

variable {model : Model} {name : String} {listener : Listener}

theorem exists_faithful (limit : Nat) (h : model.listeners.get? name = some listener) :
    ∃ heard created, (Graph.ofModel model).inEvents name = .ok heard ∧
      (Graph.ofModel model).outEvents name = .ok created ∧
      Faithful model limit listener heard created := by
  have hmem := Graph.mem_listeners_iff.mpr ⟨listener, h⟩
  obtain ⟨heard, hheard, hin⟩ := Graph.inEvents_ofModel hmem
  obtain ⟨created, hcreated, hascending, hout⟩ := Graph.outEvents_ofModel hmem
  refine ⟨heard, created, hheard, hcreated, ?_⟩
  exact
    { heard_ascending := fun tier => (hin tier).1
      mem_heard := fun tier event => by
        rw [(hin tier).2, Graph.subscribes_mem_edges_iff, h]
        simp
      created_ascending := hascending
      mem_created := fun event => by
        rw [hout, Graph.emits_mem_edges_iff, h]
        simp
      heard_modules := Group.heard_modules _ limit
      producers_ascending := fun event => Graph.producers_ofModel.1
      mem_producers := fun event name =>
        (Graph.producers_ofModel.2 name).trans Graph.emits_mem_edges_iff
      created_modules := Group.created_modules _ limit
      subscribers_ascending := fun event tier => Graph.subscribers_ofModel.1
      mem_subscribers := fun event tier name =>
        (Graph.subscribers_ofModel.2 name).trans Graph.subscribes_mem_edges_iff }

-- A table shows all that the model says about its listener, and nothing else.
theorem columns_tabulated (options : Options) (h : model.listeners.get? name = some listener) :
    ∃ heard created sheet, (Graph.ofModel model).inEvents name = .ok heard ∧
      (Graph.ofModel model).outEvents name = .ok created ∧
      Faithful model options.collapseAt listener heard created ∧
      columns (Graph.ofModel model) options name = .ok sheet.columns ∧
      Tabulates (options.project.getD model.project) name
        (groupsIn (Graph.ofModel model) options.collapseAt heard)
        (groupsOut (Graph.ofModel model) options.collapseAt created) sheet := by
  obtain ⟨heard, created, hheard, hcreated, hfaithful⟩ := exists_faithful options.collapseAt h
  exact ⟨heard, created, _, hheard, hcreated, hfaithful, columns_eq options hheard hcreated,
    tabulates_ofGroups ..⟩

end Table

def switch : Listener := { Listener.blank "switch" with outEvents := .ofList ["press_event"] }

-- A switch that two modules hear, at tiers that are not next to each other.
def wired : Model :=
  { project := "p"
    callables := ∅
    listeners := .ofList
      [("fan", { Listener.blank "fan" with
          inEvents := ⟨some ∅, some ∅, some (.ofList ["press_event"])⟩ }),
       ("lamp", { Listener.blank "lamp" with
          inEvents := ⟨some (.ofList ["press_event"]), none, none⟩ }),
       ("switch", switch)] }

theorem columns_tabulated_switch :
    wired.listeners.get? "switch" = some switch ∧
      ∃ heard created sheet, (Graph.ofModel wired).inEvents "switch" = .ok heard ∧
        (Graph.ofModel wired).outEvents "switch" = .ok created ∧
        Faithful wired 3 switch heard created ∧
        columns (Graph.ofModel wired) { collapseAt := 3 } "switch" = .ok sheet.columns ∧
        Tabulates "p" "switch" (groupsIn (Graph.ofModel wired) 3 heard)
          (groupsOut (Graph.ofModel wired) 3 created) sheet :=
  have hswitch : wired.listeners.get? "switch" = some switch := by decide +kernel
  ⟨hswitch, columns_tabulated { collapseAt := 3 } hswitch⟩

example : columns (Graph.ofModel wired) { collapseAt := 3 } "switch" = .ok (Sheet.columns
    { sources := ["", ""]
      inputs := ["", ""]
      self := ["``switch``", ""]
      outputs := ["``press_event``", ""]
      sinks := [":ref:`p_lamp`", ":ref:`p_fan`"] }) := by decide +kernel

end EventFlow.Report
