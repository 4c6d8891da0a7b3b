import EventFlow.Proofs.Report.Columns
import EventFlow.Report.Index

namespace EventFlow.Report

-- Each line with its end.
def unlines (lines : List String) : List Char := lines.flatMap fun line => line.toList ++ ['\n']

-- What stands under the label of a list of modules: its title, underlined, and its items.
def listBody (project title : String) (modules : List String) : List String :=
  ["", title, String.ofList (List.replicate title.length '='), ""] ++
    modules.map fun name => s!"* :ref:`{project}_{name}`"

-- The text has such a list below the line `above`, which starts at the start of a line. What comes
-- after the last item is an empty line or the end of the text, so the list has no other members.
def Lists (text project above title : String) (modules : List String) : Prop :=
  ∃ before after,
    text.toList = before ++ unlines (above :: listBody project title modules) ++ after ∧
    before.getLast? = some '\n' ∧ (after = [] ∨ after.head? = some '\n')

section Lines

variable (project label title event : String) (modules : List String)

theorem anchor_sourcesOf :
    anchor project (sourcesOf event) = s!".. _{project}_{event}_sources:" := by
  simp [anchor, sourcesOf, toString, ← String.toList_inj]

theorem anchor_sinksOf : anchor project (sinksOf event) = s!".. _{project}_{event}_sinks:" := by
  simp [anchor, sinksOf, toString, ← String.toList_inj]

theorem toList_moduleList : (moduleList project label title modules).toList =
    unlines (anchor project label :: listBody project title modules) := by
  simp [moduleList, unlines, listBody, reference, underline, toString, List.flatMap_map]

theorem toList_indexSection (graph : Graph) : (indexSection graph project event).toList =
    unlines (s!".. _{project}_{event}_sources:" ::
        listBody project s!"Source modules for {event}" (graph.producers event)) ++
      '\n' :: unlines (s!".. _{project}_{event}_sinks:" ::
        listBody project s!"Sink modules for {event}" (graph.audience event)) ++ ['\n', '\n'] := by
  rw [← anchor_sourcesOf, ← anchor_sinksOf, ← toList_moduleList, ← toList_moduleList]
  simp [indexSection, toString]

end Lines

section Document

variable {parts : List String}

-- What every part of a document ends in.
def EndsBlank (part : String) : Prop := ∃ body, part.toList = body ++ ['\n', '\n']

theorem EndsBlank.append {part : String} (h : EndsBlank part) (front : String) :
    EndsBlank (front ++ part) := by
  obtain ⟨body, hbody⟩ := h
  exact ⟨front.toList ++ body, by rw [String.toList_append, hbody, List.append_assoc]⟩

theorem endsBlank_introduction : EndsBlank introduction := by
  have hlast : EndsBlank
      "These were gathered on a single page to simplify the event propagation tables.\n\n" :=
    ⟨"These were gathered on a single page to simplify the event propagation tables.".toList,
      by simp⟩
  exact hlast.append _

theorem getLast?_flatMap_toList (hne : parts ≠ []) (h : ∀ part ∈ parts, EndsBlank part) :
    (parts.flatMap String.toList).getLast? = some '\n' := by
  obtain ⟨init, last, rfl⟩ : ∃ init last, parts = init ++ [last] :=
    ⟨_, _, (List.dropLast_append_getLast hne).symm⟩
  obtain ⟨body, hbody⟩ := h last (by simp)
  simp [hbody]

-- A part of a document stands there up to its blank line, which is followed by nothing or by a
-- line end.
theorem toList_document (before after : List String) {part : String} {body : List Char}
    (h : part.toList = body ++ ['\n', '\n']) :
    ∃ rest, (document (before ++ part :: after)).toList =
        before.flatMap String.toList ++ body ++ rest ∧ (rest = [] ∨ rest.head? = some '\n') := by
  have hdrop : ∀ tail : List Char, (before.flatMap String.toList ++ body ++
      '\n' :: '\n' :: tail).dropLast.dropLast =
      before.flatMap String.toList ++ body ++ ('\n' :: '\n' :: tail).dropLast.dropLast := by
    intro tail
    rw [List.dropLast_append_of_ne_nil (List.cons_ne_nil _ _), List.dropLast_cons_cons,
      List.dropLast_append_of_ne_nil (List.cons_ne_nil _ _)]
  refine ⟨('\n' :: '\n' :: after.flatMap String.toList).dropLast.dropLast, ?_, ?_⟩
  · rw [document, String.toList_ofList, List.flatMap_append, List.flatMap_cons, h, ← hdrop]
    simp
  · cases after.flatMap String.toList with
    | nil => exact .inl rfl
    | cons c rest =>
      cases rest with
      | nil => exact .inr rfl
      | cons d rest => exact .inr rfl

end Document

theorem exists_front (graph : Graph) (options : Options) :
    ∃ front, EndsBlank front ∧ indexDocument graph options =
      document (front :: (graph.events.toList.filter (isIndexed graph options)).map
        (indexSection graph (options.label graph))) :=
  ⟨_, endsBlank_introduction.append _, rfl⟩

variable {graph : Graph} {options : Options} {event : String}

-- An event of the index has both its lists there.
theorem lists_of_isIndexed (hevent : event ∈ graph.events) (h : isIndexed graph options event) :
    Lists (indexDocument graph options) (options.label graph)
        s!".. _{options.label graph}_{event}_sources:" s!"Source modules for {event}"
        (graph.producers event) ∧
      Lists (indexDocument graph options) (options.label graph)
        s!".. _{options.label graph}_{event}_sinks:" s!"Sink modules for {event}"
        (graph.audience event) := by
  obtain ⟨front, hfront, hdocument⟩ := exists_front graph options
  obtain ⟨earlier, later, hsplit⟩ := List.append_of_mem (List.mem_filter.mpr ⟨hevent, h⟩)
  obtain ⟨rest, htext, hrest⟩ := toList_document
    (front :: earlier.map (indexSection graph (options.label graph)))
    (later.map (indexSection graph (options.label graph)))
    (toList_indexSection (options.label graph) event graph)
  have hbefore : ((front :: earlier.map (indexSection graph (options.label graph))).flatMap
      String.toList).getLast? = some '\n' := by
    refine getLast?_flatMap_toList (List.cons_ne_nil _ _) ?_
    rw [List.forall_mem_cons]
    refine ⟨hfront, fun part hpart => ?_⟩
    obtain ⟨other, _, rfl⟩ := List.mem_map.mp hpart
    exact ⟨_, toList_indexSection ..⟩
  rw [List.cons_append, ← List.map_cons, ← List.map_append, ← hsplit, ← hdocument] at htext
  generalize (front :: earlier.map (indexSection graph (options.label graph))).flatMap
    String.toList = before at htext hbefore
  constructor
  · refine ⟨before, '\n' :: (unlines (s!".. _{options.label graph}_{event}_sinks:" ::
      listBody (options.label graph) s!"Sink modules for {event}" (graph.audience event)) ++ rest),
      ?_, hbefore, .inr rfl⟩
    rw [htext]
    simp only [List.append_assoc, List.cons_append]
  · refine ⟨before ++ unlines (s!".. _{options.label graph}_{event}_sources:" ::
      listBody (options.label graph) s!"Source modules for {event}" (graph.producers event)) ++
      ['\n'], rest, ?_, by simp, hrest⟩
    rw [htext]
    simp only [List.append_assoc, List.cons_append, List.nil_append]

-- An event that is collapsed in a table is in the index, if this asks for no more modules.
theorem isIndexed_of_collapsed
    (hleast : ∀ least, options.indexFrom = some least → least ≤ options.collapseAt)
    (h : options.collapseAt ≤ (graph.producers event).length ∨
      options.collapseAt ≤ (graph.audience event).length) : isIndexed graph options event := by
  unfold isIndexed
  cases hfrom : options.indexFrom with
  | none => rfl
  | some least =>
    have hle := hleast least hfrom
    simp only [Bool.or_eq_true, decide_eq_true_eq]
    omega

theorem exists_heard_of_mem_mentions {limit : Nat} {events : PerTier (List String)}
    (h : .sources event ∈ mentions (groupsIn graph limit events)) :
    (∃ tier, event ∈ events.get tier) ∧ limit ≤ (graph.producers event).length := by
  obtain ⟨group, hgroup, hmention⟩ := List.mem_flatMap.mp h
  obtain ⟨heard, hheard, rfl⟩ := List.mem_map.mp hgroup
  obtain ⟨list, hlist, hevent⟩ := List.mem_flatten.mp hheard
  obtain ⟨tier, _, rfl⟩ := List.mem_map.mp hlist
  obtain ⟨heq, hlimit⟩ | ⟨name, heq⟩ := Mention.mem_collapse hmention
  · cases heq
    exact ⟨⟨tier, hevent⟩, hlimit⟩
  · cases heq

theorem mem_created_of_mem_mentions {limit : Nat} {events : List String}
    (h : .sinks event ∈ mentions (groupsOut graph limit events)) :
    event ∈ events ∧ limit ≤ (graph.audience event).length := by
  obtain ⟨group, hgroup, hmention⟩ := List.mem_flatMap.mp h
  obtain ⟨created, hcreated, rfl⟩ := List.mem_map.mp hgroup
  simp only [Group.created] at hmention
  split_ifs at hmention
  · cases List.mem_singleton.mp hmention
  · obtain ⟨heq, hlimit⟩ | ⟨name, heq⟩ := Mention.mem_collapse hmention
    · cases heq
      exact ⟨hcreated, hlimit⟩
    · cases heq

-- How a text, the index, resolves the collapsed cells of a table: the label that such a cell
-- names is set there, and below it are listed those for whom the cell stands.
structure Resolves (graph : Graph) (project : String) (into out : List Group) (sheet : Sheet)
    (text : String) : Prop where
  sources : ∀ (row : Nat) (event : String), (mentions into)[row]? = some (.sources event) →
    sheet.sources[row]? = some s!":ref:`{project}_{event}_sources`" ∧
      Lists text project s!".. _{project}_{event}_sources:" s!"Source modules for {event}"
        (graph.producers event)
  sinks : ∀ (row : Nat) (event : String), (mentions out)[row]? = some (.sinks event) →
    sheet.sinks[height into + row]? = some s!":ref:`{project}_{event}_sinks`" ∧
      Lists text project s!".. _{project}_{event}_sinks:" s!"Sink modules for {event}"
        (Tier.all.flatMap (graph.subscribers event).get)

-- Every collapsed cell of a table has its list in the index of the same model.
theorem collapsed_listed {model : Model} {name : String} {record : Listener} (options : Options)
    (hleast : ∀ least, options.indexFrom = some least → least ≤ options.collapseAt)
    (h : model.listeners.get? name = some record) :
    ∃ heard created sheet, (Graph.ofModel model).inEvents name = .ok heard ∧
      (Graph.ofModel model).outEvents name = .ok created ∧
      Faithful model options.collapseAt record heard created ∧
      columns (Graph.ofModel model) options name = .ok sheet.columns ∧
      Tabulates (options.project.getD model.project) name
        (groupsIn (Graph.ofModel model) options.collapseAt heard)
        (groupsOut (Graph.ofModel model) options.collapseAt created) sheet ∧
      Resolves (Graph.ofModel model) (options.project.getD model.project)
        (groupsIn (Graph.ofModel model) options.collapseAt heard)
        (groupsOut (Graph.ofModel model) options.collapseAt created) sheet
        (indexDocument (Graph.ofModel model) options) := by
  obtain ⟨heard, created, hheard, hcreated, hfaithful⟩ := exists_faithful options.collapseAt h
  have htabulates := tabulates_ofGroups (options.project.getD model.project) name
    (groupsIn (Graph.ofModel model) options.collapseAt heard)
    (groupsOut (Graph.ofModel model) options.collapseAt created)
  refine ⟨heard, created, _, hheard, hcreated, hfaithful, columns_eq options hheard hcreated,
    htabulates, fun row event hrow => ⟨htabulates.source_eq row _ hrow, ?_⟩,
    fun row event hrow => ⟨htabulates.sink_eq row _ hrow, ?_⟩⟩
  · obtain ⟨⟨tier, hevent⟩, hlimit⟩ := exists_heard_of_mem_mentions (List.mem_of_getElem? hrow)
    have hknown : event ∈ (Graph.ofModel model).events := by
      refine Model.mem_events_iff.mpr ⟨name, record, h, .inl ⟨tier, ?_⟩⟩
      exact ((hfaithful.mem_heard tier event).mp hevent).1
    exact (lists_of_isIndexed hknown (isIndexed_of_collapsed hleast (.inl hlimit))).1
  · obtain ⟨hevent, hlimit⟩ := mem_created_of_mem_mentions (List.mem_of_getElem? hrow)
    have hknown : event ∈ (Graph.ofModel model).events :=
      Model.mem_events_iff.mpr ⟨name, record, h, .inr ((hfaithful.mem_created event).mp hevent)⟩
    exact (lists_of_isIndexed hknown (isIndexed_of_collapsed hleast (.inr hlimit))).2

theorem collapsed_listed_switch :
    (∀ least, some 2 = some least → least ≤ 2) ∧ wired.listeners.get? "switch" = some switch ∧
      ∃ sheet : Sheet,
        columns (Graph.ofModel wired) { collapseAt := 2, indexFrom := some 2 } "switch" =
          .ok sheet.columns ∧
        sheet.sinks[0]? = some ":ref:`p_press_event_sinks`" ∧
        Lists (indexDocument (Graph.ofModel wired) { collapseAt := 2, indexFrom := some 2 }) "p"
          ".. _p_press_event_sinks:" "Sink modules for press_event" ["lamp", "fan"] := by
  have hleast : ∀ least, some 2 = some least → least ≤ 2 := by
    rintro least ⟨⟩
    exact Nat.le_refl 2
  have hswitch : wired.listeners.get? "switch" = some switch := by decide +kernel
  obtain ⟨heard, created, sheet, hheard, hcreated, _, hcolumns, _, hresolves⟩ :=
    collapsed_listed { collapseAt := 2, indexFrom := some 2 } hleast hswitch
  have hpress : (Graph.ofModel wired).outEvents "switch" = .ok ["press_event"] := by decide +kernel
  obtain rfl : ["press_event"] = created := Except.ok.inj (hpress.symm.trans hcreated)
  have hnothing : (Graph.ofModel wired).inEvents "switch" = .ok ⟨[], [], []⟩ := by decide +kernel
  obtain rfl : ⟨[], [], []⟩ = heard := Except.ok.inj (hnothing.symm.trans hheard)
  obtain ⟨hcell, hlist⟩ := hresolves.sinks 0 "press_event" (by decide +kernel)
  have haudience : Tier.all.flatMap ((Graph.ofModel wired).subscribers "press_event").get =
      ["lamp", "fan"] := by decide +kernel
  rw [haudience] at hlist
  exact ⟨hleast, hswitch, sheet, hcolumns, hcell, hlist⟩

end EventFlow.Report
