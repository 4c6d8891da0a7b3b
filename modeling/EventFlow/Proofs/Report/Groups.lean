import EventFlow.Report.Propagation
import Mathlib.Data.List.Basic

namespace EventFlow.Report

-- What a cell of an outer column stands for: one listener, the whole list of an event's
-- producers or of its subscribers, or the lack of a subscriber.
inductive Mention where
  | listener (name : String)
  | sources (event : String)
  | sinks (event : String)
  | nobody
  deriving DecidableEq

namespace Mention

variable {graph : Graph} {limit : Nat} {whole mention : Mention} {names : List String}
  {project : String}

-- The cell as it is written.
def text (project : String) : Mention → String
  | listener name => s!":ref:`{project}_{name}`"
  | sources event => s!":ref:`{project}_{event}_sources`"
  | sinks event => s!":ref:`{project}_{event}_sinks`"
  | nobody => "None"

theorem text_sources (project event : String) :
    (sources event).text project = reference project (sourcesOf event) := by
  simp [text, reference, sourcesOf, toString, ← String.toList_inj]

theorem text_sinks (project event : String) :
    (sinks event).text project = reference project (sinksOf event) := by
  simp [text, reference, sinksOf, toString, ← String.toList_inj]

-- All cells but the one for nobody are references.
theorem exists_reference (project : String) (h : mention ≠ nobody) :
    ∃ item, mention.text project = reference project item := by
  cases mention with
  | listener name => exact ⟨name, rfl⟩
  | sources event => exact ⟨_, text_sources project event⟩
  | sinks event => exact ⟨_, text_sinks project event⟩
  | nobody => exact absurd rfl h

-- The listeners that a reader finds behind the cell.
def modules (graph : Graph) : Mention → List String
  | listener name => [name]
  | sources event => graph.producers event
  | sinks event => graph.audience event
  | nobody => []

-- The listeners one by one, or the mention of their whole list where they are too many.
def collapse (limit : Nat) (whole : Mention) (names : List String) : List Mention :=
  if names ≠ [] ∧ limit ≤ names.length then [whole] else names.map listener

theorem mem_collapse (h : mention ∈ collapse limit whole names) :
    mention = whole ∧ limit ≤ names.length ∨ ∃ name, mention = listener name := by
  unfold collapse at h
  split_ifs at h with hmany
  · exact .inl ⟨List.mem_singleton.mp h, hmany.2⟩
  · obtain ⟨name, _, rfl⟩ := List.mem_map.mp h
    exact .inr ⟨name, rfl⟩

theorem forall_mem_collapse {P : Mention → Prop} (hwhole : P whole)
    (hnames : ∀ name ∈ names, P (listener name)) : ∀ mention ∈ collapse limit whole names,
      P mention := by
  unfold collapse
  split_ifs
  · exact List.forall_mem_singleton.mpr hwhole
  · exact List.forall_mem_map.mpr hnames

theorem flatMap_modules_collapse (h : whole.modules graph = names) :
    (collapse limit whole names).flatMap (modules graph) = names := by
  unfold collapse
  split_ifs with hmany
  · exact (List.flatMap_singleton _ _).trans h
  · rw [List.flatMap_map]
    exact List.flatMap_singleton' names

theorem map_text_collapse {label : String} (h : whole.text project = reference project label) :
    (collapse limit whole names).map (text project) =
      (if names ≠ [] ∧ limit ≤ names.length then [label] else names).map (reference project) := by
  unfold collapse
  split_ifs with hmany
  · exact congrArg List.singleton h
  · rw [List.map_map]
    rfl

end Mention

-- The rows that one event takes on a side of a table.
structure Group where
  event : String
  mentions : List Mention
  deriving DecidableEq

namespace Group

variable (graph : Graph) (limit : Nat) (event : String)

-- The rows of an event that comes in, for its producers.
def heard : Group := ⟨event, Mention.collapse limit (.sources event) (graph.producers event)⟩

-- The rows of an event that goes out, for its subscribers in the order in which they hear it.
def created : Group :=
  ⟨event,
    if graph.audience event = [] then [.nobody]
    else Mention.collapse limit (.sinks event) (graph.audience event)⟩

theorem heard_modules :
    (heard graph limit event).mentions.flatMap (Mention.modules graph) = graph.producers event :=
  Mention.flatMap_modules_collapse rfl

theorem created_modules :
    (created graph limit event).mentions.flatMap (Mention.modules graph) =
      graph.audience event := by
  unfold created
  split_ifs with hnone
  · exact hnone.symm
  · exact Mention.flatMap_modules_collapse rfl

variable (project : String)

theorem collapseSources_text :
    (collapseSources event limit (graph.producers event)).map (reference project) =
      (heard graph limit event).mentions.map (Mention.text project) :=
  (Mention.map_text_collapse (Mention.text_sources project event)).symm

theorem flatten_collapseSinks :
    ((collapseSinks event limit ((graph.subscribers event).map some)).toList.map
        (fun list => list.getD [])).flatten =
      if graph.audience event ≠ [] ∧ limit ≤ (graph.audience event).length then [sinksOf event]
      else graph.audience event := by
  have hlists : ((graph.subscribers event).map some).toList.map (fun list => list.getD []) =
      (graph.subscribers event).toList := rfl
  have htotal : ((graph.subscribers event).map some).toList.flatMap (fun list => list.getD []) =
      graph.audience event := by
    rw [List.flatMap_def, hlists, Graph.audience]
  simp only [collapseSinks, htotal, List.length_pos_iff]
  split_ifs with hmany
  · rfl
  · rw [hlists, Graph.audience]

theorem collapseSinks_text {subscribers : List String}
    (h : subscribers = ((collapseSinks event limit ((graph.subscribers event).map some)).toList.map
      (fun list => list.getD [])).flatten) :
    (if subscribers = [] then [noSink] else subscribers.map (reference project)) =
      (created graph limit event).mentions.map (Mention.text project) := by
  rw [flatten_collapseSinks] at h
  unfold created
  by_cases hnone : graph.audience event = []
  · have hnothing : subscribers = [] := by
      rw [h, if_neg fun hmany => hmany.1 hnone, hnone]
    rw [if_pos hnone, if_pos hnothing]
    rfl
  · have hsome : subscribers ≠ [] := by
      rw [h]
      split_ifs
      · exact List.cons_ne_nil _ _
      · exact hnone
    rw [if_neg hnone, if_neg hsome, h]
    exact (Mention.map_text_collapse (Mention.text_sinks project event)).symm

end Group

-- The mentions of groups that stand below one another.
def mentions (groups : List Group) : List Mention := groups.flatMap Group.mentions

@[simp] theorem mentions_append (before after : List Group) :
    mentions (before ++ after) = mentions before ++ mentions after := List.flatMap_append

@[simp] theorem mentions_cons (group : Group) (groups : List Group) :
    mentions (group :: groups) = group.mentions ++ mentions groups := List.flatMap_cons

-- How many rows the groups take.
def height (groups : List Group) : Nat := (mentions groups).length

@[simp] theorem length_mentions (groups : List Group) : (mentions groups).length = height groups :=
  rfl

@[simp] theorem height_nil : height [] = 0 := rfl

@[simp] theorem height_append (before after : List Group) :
    height (before ++ after) = height before + height after := by
  rw [height, mentions_append, List.length_append, length_mentions, length_mentions]

@[simp] theorem height_cons (group : Group) (groups : List Group) :
    height (group :: groups) = group.mentions.length + height groups := by
  rw [height, mentions_cons, List.length_append, length_mentions]

-- The rows from `first` on are those of the group.
def Spans (groups : List Group) (first : Nat) (group : Group) : Prop :=
  ∃ before after, groups = before ++ group :: after ∧ height before = first ∧
    group.mentions ≠ []

def StartsAt (groups : List Group) (row : Nat) : Prop := ∃ group, Spans groups row group

variable {groups : List Group} {group other : Group} {first later row offset : Nat}

theorem Spans.append_left (h : Spans groups first group) (front : List Group) :
    Spans (front ++ groups) (height front + first) group := by
  obtain ⟨before, after, rfl, rfl, hne⟩ := h
  exact ⟨front ++ before, after, (List.append_assoc ..).symm, height_append .., hne⟩

theorem Spans.cons (h : Spans groups first group) (other : Group) :
    Spans (other :: groups) (other.mentions.length + first) group := by
  have hspans := h.append_left [other]
  rwa [height_cons, height_nil, Nat.add_zero] at hspans

-- Every row is a row of some group.
theorem exists_spans (h : row < height groups) :
    ∃ first group offset, Spans groups first group ∧ offset < group.mentions.length ∧
      row = first + offset := by
  induction groups generalizing row with
  | nil => cases h
  | cons group groups ih =>
    rw [height_cons] at h
    by_cases hrow : row < group.mentions.length
    · exact ⟨0, group, row, ⟨[], groups, rfl, rfl, List.ne_nil_of_length_pos (by omega)⟩, hrow,
        (Nat.zero_add row).symm⟩
    · obtain ⟨first, other, offset, hspans, hoffset, heq⟩ :=
        ih (show row - group.mentions.length < height groups by omega)
      exact ⟨_, other, offset, hspans.cons group, hoffset, by omega⟩

theorem Spans.length_pos (h : Spans groups first group) : 0 < group.mentions.length := by
  obtain ⟨_, _, _, _, hne⟩ := h
  exact List.length_pos_of_ne_nil hne

theorem Spans.end_le (h : Spans groups first group) :
    first + group.mentions.length ≤ height groups := by
  obtain ⟨before, after, rfl, rfl, _⟩ := h
  rw [height_append, height_cons]
  omega

-- Of two groups one stands above the other.
theorem Spans.apart (h : Spans groups first group) (hother : Spans groups later other) :
    (first = later ∧ group = other) ∨ first + group.mentions.length ≤ later ∨
      later + other.mentions.length ≤ first := by
  obtain ⟨before, after, rfl, rfl, _⟩ := h
  obtain ⟨before', after', heq, rfl, _⟩ := hother
  obtain ⟨between, rfl, hrest⟩ | ⟨between, rfl, hrest⟩ := List.append_eq_append_iff.mp heq
  · cases between with
    | nil =>
      cases hrest
      exact .inl ⟨by rw [List.append_nil], rfl⟩
    | cons head between =>
      cases hrest
      refine .inr (.inl ?_)
      rw [height_append, height_cons]
      omega
  · cases between with
    | nil =>
      cases hrest
      exact .inl ⟨by rw [List.append_nil], rfl⟩
    | cons head between =>
      cases hrest
      refine .inr (.inr ?_)
      rw [height_append, height_cons]
      omega

theorem StartsAt.lt (h : StartsAt groups row) : row < height groups := by
  obtain ⟨group, hspans⟩ := h
  have hpos := hspans.length_pos
  have hend := hspans.end_le
  omega

-- No group starts between the rows of another.
theorem Spans.not_startsAt (h : Spans groups first group) (hpos : 0 < offset)
    (hoffset : offset < group.mentions.length) : ¬ StartsAt groups (first + offset) := by
  rintro ⟨other, hother⟩
  have hpos' := hother.length_pos
  obtain ⟨heq, _⟩ | hle | hle := h.apart hother
  · omega
  · omega
  · omega

theorem startsAt_zero (h : 0 < height groups) : StartsAt groups 0 := by
  obtain ⟨first, group, offset, hspans, _, heq⟩ := exists_spans h
  obtain rfl : first = 0 := by omega
  exact ⟨group, hspans⟩

-- Where the rows of a group end and there are more, those of the next one start.
theorem Spans.startsAt_end (h : Spans groups first group)
    (hmore : first + group.mentions.length < height groups) :
    StartsAt groups (first + group.mentions.length) := by
  obtain ⟨before, after, rfl, rfl, _⟩ := h
  rw [height_append, height_cons] at hmore
  have hstart : StartsAt after 0 := startsAt_zero (by omega)
  obtain ⟨next, hnext⟩ := hstart
  exact ⟨next, (hnext.cons group).append_left before⟩

-- The labels beside the mentions: each event stands in the first row of its group.
def labels (groups : List Group) : List String :=
  groups.flatMap fun group =>
    (literal group.event :: group.mentions.map (fun _ => "")).take group.mentions.length

theorem labels_cons (group : Group) (groups : List Group) :
    labels (group :: groups) =
      (literal group.event :: group.mentions.map (fun _ => "")).take group.mentions.length ++
        labels groups := List.flatMap_cons

theorem length_labels (groups : List Group) : (labels groups).length = height groups := by
  induction groups with
  | nil => rfl
  | cons group groups ih =>
    rw [labels_cons, List.length_append, height_cons, ih]
    simp

theorem getElem?_labels (h : Spans groups first group) (hoffset : offset < group.mentions.length) :
    (labels groups)[first + offset]? = some (if offset = 0 then literal group.event else "") := by
  obtain ⟨before, after, rfl, rfl, _⟩ := h
  rw [labels, List.flatMap_append, ← labels, ← labels, labels_cons, ← length_labels,
    List.getElem?_append_right (Nat.le_add_right ..), Nat.add_sub_cancel_left,
    List.getElem?_append_left (by simpa using hoffset), List.getElem?_take_of_lt hoffset]
  cases offset with
  | zero => rfl
  | succ offset =>
    have hlt : offset < group.mentions.length := by omega
    simp [hlt]

theorem getElem?_labels_of_spans (h : Spans groups row group) :
    (labels groups)[row]? = some (literal group.event) := getElem?_labels h h.length_pos

theorem getElem?_labels_of_not_startsAt (h : ¬ StartsAt groups row)
    (hrow : row < height groups) : (labels groups)[row]? = some "" := by
  obtain ⟨first, group, offset, hspans, hoffset, rfl⟩ := exists_spans hrow
  have hpos : offset ≠ 0 := by
    rintro rfl
    exact h ⟨group, hspans⟩
  rw [getElem?_labels hspans hoffset, if_neg hpos]

theorem join_ofGroup (project : String) (groups : List Group) :
    Rows.join (groups.map fun group =>
        Rows.ofGroup group.event (group.mentions.map (Mention.text project))) =
      ⟨(mentions groups).map (Mention.text project), labels groups⟩ := by
  induction groups with
  | nil => rfl
  | cons group groups ih =>
    rw [List.map_cons, Rows.join, List.foldr_cons, ← Rows.join, ih, mentions_cons, List.map_append,
      labels_cons, Rows.append, Rows.ofGroup, List.map_map, List.length_map]
    rfl

-- The groups on both sides of a listener's table.
def groupsIn (graph : Graph) (limit : Nat) (events : PerTier (List String)) : List Group :=
  events.toList.flatten.map (Group.heard graph limit)

def groupsOut (graph : Graph) (limit : Nat) (events : List String) : List Group :=
  events.map (Group.created graph limit)

theorem inbound_eq (graph : Graph) (options : Options) (events : PerTier (List String)) :
    inbound graph options events =
      ⟨(mentions (groupsIn graph options.collapseAt events)).map
          (Mention.text (options.label graph)),
        labels (groupsIn graph options.collapseAt events)⟩ := by
  rw [← join_ofGroup, inbound, groupsIn, List.map_map]
  congr 2
  funext event
  rw [Group.collapseSources_text]
  rfl

theorem outbound_eq (graph : Graph) (options : Options) (events : List String) :
    outbound graph options events =
      ⟨(mentions (groupsOut graph options.collapseAt events)).map
          (Mention.text (options.label graph)),
        labels (groupsOut graph options.collapseAt events)⟩ := by
  rw [← join_ofGroup, outbound, groupsOut, List.map_map]
  congr 2
  funext event
  simp only [Group.collapseSinks_text graph options.collapseAt event (options.label graph) rfl]
  rfl

end EventFlow.Report
