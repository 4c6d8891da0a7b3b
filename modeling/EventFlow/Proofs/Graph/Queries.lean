import EventFlow.Proofs.Graph.Edges

namespace EventFlow.Graph

variable {model : Model} {name event : String} {tier : Tier}

-- Every query picks the edges with one end and one kind, and lists their other ends. `make`
-- gives the edge back from the end it is listed by.
theorem filterMap_edges {pick : Edge → Option String} {make : String → Edge}
    (hpick : ∀ edge other, pick edge = some other ↔ edge = make other)
    (hbefore : ∀ first second, (make first).Before (make second) → first < second) :
    ((ofModel model).edges.filterMap pick).Pairwise (· < ·) ∧
      ∀ other, other ∈ (ofModel model).edges.filterMap pick ↔
        make other ∈ (ofModel model).edges := by
  constructor
  · refine (edges_pairwise model).filterMap _ fun edge later h first hfirst second hsecond => ?_
    rw [(hpick edge first).mp hfirst, (hpick later second).mp hsecond] at h
    exact hbefore first second h
  · intro other
    simp only [List.mem_filterMap, hpick, exists_eq_right]

theorem producers_ofModel :
    ((ofModel model).producers event).Pairwise (· < ·) ∧
      ∀ name, name ∈ (ofModel model).producers event ↔
        .emits name event ∈ (ofModel model).edges := by
  refine filterMap_edges (fun edge other => ?_) (fun first second h => ?_)
  · cases edge with
    | emits listener created => simp [and_comm]
    | subscribes heard listener servedAt => simp
  · exact h.resolve_right fun h => lt_irrefl _ h.2

theorem subscribers_ofModel :
    (((ofModel model).subscribers event).get tier).Pairwise (· < ·) ∧
      ∀ name, name ∈ ((ofModel model).subscribers event).get tier ↔
        .subscribes event name tier ∈ (ofModel model).edges := by
  rw [subscribers, PerTier.get_ofFn]
  refine filterMap_edges (fun edge other => ?_) (fun first second h => ?_)
  · cases edge with
    | emits listener created => simp
    | subscribes heard listener servedAt => simp [and_left_comm, and_comm]
  · exact (h.resolve_left (lt_irrefl _)).2

theorem mem_listeners_iff :
    name ∈ (ofModel model).listeners ↔ ∃ listener, model.listeners.get? name = some listener :=
  NameMap.mem_keys_iff

theorem known_of_mem (h : name ∈ (ofModel model).listeners) :
    (ofModel model).known name = .ok () := if_pos h

theorem known_of_not_mem (h : name ∉ (ofModel model).listeners) :
    (ofModel model).known name = .error (.unknownListener name) := if_neg h

theorem inEvents_ofModel (h : name ∈ (ofModel model).listeners) :
    ∃ heard, (ofModel model).inEvents name = .ok heard ∧
      ∀ tier, (heard.get tier).Pairwise (· < ·) ∧
        ∀ event, event ∈ heard.get tier ↔
          .subscribes event name tier ∈ (ofModel model).edges := by
  refine ⟨_, by rw [inEvents, known_of_mem h]; rfl, fun tier => ?_⟩
  rw [PerTier.get_ofFn]
  refine filterMap_edges (fun edge other => ?_) (fun first second h => ?_)
  · cases edge with
    | emits listener created => simp
    | subscribes heard listener servedAt => simp [and_comm]
  · exact h.resolve_right fun h => lt_irrefl _ h.2

theorem outEvents_ofModel (h : name ∈ (ofModel model).listeners) :
    ∃ created, (ofModel model).outEvents name = .ok created ∧ created.Pairwise (· < ·) ∧
      ∀ event, event ∈ created ↔ .emits name event ∈ (ofModel model).edges := by
  refine ⟨_, by rw [outEvents, known_of_mem h]; rfl, ?_⟩
  refine filterMap_edges (fun edge other => ?_) (fun first second h => ?_)
  · cases edge with
    | emits listener created => simp
    | subscribes heard listener servedAt => simp
  · exact (h.resolve_left (lt_irrefl _)).2

-- What the queries of a graph answer when the graph shows a model.
structure Shows (graph : Graph) (model : Model) : Prop where
  listeners_eq : graph.listeners.toList = model.listeners.keys
  nodes_ascending : graph.listeners.toList.Pairwise (· < ·) ∧
    graph.events.toList.Pairwise (· < ·)
  mem_events : ∀ event, event ∈ graph.events ↔
    ∃ name listener, model.listeners.get? name = some listener ∧
      ((∃ tier, listener.Declares tier event) ∨ event ∈ listener.outEvents)
  -- a listener hears an event at the earliest tier it is declared for, and is heard of there
  inEvents_eq : ∀ name listener, model.listeners.get? name = some listener →
    ∃ heard, graph.inEvents name = .ok heard ∧ ∀ tier,
      (heard.get tier).Pairwise (· < ·) ∧
      ∀ event, (event ∈ heard.get tier ↔ listener.DeclaresFirst tier event) ∧
        (event ∈ heard.get tier ↔ name ∈ (graph.subscribers event).get tier)
  outEvents_eq : ∀ name listener, model.listeners.get? name = some listener →
    ∃ created, graph.outEvents name = .ok created ∧ created.Pairwise (· < ·) ∧
      ∀ event, (event ∈ created ↔ event ∈ listener.outEvents) ∧
        (event ∈ created ↔ name ∈ graph.producers event)
  -- only names without a record are refused
  inEvents_refused : ∀ name, model.listeners.get? name = none ↔
    graph.inEvents name = .error (.unknownListener name)
  outEvents_refused : ∀ name, model.listeners.get? name = none ↔
    graph.outEvents name = .error (.unknownListener name)
  -- the queries about an event name listeners of the model only, each of them once
  subscribers_known : ∀ event tier name, name ∈ (graph.subscribers event).get tier →
    ∃ listener, model.listeners.get? name = some listener
  producers_known : ∀ event name, name ∈ graph.producers event →
    ∃ listener, model.listeners.get? name = some listener
  subscribers_ascending : ∀ event tier,
    ((graph.subscribers event).get tier).Pairwise (· < ·)
  producers_ascending : ∀ event, (graph.producers event).Pairwise (· < ·)
  one_tier : ∀ event name tier other, name ∈ (graph.subscribers event).get tier →
    name ∈ (graph.subscribers event).get other → tier = other
  unheard : ∀ event, event ∉ graph.events →
    graph.producers event = [] ∧ ∀ tier, (graph.subscribers event).get tier = []

theorem nodes_of_emits (h : .emits name event ∈ (ofModel model).edges) :
    (∃ listener, model.listeners.get? name = some listener) ∧ event ∈ (ofModel model).events := by
  obtain ⟨listener, hget, hevent⟩ := emits_mem_edges_iff.mp h
  exact ⟨⟨listener, hget⟩, Model.mem_events_iff.mpr ⟨name, listener, hget, .inr hevent⟩⟩

theorem nodes_of_subscribes (h : .subscribes event name tier ∈ (ofModel model).edges) :
    (∃ listener, model.listeners.get? name = some listener) ∧ event ∈ (ofModel model).events := by
  obtain ⟨listener, hget, hfirst⟩ := subscribes_mem_edges_iff.mp h
  exact ⟨⟨listener, hget⟩,
    Model.mem_events_iff.mpr ⟨name, listener, hget, .inl ⟨tier, hfirst.1⟩⟩⟩

theorem get?_eq_none_iff :
    model.listeners.get? name = none ↔ name ∉ (ofModel model).listeners := by
  rw [mem_listeners_iff, Option.eq_none_iff_forall_ne_some, not_exists]

theorem inEvents_eq_error_iff :
    (ofModel model).inEvents name = .error (.unknownListener name) ↔
      name ∉ (ofModel model).listeners := by
  constructor
  · intro herror hmem
    obtain ⟨heard, hok, _⟩ := inEvents_ofModel hmem
    rw [hok] at herror
    cases herror
  · intro h
    rw [inEvents, known_of_not_mem h]
    rfl

theorem outEvents_eq_error_iff :
    (ofModel model).outEvents name = .error (.unknownListener name) ↔
      name ∉ (ofModel model).listeners := by
  constructor
  · intro herror hmem
    obtain ⟨created, hok, _⟩ := outEvents_ofModel hmem
    rw [hok] at herror
    cases herror
  · intro h
    rw [outEvents, known_of_not_mem h]
    rfl

theorem shows_ofModel (model : Model) : (ofModel model).Shows model where
  listeners_eq := rfl
  nodes_ascending := ⟨model.listeners.keys_ascending, model.events.ascending⟩
  mem_events _ := Model.mem_events_iff
  inEvents_eq name listener hget := by
    obtain ⟨heard, hok, h⟩ := inEvents_ofModel (mem_listeners_iff.mpr ⟨listener, hget⟩)
    refine ⟨heard, hok, fun tier => ⟨(h tier).1, fun event => ?_⟩⟩
    rw [(h tier).2, subscribers_ofModel.2]
    refine ⟨?_, Iff.rfl⟩
    rw [subscribes_mem_edges_iff]
    constructor
    · rintro ⟨other, hother, hfirst⟩
      obtain rfl := Option.some.inj (hget.symm.trans hother)
      exact hfirst
    · intro hfirst
      exact ⟨listener, hget, hfirst⟩
  outEvents_eq name listener hget := by
    obtain ⟨created, hok, hascending, h⟩ :=
      outEvents_ofModel (mem_listeners_iff.mpr ⟨listener, hget⟩)
    refine ⟨created, hok, hascending, fun event => ?_⟩
    rw [h, producers_ofModel.2]
    refine ⟨?_, Iff.rfl⟩
    rw [emits_mem_edges_iff]
    constructor
    · rintro ⟨other, hother, hevent⟩
      obtain rfl := Option.some.inj (hget.symm.trans hother)
      exact hevent
    · intro hevent
      exact ⟨listener, hget, hevent⟩
  inEvents_refused _ := by rw [get?_eq_none_iff, inEvents_eq_error_iff]
  outEvents_refused _ := by rw [get?_eq_none_iff, outEvents_eq_error_iff]
  subscribers_known _ _ _ h := (nodes_of_subscribes (subscribers_ofModel.2 _ |>.mp h)).1
  producers_known _ _ h := (nodes_of_emits (producers_ofModel.2 _ |>.mp h)).1
  subscribers_ascending _ _ := subscribers_ofModel.1
  producers_ascending _ := producers_ofModel.1
  one_tier _ _ _ _ h h' :=
    tier_unique (subscribers_ofModel.2 _ |>.mp h) (subscribers_ofModel.2 _ |>.mp h')
  unheard event hevent := by
    constructor
    · refine List.eq_nil_iff_forall_not_mem.mpr fun name hname => ?_
      exact hevent (nodes_of_emits (producers_ofModel.2 name |>.mp hname)).2
    · intro tier
      refine List.eq_nil_iff_forall_not_mem.mpr fun name hname => ?_
      exact hevent (nodes_of_subscribes (subscribers_ofModel.2 name |>.mp hname)).2

end EventFlow.Graph
