import EventFlow.Graph.Basic
import EventFlow.Proofs.Listener

namespace EventFlow.Graph

-- The order in which the edges of a graph are kept.
def Edge.Before : Edge → Edge → Prop
  | .emits listener event, .emits listener' event' =>
    listener < listener' ∨ listener = listener' ∧ event < event'
  | .emits .., .subscribes .. => True
  | .subscribes .., .emits .. => False
  | .subscribes event listener _, .subscribes event' listener' _ =>
    event < event' ∨ event = event' ∧ listener < listener'

theorem mem_emissions_iff {model : Model} {edge : Edge} :
    edge ∈ emissions model ↔ ∃ name listener event, model.listeners.get? name = some listener ∧
      event ∈ listener.outEvents ∧ edge = .emits name event := by
  simp only [emissions, List.mem_flatMap, List.mem_map, Prod.exists, NameMap.mem_entries_iff,
    NameSet.mem_iff]
  constructor
  · rintro ⟨name, listener, hget, event, hevent, rfl⟩
    exact ⟨name, listener, event, hget, hevent, rfl⟩
  · rintro ⟨name, listener, event, hget, hevent, rfl⟩
    exact ⟨name, listener, hget, event, hevent, rfl⟩

-- An event with a subscriber is an event of the model, so none is passed over.
theorem mem_subscriptions_iff {model : Model} {edge : Edge} :
    edge ∈ subscriptions model ↔ ∃ event name listener tier,
      model.listeners.get? name = some listener ∧ listener.DeclaresFirst tier event ∧
      edge = .subscribes event name tier := by
  simp only [subscriptions, List.mem_flatMap, List.mem_filterMap, Prod.exists,
    NameMap.mem_entries_iff, Option.map_eq_some_iff, Listener.tierOf?_eq_some_iff,
    ← NameSet.mem_iff]
  constructor
  · rintro ⟨event, _, name, listener, hget, tier, hfirst, rfl⟩
    exact ⟨event, name, listener, tier, hget, hfirst, rfl⟩
  · rintro ⟨event, name, listener, tier, hget, hfirst, rfl⟩
    have hevent : event ∈ model.events :=
      Model.mem_events_iff.mpr ⟨name, listener, hget, .inl ⟨tier, hfirst.1⟩⟩
    exact ⟨event, hevent, name, listener, hget, tier, hfirst, rfl⟩

theorem emits_mem_edges_iff {model : Model} {name event : String} :
    .emits name event ∈ (ofModel model).edges ↔
      ∃ listener, model.listeners.get? name = some listener ∧ event ∈ listener.outEvents := by
  simp only [ofModel, List.mem_append, mem_emissions_iff, mem_subscriptions_iff]
  constructor
  · rintro (⟨_, listener, _, hget, hevent, heq⟩ | ⟨_, _, _, _, _, _, heq⟩)
    · cases heq
      exact ⟨listener, hget, hevent⟩
    · cases heq
  · rintro ⟨listener, hget, hevent⟩
    exact .inl ⟨name, listener, event, hget, hevent, rfl⟩

theorem subscribes_mem_edges_iff {model : Model} {name event : String} {tier : Tier} :
    .subscribes event name tier ∈ (ofModel model).edges ↔
      ∃ listener, model.listeners.get? name = some listener ∧
        listener.DeclaresFirst tier event := by
  simp only [ofModel, List.mem_append, mem_emissions_iff, mem_subscriptions_iff]
  constructor
  · rintro (⟨_, _, _, _, _, heq⟩ | ⟨_, _, listener, _, hget, hfirst, heq⟩)
    · cases heq
    · cases heq
      exact ⟨listener, hget, hfirst⟩
  · rintro ⟨listener, hget, hfirst⟩
    exact .inr ⟨event, name, listener, tier, hget, hfirst, rfl⟩

-- A listener hears an event at one tier at most.
theorem tier_unique {model : Model} {name event : String} {tier other : Tier}
    (first : .subscribes event name tier ∈ (ofModel model).edges)
    (second : .subscribes event name other ∈ (ofModel model).edges) :
    tier = other := by
  obtain ⟨listener, hget, hfirst⟩ := subscribes_mem_edges_iff.mp first
  obtain ⟨listener', hget', hsecond⟩ := subscribes_mem_edges_iff.mp second
  obtain rfl := Option.some.inj (hget.symm.trans hget')
  rw [← Listener.tierOf?_eq_some_iff] at hfirst hsecond
  exact Option.some.inj (hfirst.symm.trans hsecond)

theorem emissions_pairwise (model : Model) : (emissions model).Pairwise Edge.Before := by
  refine List.pairwise_flatMap.mpr ⟨?_, ?_⟩
  · rintro ⟨name, listener⟩ _
    exact List.pairwise_map.mpr (listener.outEvents.ascending.imp fun h => .inr ⟨rfl, h⟩)
  · refine model.listeners.ascending.imp fun {a b} hlt edge hedge other hother => ?_
    obtain ⟨event, _, rfl⟩ := List.mem_map.mp hedge
    obtain ⟨event', _, rfl⟩ := List.mem_map.mp hother
    exact .inl hlt

theorem subscriptions_pairwise (model : Model) :
    (subscriptions model).Pairwise Edge.Before := by
  refine List.pairwise_flatMap.mpr ⟨?_, ?_⟩
  · intro event _
    refine model.listeners.ascending.filterMap _ fun a b hlt edge hedge other hother => ?_
    obtain ⟨tier, _, rfl⟩ := Option.map_eq_some_iff.mp hedge
    obtain ⟨tier', _, rfl⟩ := Option.map_eq_some_iff.mp hother
    exact .inr ⟨rfl, hlt⟩
  · refine model.events.ascending.imp fun {event event'} hlt edge hedge other hother => ?_
    obtain ⟨entry, _, hsome⟩ := List.mem_filterMap.mp hedge
    obtain ⟨entry', _, hsome'⟩ := List.mem_filterMap.mp hother
    obtain ⟨tier, _, rfl⟩ := Option.map_eq_some_iff.mp hsome
    obtain ⟨tier', _, rfl⟩ := Option.map_eq_some_iff.mp hsome'
    exact .inl hlt

theorem edges_pairwise (model : Model) : (ofModel model).edges.Pairwise Edge.Before := by
  refine List.pairwise_append.mpr
    ⟨emissions_pairwise model, subscriptions_pairwise model, fun edge hedge other hother => ?_⟩
  obtain ⟨_, _, _, _, _, rfl⟩ := mem_emissions_iff.mp hedge
  obtain ⟨_, _, _, _, _, _, rfl⟩ := mem_subscriptions_iff.mp hother
  exact trivial

end EventFlow.Graph
