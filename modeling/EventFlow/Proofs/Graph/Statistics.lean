import EventFlow.Graph.Statistics
import EventFlow.Proofs.Except
import EventFlow.Proofs.Graph.Assembly
import EventFlow.Proofs.Graph.Queries
import Mathlib.Algebra.BigOperators.Group.List.Basic
import Mathlib.Algebra.Ring.Nat
import Mathlib.Data.List.ProdSigma

namespace EventFlow

section Listing

variable {α β κ : Type} [DecidableEq κ] {items : List α} {keys : List κ}

theorem sum_indicator (keys : List κ) (key : κ) :
    (keys.map fun other => if key = other then 1 else 0).sum = keys.count key := by
  induction keys with
  | nil => rfl
  | cons head tail ih =>
    rw [List.map_cons, List.sum_cons, ih, List.count_cons, Nat.add_comm]
    simp only [beq_iff_eq, @eq_comm _ head]

-- What is counted is counted once if each key lists the counted items that have it.
theorem countP_eq_sum_length {counted : α → Bool} (key : α → κ) {list : κ → α → Option β}
    (hkeys : keys.Nodup)
    (hlist : ∀ k item, (list k item).isSome ↔ counted item ∧ key item = k)
    (hmem : ∀ item ∈ items, counted item → key item ∈ keys) :
    items.countP counted = (keys.map fun k => (items.filterMap (list k)).length).sum := by
  simp only [List.length_filterMap_eq_countP]
  induction items with
  | nil => simp
  | cons item items ih =>
    have hrest := ih fun other hother => hmem other (List.mem_cons_of_mem _ hother)
    have hfirst : (keys.map fun k => if (list k item).isSome then 1 else 0).sum =
        if counted item then 1 else 0 := by
      simp only [hlist]
      by_cases hcounted : counted item
      · have hkey := hmem item List.mem_cons_self hcounted
        simp only [hcounted, true_and, if_true, sum_indicator]
        exact List.count_eq_one_of_mem hkeys hkey
      · simp [hcounted]
    simp only [List.countP_cons, List.sum_map_add, hfirst, hrest]

end Listing

namespace Listener

-- The events that a listener asks for, at one tier or at several.
def requested (listener : Listener) : NameSet :=
  NameSet.ofList (Tier.all.flatMap fun tier => (listener.declared tier).toList)

theorem mem_requested_iff {listener : Listener} {event : String} :
    event ∈ listener.requested ↔ ∃ tier, listener.Declares tier event := by
  simp only [requested, NameSet.mem_ofList, List.mem_flatMap, Tier.mem_all, true_and,
    ← NameSet.mem_iff, mem_declared_iff]

end Listener

namespace Graph

namespace Edge

def isEmission : Edge → Bool
  | emits .. => true
  | subscribes .. => false

def listener : Edge → String
  | emits listener _ => listener
  | subscribes _ listener _ => listener

def event : Edge → String
  | emits _ event => event
  | subscribes event _ _ => event

def tier? : Edge → Option Tier
  | emits .. => none
  | subscribes _ _ tier => some tier

end Edge

-- The nodes that a walk over the model meets, be it by their names or at the end of an edge.
def visited (model : Model) : List Node :=
  model.events.toList.map .event ++ model.listeners.entries.flatMap fun entry =>
    .listener entry.1 :: (edgesAt entry.1 entry.2).flatMap fun edge => [edge.source, edge.target]

variable {model : Model} {name event : String} {edge : Edge}

theorem listener_mem (h : edge ∈ (ofModel model).edges) :
    edge.listener ∈ (ofModel model).listeners := by
  cases edge with
  | emits name event => exact mem_listeners_iff.mpr (nodes_of_emits h).1
  | subscribes event name tier => exact mem_listeners_iff.mpr (nodes_of_subscribes h).1

theorem event_mem (h : edge ∈ (ofModel model).edges) : edge.event ∈ (ofModel model).events := by
  cases edge with
  | emits name event => exact (nodes_of_emits h).2
  | subscribes event name tier => exact (nodes_of_subscribes h).2

-- No event stands alone.
theorem exists_edge (h : event ∈ (ofModel model).events) :
    (∃ name, name ∈ (ofModel model).producers event) ∨
      ∃ tier name, name ∈ ((ofModel model).subscribers event).get tier := by
  obtain ⟨name, listener, hget, ⟨tier, hdeclares⟩ | hcreates⟩ := Model.mem_events_iff.mp h
  · obtain ⟨first, _, hfirst⟩ := Listener.exists_declaresFirst hdeclares
    exact .inr ⟨first, name, (subscribers_ofModel.2 name).mpr
      (subscribes_mem_edges_iff.mpr ⟨listener, hget, hfirst⟩)⟩
  · exact .inl ⟨name, (producers_ofModel.2 name).mpr
      (emits_mem_edges_iff.mpr ⟨listener, hget, hcreates⟩)⟩

-- The events that a listener creates, and those that it hears at whatever tier.
def createdBy (name : String) : Edge → Option String
  | .emits creator event => if creator = name then some event else none
  | .subscribes .. => none

def askedBy (name : String) : Edge → Option String
  | .emits .. => none
  | .subscribes event hearer _ => if hearer = name then some event else none

section Sums

theorem emissionCount_eq_sum_producers :
    (ofModel model).emissionCount =
      ((ofModel model).events.toList.map fun event =>
        ((ofModel model).producers event).length).sum := by
  refine countP_eq_sum_length Edge.event (NameSet.nodup _) (fun event edge => ?_)
    fun edge hedge _ => event_mem hedge
  cases edge with
  | emits listener created => simp [Edge.event]
  | subscribes heard listener tier => simp

theorem emissionCount_eq_sum_created :
    ∃ created, (ofModel model).listeners.toList.mapM (ofModel model).outEvents = .ok created ∧
      (ofModel model).emissionCount = (created.map List.length).sum := by
  have hqueries : ∀ name ∈ (ofModel model).listeners.toList, (ofModel model).outEvents name =
      .ok ((ofModel model).edges.filterMap (createdBy name)) := by
    intro name hname
    rw [outEvents, known_of_mem hname]
    rfl
  refine ⟨_, mapM_eq_ok hqueries, ?_⟩
  rw [List.map_map]
  refine countP_eq_sum_length Edge.listener (NameSet.nodup _) (fun name edge => ?_)
    fun edge hedge _ => listener_mem hedge
  cases edge with
  | emits creator event => simp [createdBy, Edge.listener]
  | subscribes event hearer tier => simp [createdBy]

theorem emissionCount_eq_sum_outEvents :
    (ofModel model).emissionCount =
      (model.listeners.values.map fun listener => listener.outEvents.size).sum := by
  have hnone : (subscriptions model).countP Edge.isEmission = 0 := by
    refine List.countP_eq_zero.mpr fun edge hedge => ?_
    obtain ⟨_, _, _, _, _, _, rfl⟩ := mem_subscriptions_iff.mp hedge
    exact Bool.false_ne_true
  have hall : (emissions model).countP Edge.isEmission = (emissions model).length := by
    refine List.countP_eq_length.mpr fun edge hedge => ?_
    obtain ⟨_, _, _, _, _, rfl⟩ := mem_emissions_iff.mp hedge
    rfl
  calc (ofModel model).emissionCount
      = (emissions model).countP Edge.isEmission + (subscriptions model).countP Edge.isEmission :=
        List.countP_append
    _ = (emissions model).length := by rw [hall, hnone, Nat.add_zero]
    _ = (model.listeners.values.map fun listener => listener.outEvents.size).sum := by
        simp only [emissions, List.length_flatMap, List.length_map, NameMap.values, List.map_map]
        rfl

-- Whatever a listener asks for, it has one subscription to.
theorem length_askedBy {listener : Listener} (h : model.listeners.get? name = some listener) :
    ((ofModel model).edges.filterMap (askedBy name)).length = listener.requested.size := by
  have hasked : ∀ edge event, askedBy name edge = some event ↔
      ∃ tier, edge = .subscribes event name tier := by
    intro edge event
    cases edge with
    | emits => simp [askedBy]
    | subscribes heard hearer tier => simp [askedBy, and_comm]
  have hascending : ((ofModel model).edges.filterMap (askedBy name)).Pairwise (· < ·) := by
    refine (edges_pairwise model).filterMap _
      fun edge later hbefore first hfirst second hsecond => ?_
    obtain ⟨tier, rfl⟩ := (hasked edge first).mp hfirst
    obtain ⟨tier', rfl⟩ := (hasked later second).mp hsecond
    exact hbefore.resolve_right fun hlater => lt_irrefl _ hlater.2
  have heq : (⟨_, hascending⟩ : NameSet) = listener.requested := by
    refine NameSet.ext fun event => ?_
    simp only [NameSet.mem_iff, List.mem_filterMap, hasked]
    rw [← NameSet.mem_iff, Listener.mem_requested_iff]
    constructor
    · rintro ⟨edge, hedge, tier, rfl⟩
      obtain ⟨other, hother, hfirst⟩ := subscribes_mem_edges_iff.mp hedge
      obtain rfl := Option.some.inj (h.symm.trans hother)
      exact ⟨tier, hfirst.1⟩
    · rintro ⟨tier, hdeclares⟩
      obtain ⟨first, _, hfirst⟩ := Listener.exists_declaresFirst hdeclares
      exact ⟨_, subscribes_mem_edges_iff.mpr ⟨listener, h, hfirst⟩, first, rfl⟩
  exact congrArg NameSet.size heq

theorem subscriptionCount_eq_sum_requested :
    (ofModel model).subscriptionCount =
      (model.listeners.values.map fun listener => listener.requested.size).sum := by
  have hlisted : (ofModel model).subscriptionCount =
      ((ofModel model).listeners.toList.map fun name =>
        ((ofModel model).edges.filterMap (askedBy name)).length).sum := by
    refine countP_eq_sum_length Edge.listener (NameSet.nodup _) (fun name edge => ?_)
      fun edge hedge _ => listener_mem hedge
    cases edge with
    | emits listener created => simp [askedBy]
    | subscribes heard listener tier => simp [askedBy, Edge.listener]
  have hnames : (ofModel model).listeners.toList = model.listeners.entries.map Prod.fst := rfl
  rw [hlisted, hnames, NameMap.values, List.map_map, List.map_map]
  refine congrArg List.sum (List.map_congr_left fun entry hentry => ?_)
  exact length_askedBy (NameMap.mem_entries_iff.mp hentry)

theorem subscriptionCount_eq_sum_subscribers :
    (ofModel model).subscriptionCount =
      ((ofModel model).events.toList.map fun event =>
        (Tier.all.map fun tier =>
          (((ofModel model).subscribers event).get tier).length).sum).sum := by
  have hlisted : (ofModel model).subscriptionCount =
      (((ofModel model).events.toList ×ˢ Tier.all).map fun place =>
        (((ofModel model).subscribers place.1).get place.2).length).sum := by
    simp only [subscribers, PerTier.get_ofFn]
    -- emissions are not counted, so any tier does for them
    refine countP_eq_sum_length (fun edge => (edge.event, edge.tier?.getD .early))
      ((NameSet.nodup _).product (by decide)) (fun place edge => ?_) fun edge hedge _ =>
        List.mem_product.mpr ⟨event_mem hedge, Tier.mem_all _⟩
    cases edge with
    | emits creator created => simp
    | subscribes heard hearer tier => simp [Edge.event, Edge.tier?, Prod.ext_iff]
  have hplaces : (ofModel model).events.toList ×ˢ Tier.all =
      (ofModel model).events.toList.flatMap fun event => Tier.all.map (Prod.mk event) := rfl
  rw [hlisted, hplaces, List.map_flatMap, List.flatMap_def, List.sum_flatten, List.map_map]
  simp only [Function.comp_def, List.map_map]

end Sums

section Nodes

-- The nodes of a graph, each of them once.
def nodes (graph : Graph) : List Node :=
  graph.listeners.toList.map .listener ++ graph.events.toList.map .event

theorem listener_mem_nodes {graph : Graph} :
    .listener name ∈ graph.nodes ↔ name ∈ graph.listeners := by
  simp [nodes, NameSet.mem_iff]

theorem event_mem_nodes {graph : Graph} : .event event ∈ graph.nodes ↔ event ∈ graph.events := by
  simp [nodes, NameSet.mem_iff]

theorem nodes_nodup (graph : Graph) : graph.nodes.Nodup := by
  refine List.Nodup.append ?_ ?_ ?_
  · exact (NameSet.nodup _).map fun first second h => Node.listener.inj h
  · exact (NameSet.nodup _).map fun first second h => Node.event.inj h
  · intro node hlistener hevent
    obtain ⟨name, _, rfl⟩ := List.mem_map.mp hlistener
    obtain ⟨event, _, heq⟩ := List.mem_map.mp hevent
    cases heq

theorem ends_mem_nodes (h : edge ∈ (ofModel model).edges) :
    edge.source ∈ (ofModel model).nodes ∧ edge.target ∈ (ofModel model).nodes := by
  have hlistener := listener_mem_nodes.mpr (listener_mem h)
  have hevent := event_mem_nodes.mpr (event_mem h)
  cases edge with
  | emits name event => exact ⟨hlistener, hevent⟩
  | subscribes event name tier => exact ⟨hevent, hlistener⟩

theorem mem_visited_iff {node : Node} : node ∈ visited model ↔ node ∈ (ofModel model).nodes := by
  constructor
  · intro h
    obtain hevent | hwalk := List.mem_append.mp h
    · exact List.mem_append_right _ hevent
    · obtain ⟨entry, hentry, hnode⟩ := List.mem_flatMap.mp hwalk
      obtain rfl | hend := List.mem_cons.mp hnode
      · exact listener_mem_nodes.mpr (List.mem_map_of_mem hentry)
      · obtain ⟨edge, hedge, hend⟩ := List.mem_flatMap.mp hend
        obtain ⟨hsource, htarget⟩ :=
          ends_mem_nodes (mem_walk_iff.mp (List.mem_flatMap.mpr ⟨entry, hentry, hedge⟩))
        obtain rfl | rfl := List.mem_pair.mp hend
        · exact hsource
        · exact htarget
  · intro h
    obtain hlistener | hevent := List.mem_append.mp h
    · obtain ⟨name, hname, rfl⟩ := List.mem_map.mp hlistener
      obtain ⟨entry, hentry, rfl⟩ := List.mem_map.mp hname
      exact List.mem_append_right _ (List.mem_flatMap.mpr ⟨entry, hentry, List.mem_cons_self⟩)
    · exact List.mem_append_left _ hevent

theorem length_dedup_visited : (visited model).dedup.length = (ofModel model).nodeCount := by
  have hperm := (List.perm_ext_iff_of_nodup (List.nodup_dedup _)
    (nodes_nodup (ofModel model))).mpr fun node => List.mem_dedup.trans mem_visited_iff
  rw [hperm.length_eq, nodes, List.length_append, List.length_map, List.length_map]
  rfl

end Nodes

-- Every count of the statistics is the same from each of the sides it can be taken from.
structure DoubleCounted (model : Model) (counts : Statistics) : Prop where
  -- what listeners create, by their records, by the queries for them, and by event
  emissions_outEvents : counts.emissions =
    (model.listeners.values.map fun listener => listener.outEvents.size).sum
  emissions_created : ∃ created,
    (ofModel model).listeners.toList.mapM (ofModel model).outEvents = .ok created ∧
      counts.emissions = (created.map List.length).sum
  emissions_producers : counts.emissions =
    ((ofModel model).events.toList.map fun event => ((ofModel model).producers event).length).sum
  -- what listeners ask for, by their records, and by event and tier
  subscriptions_requested : counts.subscriptions =
    (model.listeners.values.map fun listener => listener.requested.size).sum
  subscriptions_subscribers : counts.subscriptions =
    ((ofModel model).events.toList.map fun event => (Tier.all.map fun tier =>
      (((ofModel model).subscribers event).get tier).length).sum).sum
  -- a listener and an event of one name are two nodes, and there are no others
  nodes_visited : (visited model).dedup.length = counts.listeners + counts.events
  nodeCount_eq : (ofModel model).nodeCount = counts.listeners + counts.events
  -- an event that nobody creates is heard, and one that nobody hears is created
  unproduced_ascending : counts.unproduced.Pairwise (· < ·)
  mem_unproduced : ∀ event, event ∈ counts.unproduced ↔
    (∃ tier name, name ∈ ((ofModel model).subscribers event).get tier) ∧
      (ofModel model).producers event = []
  unconsumed_ascending : counts.unconsumed.Pairwise (· < ·)
  mem_unconsumed : ∀ event, event ∈ counts.unconsumed ↔
    (∃ name, name ∈ (ofModel model).producers event) ∧
      ∀ tier, ((ofModel model).subscribers event).get tier = []
  disjoint : counts.unproduced.Disjoint counts.unconsumed

theorem event_mem_of_producer (h : name ∈ (ofModel model).producers event) :
    event ∈ (ofModel model).events := (nodes_of_emits (producers_ofModel.2 name |>.mp h)).2

theorem event_mem_of_subscriber {tier : Tier}
    (h : name ∈ ((ofModel model).subscribers event).get tier) :
    event ∈ (ofModel model).events := (nodes_of_subscribes (subscribers_ofModel.2 name |>.mp h)).2

theorem mem_unproduced_iff : event ∈ (Statistics.ofModel model).unproduced ↔
    (∃ tier name, name ∈ ((ofModel model).subscribers event).get tier) ∧
      (ofModel model).producers event = [] := by
  simp only [Statistics.ofModel, List.mem_filter, decide_eq_true_eq, ← NameSet.mem_iff]
  constructor
  · rintro ⟨hevent, hnone⟩
    refine ⟨(exists_edge hevent).resolve_left ?_, hnone⟩
    rintro ⟨name, hname⟩
    rw [hnone] at hname
    cases hname
  · rintro ⟨⟨tier, name, hname⟩, hnone⟩
    exact ⟨event_mem_of_subscriber hname, hnone⟩

theorem audience_eq_nil_iff {graph : Graph} :
    graph.audience event = [] ↔ ∀ tier, (graph.subscribers event).get tier = [] := by
  simp [audience, PerTier.toList, Tier.mem_all]

theorem mem_unconsumed_iff : event ∈ (Statistics.ofModel model).unconsumed ↔
    (∃ name, name ∈ (ofModel model).producers event) ∧
      ∀ tier, ((ofModel model).subscribers event).get tier = [] := by
  simp only [Statistics.ofModel, List.mem_filter, decide_eq_true_eq, ← NameSet.mem_iff,
    audience_eq_nil_iff]
  constructor
  · rintro ⟨hevent, hnone⟩
    refine ⟨(exists_edge hevent).resolve_right ?_, hnone⟩
    rintro ⟨tier, name, hname⟩
    rw [hnone] at hname
    cases hname
  · rintro ⟨⟨name, hname⟩, hnone⟩
    exact ⟨event_mem_of_producer hname, hnone⟩

theorem statistics_doubleCounted (model : Model) :
    DoubleCounted model (Statistics.ofModel model) where
  emissions_outEvents := emissionCount_eq_sum_outEvents
  emissions_created := emissionCount_eq_sum_created
  emissions_producers := emissionCount_eq_sum_producers
  subscriptions_requested := subscriptionCount_eq_sum_requested
  subscriptions_subscribers := subscriptionCount_eq_sum_subscribers
  nodes_visited := length_dedup_visited
  nodeCount_eq := rfl
  unproduced_ascending := (NameSet.ascending _).filter _
  mem_unproduced _ := mem_unproduced_iff
  unconsumed_ascending := (NameSet.ascending _).filter _
  mem_unconsumed _ := mem_unconsumed_iff
  disjoint event hunproduced hunconsumed := by
    obtain ⟨name, hname⟩ := (mem_unconsumed_iff.mp hunconsumed).1
    rw [(mem_unproduced_iff.mp hunproduced).2] at hname
    cases hname

end Graph

end EventFlow
