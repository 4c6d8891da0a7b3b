import EventFlow.Model.Basic

namespace EventFlow

-- A listener and an event may share a name and are still two nodes.
inductive Graph.Node where
  | listener (name : String)
  | event (name : String)
  deriving DecidableEq

-- Edges point the way an event travels: from the listener that creates it, and to the listener
-- that hears it at some tier.
inductive Graph.Edge where
  | emits (listener event : String)
  | subscribes (event listener : String) (tier : Tier)
  deriving DecidableEq

-- Who creates and who hears which event. Between two nodes there is at most one edge. Edges
-- that create come first; within a kind they ascend by their first end, then by the second.
structure Graph where
  project : String
  listeners : NameSet
  events : NameSet
  edges : List Graph.Edge
  deriving DecidableEq

namespace Graph

namespace Edge

def source : Edge → Node
  | emits listener _ => .listener listener
  | subscribes event _ _ => .event event

def target : Edge → Node
  | emits _ event => .event event
  | subscribes _ listener _ => .listener listener

end Edge

def emissions (model : Model) : List Edge :=
  model.listeners.entries.flatMap fun (name, listener) =>
    listener.outEvents.toList.map (Edge.emits name)

def subscriptions (model : Model) : List Edge :=
  model.events.toList.flatMap fun event =>
    model.listeners.entries.filterMap fun (name, listener) =>
      (listener.tierOf? event).map (Edge.subscribes event name)

def ofModel (model : Model) : Graph :=
  { project := model.project
    listeners := model.listeners.nameSet
    events := model.events
    edges := emissions model ++ subscriptions model }

def nodeCount (graph : Graph) : Nat := graph.listeners.size + graph.events.size

def edge? (graph : Graph) (source target : Node) : Option Edge :=
  graph.edges.find? (fun edge => edge.source = source ∧ edge.target = target)

-- The listeners that create an event. An event of no listener has none.
def producers (graph : Graph) (event : String) : List String :=
  graph.edges.filterMap fun
    | .emits listener created => if created = event then some listener else none
    | .subscribes .. => none

-- The listeners that hear an event, by tier.
def subscribers (graph : Graph) (event : String) : PerTier (List String) :=
  PerTier.ofFn fun tier => graph.edges.filterMap fun
    | .subscribes heard listener servedAt =>
      if heard = event ∧ servedAt = tier then some listener else none
    | .emits .. => none

-- The subscribers of an event in the order in which they hear it.
def audience (graph : Graph) (event : String) : List String := (graph.subscribers event).toList.flatten

def known (graph : Graph) (listener : String) : Except Error Unit :=
  if listener ∈ graph.listeners then .ok () else .error (.unknownListener listener)

-- The events that a listener hears, by tier.
def inEvents (graph : Graph) (listener : String) : Except Error (PerTier (List String)) :=
  (graph.known listener).map fun _ => PerTier.ofFn fun tier => graph.edges.filterMap fun
    | .subscribes event hearer servedAt =>
      if hearer = listener ∧ servedAt = tier then some event else none
    | .emits .. => none

-- The events that a listener creates.
def outEvents (graph : Graph) (listener : String) : Except Error (List String) :=
  (graph.known listener).map fun _ => graph.edges.filterMap fun
    | .emits creator event => if creator = listener then some event else none
    | .subscribes .. => none

end Graph

end EventFlow
