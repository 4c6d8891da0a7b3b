import EventFlow.Graph.Basic

namespace EventFlow

-- Counts over a model and its graph.
structure Statistics where
  listeners : Nat
  events : Nat
  callables : Nat
  emissions : Nat
  subscriptions : Nat
  -- events that nobody creates
  unproduced : List String
  -- events that nobody hears
  unconsumed : List String
  deriving DecidableEq

namespace Graph

def emissionCount (graph : Graph) : Nat :=
  graph.edges.countP fun
    | .emits .. => true
    | .subscribes .. => false

def subscriptionCount (graph : Graph) : Nat :=
  graph.edges.countP fun
    | .emits .. => false
    | .subscribes .. => true

end Graph

namespace Statistics

def ofModel (model : Model) : Statistics :=
  let graph := Graph.ofModel model
  { listeners := graph.listeners.size
    events := graph.events.size
    callables := model.callables.size
    emissions := graph.emissionCount
    subscriptions := graph.subscriptionCount
    unproduced := graph.events.toList.filter (fun event => graph.producers event = [])
    unconsumed := graph.events.toList.filter (fun event => graph.audience event = []) }

end Statistics

end EventFlow
