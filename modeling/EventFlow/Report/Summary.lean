import EventFlow.Graph.Statistics

namespace EventFlow

namespace Report

def items (names : List String) : List String := names.map (fun name => s!"- {name}")

-- A list under a heading that counts it, or nothing for an empty list.
def countedItems (heading : String) (names : List String) : List String :=
  if names = [] then [] else s!"{heading} ({names.length}):" :: items names

end Report

-- The plain report on a model.
def Model.summary (model : Model) : String :=
  let graph := Graph.ofModel model
  let counts := Statistics.ofModel model
  let lines :=
    [s!"PROJECT: {graph.project}",
     s!"LISTENERS: {counts.listeners}  EVENTS: {counts.events}  SUBMIT CALLABLES: {counts.callables}",
     s!"EDGES: {counts.emissions} emit, {counts.subscriptions} subscribe"]
      ++ Report.items graph.listeners.toList
      ++ Report.countedItems "UNPRODUCED EVENTS" counts.unproduced
      ++ Report.countedItems "UNCONSUMED EVENTS" counts.unconsumed
  String.join (lines.map (fun line => line ++ "\n"))

end EventFlow
