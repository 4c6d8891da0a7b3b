import EventFlow.Graph.Basic

namespace EventFlow.Graph

-- The graph in the DOT language: listeners are boxes, events ellipses, and an edge to a listener
-- bears its tier unless that is the normal one.
namespace Dot

def listenerLine (name : String) : String :=
  s!"  \"{name}\" [shape=box, style=filled, fillcolor=lightblue];"

def eventLine (name : String) : String := s!"  \"{name}\" [shape=ellipse];"

def edgeLine : Edge → String
  | .emits listener event => s!"  \"{listener}\" -> \"{event}\";"
  | .subscribes event listener .normal => s!"  \"{event}\" -> \"{listener}\";"
  | .subscribes event listener tier =>
    s!"  \"{event}\" -> \"{listener}\" [label=\"{tier.label}\"];"

def lines (graph : Graph) : List String :=
  ["digraph evprop \x7b", "  rankdir=LR;", "  node [fontname=\"JetBrains Mono\"];", ""]
    ++ graph.listeners.toList.map listenerLine
    ++ graph.events.toList.map eventLine
    ++ [""]
    ++ graph.edges.map edgeLine
    ++ ["\x7d"]

end Dot

def dot (graph : Graph) : String :=
  String.join ((Dot.lines graph).map (fun line => line ++ "\n"))

end EventFlow.Graph
