import EventFlow.Grid
import EventFlow.Report.Options

namespace EventFlow.Report

def columnNames : List String :=
  ["Source Module", "Input Event", "This Module", "Output Event", "Sink Module"]

-- What stands in place of a subscriber when there is none.
def noSink : String := "None"

-- The producers of an event, or the label of their list in the index when they are too many.
def collapseSources (event : String) (limit : Nat) (producers : List String) : List String :=
  if producers ≠ [] ∧ limit ≤ producers.length then [sourcesOf event] else producers

-- The same for the subscribers, who count over all tiers. The label goes to the normal tier.
-- A tier without a list stays without, unless it is to hold the label.
def collapseSinks (event : String) (limit : Nat) (sinks : PerTier (Option (List String))) :
    PerTier (Option (List String)) :=
  let total := (sinks.toList.flatMap fun list => list.getD []).length
  if 0 < total ∧ limit ≤ total then
    { sinks.map (fun list => list.map fun _ => []) with normal := some [sinksOf event] }
  else sinks

-- The cells of one event in the two columns of a side: the modules, and the event beside the
-- first of them.
structure Rows where
  modules : List String
  events : List String

def Rows.ofGroup (event : String) (modules : List String) : Rows :=
  ⟨modules, (literal event :: modules.map (fun _ => "")).take modules.length⟩

def Rows.append (first second : Rows) : Rows :=
  ⟨first.modules ++ second.modules, first.events ++ second.events⟩

def Rows.join (groups : List Rows) : Rows := groups.foldr Rows.append ⟨[], []⟩

-- The side of a listener where events come in. An event without producers takes no row.
def inbound (graph : Graph) (options : Options) (events : PerTier (List String)) : Rows :=
  Rows.join (events.toList.flatten.map fun event =>
    Rows.ofGroup event ((collapseSources event options.collapseAt (graph.producers event)).map
      (reference (options.label graph))))

-- The side where events go out. An event without subscribers takes a row that says so.
def outbound (graph : Graph) (options : Options) (events : List String) : Rows :=
  Rows.join (events.map fun event =>
    let subscribers := ((collapseSinks event options.collapseAt
      ((graph.subscribers event).map some)).toList.map (fun list => list.getD [])).flatten
    Rows.ofGroup event (if subscribers = [] then [noSink]
      else subscribers.map (reference (options.label graph))))

def blanks (count : Nat) : List String := List.replicate count ""

-- The five columns of a listener's table. Inbound rows stand at the top and outbound rows at
-- the bottom; the listener itself stands in the first row, even when there are no rows.
def columns (graph : Graph) (options : Options) (listener : String) :
    Except Error (List Grid.Column) := do
  let heard ← graph.inEvents listener
  let created ← graph.outEvents listener
  let into := inbound graph options heard
  let out := outbound graph options created
  let above := into.modules.length
  let below := out.modules.length
  let cells :=
    [into.modules ++ blanks below,
     into.events ++ blanks below,
     literal listener :: blanks (above + below - 1),
     blanks above ++ out.events,
     blanks above ++ out.modules]
  return List.zipWith Grid.Column.mk columnNames cells

-- The table of one listener. The separator under the last inbound row is closed, as the blank
-- cells below it belong to the outbound part.
def listenerTable (graph : Graph) (options : Options) (listener : String) :
    Except Error String := do
  let columns ← columns graph options listener
  let grid ← Grid.draw listener columns
  return (grid.closeBelowLast ":ref:" 2).text

def propagationTitle (graph : Graph) (options : Options) : String :=
  options.title.getD (options.label graph ++ " event propagation")

-- The document with the tables of all listeners, each between two markers.
def propagationDocument (graph : Graph) (options : Options) : Except Error String := do
  let title := propagationTitle graph options
  let mark := underline '#' title
  let sections ← graph.listeners.toList.mapM fun listener => do
    let table ← listenerTable graph options listener
    return s!".. table_{listener}_start\n\n{table}\n\n.. table_{listener}_end\n\n\n"
  return document (s!":orphan:\n\n{title}\n{mark}\n\n" :: sections)

end EventFlow.Report
