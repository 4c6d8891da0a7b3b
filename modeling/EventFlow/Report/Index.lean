import EventFlow.Report.Options

namespace EventFlow.Report

def introduction : String :=
  "This page includes lists of source and sink modules for events that have many "
    ++ "listeners or sources.\n"
    ++ "These were gathered on a single page to simplify the event propagation tables.\n\n"

-- A titled list of modules under a label.
def moduleList (project label title : String) (modules : List String) : String :=
  let mark := underline '=' title
  let items := String.join (modules.map fun name => "* " ++ reference project name ++ "\n")
  let line := anchor project label
  s!"{line}\n\n{title}\n{mark}\n\n{items}"

-- Whether an event has enough producers or subscribers for the index.
def isIndexed (graph : Graph) (options : Options) (event : String) : Bool :=
  match options.indexFrom with
  | none => true
  | some least =>
    least ≤ (graph.producers event).length || least ≤ (graph.audience event).length

def indexSection (graph : Graph) (project event : String) : String :=
  let sources := moduleList project (sourcesOf event) s!"Source modules for {event}"
    (graph.producers event)
  let sinks := moduleList project (sinksOf event) s!"Sink modules for {event}"
    (graph.audience event)
  s!"{sources}\n{sinks}\n\n"

-- The document that lists the producers and the subscribers of busy events.
def indexDocument (graph : Graph) (options : Options) : String :=
  let project := options.label graph
  let heading := "Source and sink module lists"
  let mark := underline '#' heading
  let line := anchor project "event_rel_modules"
  let front := s!"{line}\n\n{heading}\n{mark}\n\n"
    ++ ".. contents::\n   :local:\n   :depth: 2\n\n" ++ introduction
  document (front :: (graph.events.toList.filter (isIndexed graph options)).map
    (indexSection graph project))

end EventFlow.Report
