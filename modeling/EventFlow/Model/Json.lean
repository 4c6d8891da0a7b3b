import EventFlow.Graph.Statistics
import EventFlow.Json.Printer
import EventFlow.Json.Reader

namespace EventFlow

-- The members of every object stand in ascending order of their names.
namespace Json

def ofNameSet (names : NameSet) : Json := .names names.toList

def ofNameMap {α : Type} (write : α → Json) (map : NameMap α) : Json :=
  .object (map.mapValues write).entries

def toNameSet? (json : Json) : Option NameSet := do
  let elements ← json.elements?
  let names ← elements.mapM text?
  return NameSet.ofList names

def toNameMap? {α : Type} (read? : Json → Option α) (json : Json) : Option (NameMap α) := do
  let members ← json.members?
  let entries ← members.mapM fun (name, value) => (read? value).map fun a => (name, a)
  return NameMap.ofList entries

end Json

namespace Callable

def toJson (callable : Callable) : Json :=
  .object
    [("emits", .ofNameSet callable.emits),
     ("file", .string callable.file),
     ("kind", .string callable.kind.label),
     ("name", .string callable.name)]

-- A kind stands as its label, or as an object with nothing but a null under the label.
def Kind.ofJson? : Json → Option Kind
  | .string label => ofLabel? label
  | .object [(label, .null)] => ofLabel? label
  | _ => none

def ofJson? (json : Json) : Option Callable := do
  match ← json.record? ["name", "kind", "file", "emits"] with
  | [name, kind, file, emits] =>
    return { name := ← name.text?, kind := ← Kind.ofJson? kind, file := ← file.text?,
             emits := ← emits.toNameSet? }
  | _ => none

end Callable

namespace PerTier

-- The tiers that hold something, by their labels in ascending order.
def toJson {α : Type} (write : α → Json) (values : PerTier (Option α)) : Json :=
  .object ([Tier.early, .final, .normal].filterMap fun tier =>
    (values.get tier).map fun value => (tier.label, write value))

-- The keys have to be labels of tiers. A tier without a key holds nothing.
def ofJson? {α : Type} (read? : Json → Option α) (json : Json) : Option (PerTier (Option α)) := do
  let members ← json.members?
  let entries ← members.mapM fun (label, value) => do
    return (← Tier.ofLabel? label, ← read? value)
  return PerTier.ofFn fun tier => (entries.find? (fun entry => entry.1 = tier)).map Prod.snd

end PerTier

namespace Listener

def toJson (listener : Listener) : Json :=
  .object
    [("def_files", .ofNameSet listener.definitionFiles),
     ("files", .ofNameSet listener.files),
     ("in_events", listener.inEvents.toJson Json.ofNameSet),
     ("name", .string listener.name),
     ("out_events", .ofNameSet listener.outEvents)]

def ofJson? (json : Json) : Option Listener := do
  match ← json.record? ["name", "in_events", "out_events", "def_files", "files"] with
  | [name, inEvents, outEvents, definitionFiles, files] =>
    return { name := ← name.text?, inEvents := ← PerTier.ofJson? Json.toNameSet? inEvents,
             outEvents := ← outEvents.toNameSet?,
             definitionFiles := ← definitionFiles.toNameSet?, files := ← files.toNameSet? }
  | _ => none

end Listener

namespace Statistics

def toJson (statistics : Statistics) : Json :=
  .object
    [("emit_edges", .number statistics.emissions),
     ("events", .number statistics.events),
     ("listeners", .number statistics.listeners),
     ("submit_callables", .number statistics.callables),
     ("subscribe_edges", .number statistics.subscriptions),
     ("unconsumed_events", .names statistics.unconsumed),
     ("unproduced_events", .names statistics.unproduced)]

end Statistics

namespace Model

def toJson (model : Model) : Json :=
  .object
    [("listeners", .ofNameMap Listener.toJson model.listeners),
     ("project_name", .string model.project),
     ("submit_callables", .ofNameMap Callable.toJson model.callables)]

def ofJson? (json : Json) : Option Model := do
  match ← json.record? ["project_name", "submit_callables", "listeners"] with
  | [project, callables, listeners] =>
    return { project := ← project.text?, callables := ← callables.toNameMap? Callable.ofJson?,
             listeners := ← listeners.toNameMap? Listener.ofJson? }
  | _ => none

-- The model and its statistics as one JSON text.
def jsonReport (model : Model) : String :=
  (Json.object
    [("model", model.toJson), ("stats", (Statistics.ofModel model).toJson)]).pretty

end Model

end EventFlow
