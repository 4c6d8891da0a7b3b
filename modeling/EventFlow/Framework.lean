import EventFlow.Error
import EventFlow.Names.Map
import EventFlow.Path

namespace EventFlow

-- The tree of the framework that an application is built on.
structure Framework where
  root : Path
  deriving DecidableEq

namespace Framework

-- The framework that lies beside the tree of the base system.
def besideBase? (base : Path) : Option Framework :=
  base.parent?.map fun above => ⟨above.join ⟨"nrf"⟩⟩

def sourceDirectory (framework : Framework) : Path :=
  (framework.root.join ⟨"subsys"⟩).join ⟨"caf"⟩

def headerDirectory (framework : Framework) : Path :=
  (framework.root.join ⟨"include"⟩).join ⟨"caf"⟩

-- Whether a word occurs in a text.
def occurs (word : List Char) : List Char → Bool
  | [] => word.isEmpty
  | c :: rest => word.isPrefixOf (c :: rest) || occurs word rest

-- Whether a source defines events, going by its name.
def definesEvents (name : String) : Bool := occurs "event".toList name.toList

-- Keeps the sources that define events, and the selected ones. Each selected one must be there.
def select (sources : NameMap String) (selected : List String) : Except Error (NameMap String) :=
  match selected.find? (fun name => !sources.contains name) with
  | some name => .error (.badArgument s!"framework module {name} not found")
  | none => .ok (sources.filter fun name _ => definesEvents name || name ∈ selected)

end Framework

end EventFlow
