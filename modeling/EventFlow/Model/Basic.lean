import EventFlow.Callable
import EventFlow.Listener

namespace EventFlow

-- What the analysis of a corpus finds out. The keys of the maps are the names that count; in a
-- model that was read from elsewhere they may differ from the names inside the records.
structure Model where
  project : String
  callables : NameMap Callable
  listeners : NameMap Listener
  deriving DecidableEq

namespace Model

instance : Inhabited Model := ⟨⟨"", ∅, ∅⟩⟩

-- Every event that some listener has to do with.
def events (model : Model) : NameSet :=
  NameSet.ofList (model.listeners.values.flatMap (fun listener => listener.events.toList))

end Model

end EventFlow
