import EventFlow.Names.Map
import EventFlow.Tier

namespace EventFlow

-- A module registered with the event bus. A tier may have no set of its own; that counts as no
-- subscription, and is kept apart from an empty set only so that a record reads back unchanged.
structure Listener where
  name : String
  inEvents : PerTier (Option NameSet)
  outEvents : NameSet
  definitionFiles : NameSet
  files : NameSet
  deriving DecidableEq

namespace Listener

-- The listener of the name that nothing is known about. It has a set for every tier.
def blank (name : String) : Listener := ⟨name, PerTier.ofFn (fun _ => some ∅), ∅, ∅, ∅⟩

-- The events declared for a tier in the sources.
def declared (listener : Listener) (tier : Tier) : NameSet :=
  (listener.inEvents.get tier).getD ∅

-- What two records of one listener say together. The name is that of the first.
def merge (first second : Listener) : Listener :=
  { name := first.name
    inEvents := PerTier.ofFn fun tier =>
      match second.inEvents.get tier with
      | some events => some ((first.declared tier).union events)
      | none => first.inEvents.get tier
    outEvents := first.outEvents.union second.outEvents
    definitionFiles := first.definitionFiles.union second.definitionFiles
    files := first.files.union second.files }

-- The earliest tier for which an event is declared. Only there the listener hears it.
def tierOf? (listener : Listener) (event : String) : Option Tier :=
  Tier.all.find? (fun tier => event ∈ listener.declared tier)

-- The events heard at each tier.
def heard (listener : Listener) : PerTier NameSet :=
  PerTier.ofFn fun tier =>
    (listener.declared tier).filter (fun event => listener.tierOf? event = some tier)

-- Every event the listener has to do with, inbound or outbound.
def events (listener : Listener) : NameSet :=
  NameSet.ofList
    (Tier.all.flatMap (fun tier => (listener.declared tier).toList) ++ listener.outEvents.toList)

end Listener

end EventFlow
