import EventFlow.Names.Set
import EventFlow.Source.Token

namespace EventFlow.Event

-- The event that an identifier creates. `new_x_event` creates `x_event`, for a nonempty `x`.
def createdBy? (identifier : String) : Option String :=
  ("new_".toList.isPrefixOf? identifier.toList).bind fun name =>
    match "_event".toList.isSuffixOf? name with
    | some (_ :: _) => some (String.ofList name)
    | _ => none

-- The events that the identifiers among these tokens create.
def createdIn (tokens : List Source.Token) : NameSet :=
  NameSet.ofList ((tokens.filter Source.Token.isIdentifier).filterMap
    (fun token => createdBy? token.text))

example : createdBy? "new_power_down_event" = some "power_down_event" := by decide +kernel

example : createdBy? "new__event" = none := by decide +kernel

end EventFlow.Event
