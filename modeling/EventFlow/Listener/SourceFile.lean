import EventFlow.Callable
import EventFlow.Listener

namespace EventFlow

open Source

-- What one source file says about its listener.
structure Listener.SourceFile where
  file : String
  name : String
  inEvents : PerTier NameSet
  -- events the file itself creates
  created : NameSet
  -- identifiers with a parenthesis behind them
  calls : NameSet
  -- all identifiers
  mentions : NameSet
  definitionFiles : NameSet
  deriving DecidableEq

namespace Listener.SourceFile

-- Whether an identifier is the given macro, or the macro under a name of the application's own,
-- which goes before it with an underscore between the two.
def isVariantOf (base identifier : String) : Bool :=
  match base.toList.isSuffixOf? identifier.toList with
  | some [] => true
  | some own => own.getLast? = some '_'
  | none => false

def registers (identifier : String) : Bool := isVariantOf "EVENT_LISTENER" identifier

-- The tier for which an identifier subscribes.
def subscribes? (identifier : String) : Option Tier :=
  Tier.all.find? fun tier =>
    match tier.suffix.toList.isSuffixOf? identifier.toList with
    | some stem => isVariantOf "EVENT_SUBSCRIBE" (String.ofList stem)
    | none => false

-- Whether a file mentions the registration macro at all, be it in a preprocessor line.
def isCandidate (stream : Stream) : Bool := stream.identifiers.any registers

-- The first arguments of the registrations: invocations with just two arguments, none empty.
def registrations : List Token → List String
  | [] => []
  | token :: rest =>
    if token.isIdentifier ∧ registers token.text then
      match Token.callArguments? rest with
      | some [name, handler] =>
        if name ≠ [] ∧ handler ≠ [] then Token.bareText name :: registrations rest
        else registrations rest
      | _ => registrations rest
    else registrations rest

-- The subscriptions with their tiers. The event is the last argument; an empty one is none.
def subscriptions : List Token → List (Tier × String)
  | [] => []
  | token :: rest =>
    let event? := ((Token.callArguments? rest).bind List.getLast?).map Token.bareText
    match (if token.isIdentifier then subscribes? token.text else none), event? with
    | some tier, some event =>
      if event = "" then subscriptions rest else (tier, event) :: subscriptions rest
    | _, _ => subscriptions rest

-- The name behind a registered name, if one preprocessor line replaces it: the last word of the
-- replacement. Several replacements leave the name open.
def resolve (file : String) (stream : Stream) (name : String) : Except Error String :=
  let replacements := (stream.directives.filterMap Directive.definition?).filterMap
    fun definition => if definition.name = name then definition.replacement? else none
  match replacements with
  | [] => .ok name
  | [replacement] => .ok (String.ofList (Text.lastWord replacement))
  | several => .error (.ambiguousName file name several.length)

-- The identifiers with a parenthesis right behind them, on the same preprocessor line or both
-- in the code.
def calledNames : List Token → List String
  | token :: next :: rest =>
    if token.isIdentifier ∧ next.isPunctuation '(' ∧ next.directive = token.directive then
      token.text :: calledNames (next :: rest)
    else calledNames (next :: rest)
  | _ => []

-- Reads a source file. A file without the registration macro is no listener; any other must
-- hold exactly one registration. `suffix` marks the headers that define events.
def ofStream? (suffix file : String) (stream : Stream) : Except Error (Option SourceFile) :=
  if isCandidate stream then
    match registrations stream.code with
    | [registered] => do
      let name ← resolve file stream registered
      let subscribed := subscriptions stream.code
      return some
        { file := file
          name := name
          inEvents := PerTier.ofFn fun tier =>
            NameSet.ofList ((subscribed.filter (fun s => s.1 = tier)).map Prod.snd)
          created := Event.createdIn stream.tokens
          calls := NameSet.ofList (calledNames stream.tokens)
          mentions := NameSet.ofList stream.identifiers
          definitionFiles := NameSet.ofList
            ((stream.directives.filterMap Directive.includeTarget?).filter
              (fun target => suffix.toList.isSuffixOf target.toList)) }
    | found => .error (.registrationCount file found.length)
  else .ok none

-- Whether the file invokes a callable.
def invokes (source : SourceFile) (callable : Callable) : Bool :=
  if callable.kind.needsCall then callable.name ∈ source.calls
  else callable.name ∈ source.mentions

-- The listener as this file shows it, given every callable of the corpus.
def listener (source : SourceFile) (callables : List Callable) : Listener :=
  { name := source.name
    inEvents := source.inEvents.map some
    outEvents := (callables.filter source.invokes).foldl
      (fun events callable => events.union callable.emits) source.created
    definitionFiles := source.definitionFiles
    files := NameSet.ofList [source.file] }

end Listener.SourceFile

end EventFlow
