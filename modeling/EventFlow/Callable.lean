import EventFlow.Event
import EventFlow.Error
import EventFlow.Names.Map
import EventFlow.Source.Bracket
import EventFlow.Source.Stream

namespace EventFlow

open Source

-- How a callable is defined, which says how an invocation of it looks.
inductive Callable.Kind where
  | function
  | functionMacro
  | objectMacro
  deriving DecidableEq

namespace Callable.Kind

def all : List Callable.Kind := [function, functionMacro, objectMacro]

def label : Callable.Kind → String
  | function => "function"
  | functionMacro => "function_macro"
  | objectMacro => "object_macro"

def ofLabel? (label : String) : Option Callable.Kind := all.find? (fun kind => kind.label = label)

@[simp] theorem ofLabel?_label (kind : Callable.Kind) : ofLabel? kind.label = some kind := by
  cases kind <;> decide

-- Whether only a name with a parenthesis behind it is an invocation.
def needsCall : Callable.Kind → Bool
  | function | functionMacro => true
  | objectMacro => false

end Callable.Kind

-- A function or macro that creates events, in the file that defines it.
structure Callable where
  name : String
  kind : Callable.Kind
  file : String
  emits : NameSet
  deriving DecidableEq

namespace Callable

-- A definition as it stands in a file.
structure Definition where
  name : String
  kind : Kind
  emits : NameSet
  line : Nat
  deriving DecidableEq

-- Words that stand before a parenthesis at file scope without naming a function.
def otherWords : List String :=
  ["if", "while", "for", "switch", "return", "sizeof", "defined", "__attribute__", "alignof",
   "_Alignof", "_Static_assert", "static_assert", "typeof", "__typeof__", "do", "else"]

-- For tokens that begin with parameters and a body, the tokens of the body and those behind it.
def parametersAndBody? (tokens : List Token) : Option (List Token × List Token) :=
  (Token.group? .round tokens).bind fun parameters => Token.group? .curly parameters.2

theorem length_of_parametersAndBody? {tokens body behind : List Token}
    (h : parametersAndBody? tokens = some (body, behind)) : behind.length < tokens.length := by
  obtain ⟨parameters, hp, hb⟩ := Option.bind_eq_some_iff.mp h
  have hp := Token.length_of_group? hp
  have hb := Token.length_of_group? hb
  omega

-- The two tokens before the current one, nearest first.
structure Before where
  last : Option Token
  beforeLast : Option Token

-- Whether a brace here opens a linkage block, whose inside counts as file scope.
def Before.opensLinkage (before : Before) : Bool :=
  before.last.any (fun token => token.kind = .string) &&
    before.beforeLast.any (fun token => token.isWord "extern")

-- The functions defined at file scope. `braces` holds the open braces, innermost first, and for
-- each whether it is a linkage block. A function's body is passed over as a whole.
def functions (braces : List Bool) (before : Before) : List Token → List Definition
  | [] => []
  | token :: rest =>
    let next : Before := ⟨some token, before.last⟩
    if token.isPunctuation '{' then functions (before.opensLinkage :: braces) next rest
    else if token.isPunctuation '}' then functions braces.tail next rest
    else if token.isIdentifier ∧ braces.all id ∧ token.text ∉ otherWords then
      match h : parametersAndBody? rest with
      | some (body, behind) =>
        have := length_of_parametersAndBody? h
        ⟨token.text, .function, Event.createdIn body, token.line⟩ ::
          functions braces ⟨none, none⟩ behind
      | none => functions braces next rest
    else functions braces next rest
termination_by tokens => tokens.length

-- The macro that a preprocessor line defines. `#`, `define` and the name come first.
def macroOf? (stream : Stream) (directive : Directive) : Option Definition :=
  directive.definition?.map fun definition =>
    { name := definition.name
      kind := if definition.takesArguments then .functionMacro else .objectMacro
      emits := Event.createdIn ((stream.within directive).drop 3)
      line := directive.line }

-- Every definition of a file that creates an event, functions first.
def definitions (stream : Stream) : List Definition :=
  (functions [] ⟨none, none⟩ stream.code ++ stream.directives.filterMap (macroOf? stream)).filter
    (fun definition => definition.emits ≠ ∅)

-- The least name that occurs more than once.
def repeated? (names : List String) : Option String :=
  (NameSet.ofList names).toList.find? (fun name => 1 < names.count name)

-- The callables that a file defines. No name may have two definitions that create events.
def inFile (file : String) (stream : Stream) : Except Error (NameMap Definition) :=
  match repeated? ((definitions stream).map Definition.name) with
  | some name => .error (.duplicateCallable name (NameSet.ofList [file]))
  | none => .ok (NameMap.ofList ((definitions stream).map fun d => (d.name, d)))

end Callable

end EventFlow
