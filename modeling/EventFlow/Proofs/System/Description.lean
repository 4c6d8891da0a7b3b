import EventFlow.Graph.Basic
import EventFlow.Proofs.Listener.Merge
import EventFlow.Proofs.Source.Piece

namespace EventFlow

-- A function or macro that creates events wherever it is invoked.
structure System.Helper where
  name : String
  kind : Callable.Kind
  events : List String
  deriving DecidableEq

-- A line of a listener file: a subscription, or a function that creates an event itself or
-- uses a helper.
inductive System.Statement where
  | subscribes (tier : Tier) (event : String)
  | creates (function event : String)
  | uses (function : String) (helper : System.Helper)
  deriving DecidableEq

-- A source with one registration, above and below which stand any lines.
structure System.ListenerFile where
  name : String
  handler : String
  above : List System.Statement
  below : List System.Statement
  deriving DecidableEq

inductive System.Content where
  | defines (helpers : List System.Helper)
  | registers (file : System.ListenerFile)
  deriving DecidableEq

-- An application, told by what its files are there for.
structure System where
  sources : NameMap System.Content
  headers : NameMap (List System.Helper)
  deriving DecidableEq

namespace System

def registrationMacro : String := "APP_EVENT_LISTENER"

def subscriptionMacro (tier : Tier) : String := "APP_EVENT_SUBSCRIBE" ++ tier.suffix

def functionText (name body : String) : String :=
  "void " ++ name ++ "(void) \x7b" ++ body ++ " \x7d\n"

namespace Helper

def text (helper : Helper) : String :=
  match helper.kind with
  | .function => functionText helper.name
      (String.join (helper.events.map fun event => " new_" ++ event ++ "();"))
  | .functionMacro => "#define " ++ helper.name ++ "(x)" ++
      String.join (helper.events.map fun event => " new_" ++ event ++ "()") ++ "\n"
  | .objectMacro => "#define " ++ helper.name ++
      String.join (helper.events.map fun event => " new_" ++ event ++ "()") ++ "\n"

def invocation (helper : Helper) : String :=
  match helper.kind with
  | .function | .functionMacro => helper.name ++ "();"
  | .objectMacro => helper.name ++ ";"

end Helper

namespace ListenerFile

def statements (file : ListenerFile) : List Statement := file.above ++ file.below

def textOf (file : ListenerFile) : Statement → String
  | .subscribes tier event => subscriptionMacro tier ++ "(" ++ file.name ++ ", " ++ event ++ ");\n"
  | .creates function event => functionText function (" new_" ++ event ++ "();")
  | .uses function helper => functionText function (" " ++ helper.invocation)

def registration (file : ListenerFile) : String :=
  registrationMacro ++ "(" ++ file.name ++ ", " ++ file.handler ++ ");\n"

def text (file : ListenerFile) : String :=
  String.join (file.above.map file.textOf ++ file.registration :: file.below.map file.textOf)

end ListenerFile

def helpersText (helpers : List Helper) : String := String.join (helpers.map Helper.text)

def Content.text : Content → String
  | .defines helpers => helpersText helpers
  | .registers file => file.text

def corpus (system : System) : Corpus :=
  ⟨system.sources.mapValues Content.text, system.headers.mapValues helpersText⟩

example : Helper.text ⟨"send", .function, ["a_event", "b_event"]⟩ =
    "void send(void) { new_a_event(); new_b_event(); }\n" := by decide

def Content.helpers : Content → List Helper
  | .defines defined => defined
  | .registers _ => []

-- The helpers of each file, sources before headers.
def helperFiles (system : System) : List (String × List Helper) :=
  system.sources.entries.map (fun entry => (entry.1, entry.2.helpers)) ++ system.headers.entries

def listenerFiles (system : System) : List (String × ListenerFile) :=
  system.sources.entries.filterMap fun (file, content) =>
    match content with
    | .defines _ => none
    | .registers listener => some (file, listener)

def helpers (system : System) : List Helper := system.helperFiles.flatMap Prod.snd

-- The name of an event that can be created: a stem and the ending.
def isEventName (event : String) : Bool :=
  Source.isIdentifier event && "_event".toList.isSuffixOf event.toList &&
    decide ("_event".length < event.length)

-- A helper has a name of its own and creates some event.
structure Helper.Sound (helper : Helper) : Prop where
  identifier : Source.isIdentifier helper.name
  free : helper.name ∉ Callable.otherWords
  events_ne_nil : helper.events ≠ []
  events_named : ∀ event ∈ helper.events, isEventName event

-- The names in a line are identifiers, and its helper belongs to the system.
def Statement.Sound (system : System) : Statement → Prop
  | subscribes _ event => Source.isIdentifier event
  | creates function event => Source.isIdentifier function ∧ isEventName event
  | uses function helper => Source.isIdentifier function ∧ helper ∈ system.helpers

structure ListenerFile.Sound (system : System) (file : ListenerFile) : Prop where
  name_identifier : Source.isIdentifier file.name
  handler_identifier : Source.isIdentifier file.handler
  statements_sound : ∀ statement ∈ file.statements, statement.Sound system

-- The identifiers of a line, but for the name of a helper.
def Statement.names : Statement → List String
  | subscribes tier event => [subscriptionMacro tier, event]
  | creates function event => ["void", function, "new_" ++ event]
  | uses function _ => ["void", function]

def ListenerFile.names (file : ListenerFile) : List String :=
  [registrationMacro, file.name, file.handler] ++ file.statements.flatMap Statement.names

-- Every name is an identifier, and the name of a helper stands for that helper alone.
structure Described (system : System) : Prop where
  helpers_sound : ∀ helper ∈ system.helpers, helper.Sound
  helpers_distinct : (system.helpers.map Helper.name).Nodup
  helpers_apart : ∀ helper ∈ system.helpers, ∀ entry ∈ system.listenerFiles,
    helper.name ∉ entry.2.names
  listeners_sound : ∀ entry ∈ system.listenerFiles, entry.2.Sound system

-- The names in a line that are free to be chosen look like no creation of an event, and those
-- of functions like no subscription macro.
def Statement.Unmistakable : Statement → Prop
  | subscribes _ event => Event.createdBy? event = none
  | creates function _ => Event.createdBy? function = none ∧
      Listener.SourceFile.subscribes? function = none
  | uses function helper => Event.createdBy? function = none ∧
      Listener.SourceFile.subscribes? function = none ∧ Event.createdBy? helper.name = none

-- No name is taken for more than a name.
structure Unmistakable (system : System) : Prop where
  helpers : ∀ helper ∈ system.helpers, Listener.SourceFile.registers helper.name = false
  listeners : ∀ entry ∈ system.listenerFiles,
    Event.createdBy? entry.2.name = none ∧ Event.createdBy? entry.2.handler = none
  statements : ∀ entry ∈ system.listenerFiles, ∀ statement ∈ entry.2.statements,
    statement.Unmistakable

section Decide

variable (system : System)

instance (helper : Helper) : Decidable helper.Sound :=
  decidable_of_iff (Source.isIdentifier helper.name ∧ helper.name ∉ Callable.otherWords ∧
      helper.events ≠ [] ∧ ∀ event ∈ helper.events, isEventName event)
    ⟨fun ⟨a, b, c, d⟩ => ⟨a, b, c, d⟩, fun ⟨a, b, c, d⟩ => ⟨a, b, c, d⟩⟩

instance (statement : Statement) : Decidable (statement.Sound system) := by
  cases statement <;> unfold Statement.Sound <;> infer_instance

instance (file : ListenerFile) : Decidable (file.Sound system) :=
  decidable_of_iff (Source.isIdentifier file.name ∧ Source.isIdentifier file.handler ∧
      ∀ statement ∈ file.statements, statement.Sound system)
    ⟨fun ⟨a, b, c⟩ => ⟨a, b, c⟩, fun ⟨a, b, c⟩ => ⟨a, b, c⟩⟩

instance (statement : Statement) : Decidable statement.Unmistakable := by
  cases statement <;> unfold Statement.Unmistakable <;> infer_instance

instance : Decidable system.Described :=
  decidable_of_iff ((∀ helper ∈ system.helpers, helper.Sound) ∧
      (system.helpers.map Helper.name).Nodup ∧
      (∀ helper ∈ system.helpers, ∀ entry ∈ system.listenerFiles, helper.name ∉ entry.2.names) ∧
      ∀ entry ∈ system.listenerFiles, entry.2.Sound system)
    ⟨fun ⟨a, b, c, d⟩ => ⟨a, b, c, d⟩, fun ⟨a, b, c, d⟩ => ⟨a, b, c, d⟩⟩

instance : Decidable system.Unmistakable :=
  decidable_of_iff ((∀ helper ∈ system.helpers, Listener.SourceFile.registers helper.name = false) ∧
      (∀ entry ∈ system.listenerFiles, Event.createdBy? entry.2.name = none ∧
        Event.createdBy? entry.2.handler = none) ∧
      ∀ entry ∈ system.listenerFiles, ∀ statement ∈ entry.2.statements, statement.Unmistakable)
    ⟨fun ⟨a, b, c⟩ => ⟨a, b, c⟩, fun ⟨a, b, c⟩ => ⟨a, b, c⟩⟩

end Decide

-- What a listener of the name subscribes to and creates.
def Subscribes (system : System) (name : String) (tier : Tier) (event : String) : Prop :=
  ∃ entry ∈ system.listenerFiles, entry.2.name = name ∧
    Statement.subscribes tier event ∈ entry.2.statements

def Creates (system : System) (name event : String) : Prop :=
  ∃ entry ∈ system.listenerFiles, entry.2.name = name ∧
    ((∃ function, Statement.creates function event ∈ entry.2.statements) ∨
      ∃ function helper, Statement.uses function helper ∈ entry.2.statements ∧
        event ∈ helper.events)

-- The earliest tier at which it subscribes.
def SubscribesFirst (system : System) (name : String) (tier : Tier) (event : String) : Prop :=
  system.Subscribes name tier event ∧
    ∀ earlier : Tier, earlier.rank < tier.rank → ¬ system.Subscribes name earlier event

end System

end EventFlow
