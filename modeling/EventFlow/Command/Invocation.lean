import EventFlow.Path
import EventFlow.Text.Digit

namespace EventFlow

-- What one run of the command is asked to do.
structure Invocation where
  path : String := "."
  config : Option Path := none
  appDirectory : Option String := none
  frameworkRoot : Option Path := none
  frameworkModules : List String := []
  noFramework : Bool := false
  projectName : Option String := none
  outDirectory : Option Path := none
  collapseAt : Option Nat := none
  indexFrom : Option Nat := none
  indexAll : Bool := false
  json : Bool := false
  listener : Option String := none
  dot : Bool := false
  dotFile : Option Path := none
  logJson : Bool := false
  deriving DecidableEq

namespace Invocation

-- The flags that stand alone.
inductive Switch where
  | noFramework
  | indexAll
  | json
  | dot
  | logJson
  deriving DecidableEq

-- The flags with a value.
inductive Setting where
  | config
  | appDirectory
  | frameworkRoot
  | frameworkModule
  | projectName
  | outDirectory
  | collapseAt
  | indexFrom
  | listener
  | dotFile
  deriving DecidableEq

namespace Switch

def all : List Switch := [noFramework, indexAll, json, dot, logJson]

def flag : Switch → String
  | noFramework => "--no-framework"
  | indexAll => "--no-index-threshold"
  | json => "--json"
  | dot => "--dot"
  | logJson => "--log-json"

def ofFlag? (flag : String) : Option Switch := all.find? (fun switch => switch.flag = flag)

end Switch

namespace Setting

def all : List Setting :=
  [config, appDirectory, frameworkRoot, frameworkModule, projectName, outDirectory, collapseAt,
   indexFrom, listener, dotFile]

def flag : Setting → String
  | config => "--config"
  | appDirectory => "--app-dir"
  | frameworkRoot => "--framework-root"
  | frameworkModule => "--framework-module"
  | projectName => "--project-name"
  | outDirectory => "--out-dir"
  | collapseAt => "--collapse-threshold"
  | indexFrom => "--index-threshold"
  | listener => "--listener"
  | dotFile => "--dot-file"

def ofFlag? (flag : String) : Option Setting := all.find? (fun setting => setting.flag = flag)

end Setting

-- Why the words of a command line ask for nothing.
inductive Fault where
  | unknownFlag (word : String)
  | unexpectedValue (flag : String)
  | missingValue (flag : String)
  | repeated (flag : String)
  | noNumber (flag value : String)
  | surplus (word : String)
  | conflict (first second : String)
  deriving DecidableEq

def Fault.message : Fault → String
  | unknownFlag word => s!"unexpected argument '{word}'"
  | unexpectedValue flag => s!"'{flag}' takes no value"
  | missingValue flag => s!"'{flag}' needs a value"
  | repeated flag => s!"'{flag}' is given more than once"
  | noNumber flag value => s!"invalid value '{value}' for '{flag}'"
  | surplus word => s!"unexpected argument '{word}'"
  | conflict first second => s!"'{first}' cannot be used with '{second}'"

inductive Argument where
  | switch (switch : Switch)
  | setting (setting : Setting) (value : String)
  | path (text : String)
  deriving DecidableEq

-- A word that begins with a dash is a flag, except for the dash alone.
def isFlag (word : String) : Bool := word.toList.head? = some '-' && word ≠ "-"

-- A flag, and the value that stands behind an equals sign in the same word.
def splitFlag (word : String) : String × Option String :=
  match word.toList.span (fun c => c ≠ '=') with
  | (flag, _ :: value) => (String.ofList flag, some (String.ofList value))
  | (flag, []) => (String.ofList flag, none)

-- The words of a command line as arguments. Behind two dashes no word is a flag.
def arguments : List String → Except Fault (List Argument)
  | [] => .ok []
  | word :: rest =>
    if word = "--" then .ok (rest.map Argument.path)
    else if !isFlag word then (arguments rest).map (Argument.path word :: ·)
    else
      match Switch.ofFlag? (splitFlag word).1, Setting.ofFlag? (splitFlag word).1,
        (splitFlag word).2 with
      | some switch, _, none => (arguments rest).map (Argument.switch switch :: ·)
      | some switch, _, some _ => .error (.unexpectedValue switch.flag)
      | none, some setting, some value =>
        (arguments rest).map (Argument.setting setting value :: ·)
      | none, some setting, none =>
        match rest with
        | value :: rest =>
          if isFlag value then .error (.missingValue setting.flag)
          else (arguments rest).map (Argument.setting setting value :: ·)
        | [] => .error (.missingValue setting.flag)
      | none, none, _ => .error (.unknownFlag word)

-- A path may not be empty.
def pathOf (setting : Setting) (value : String) : Except Fault Path :=
  if value = "" then .error (.missingValue setting.flag) else .ok ⟨value⟩

-- A number of 64 bits, which may have a plus sign.
def numberOf (setting : Setting) (value : String) : Except Fault Nat :=
  let digits := match value.toList with
    | '+' :: digits => digits
    | digits => digits
  match Text.natural? 10 digits with
  | some number =>
    if number < 18446744073709551616 then .ok number else .error (.noNumber setting.flag value)
  | none => .error (.noNumber setting.flag value)

-- Takes over one argument. Paths are counted apart.
def apply (invocation : Invocation) : Argument → Except Fault Invocation
  | .path _ => .ok invocation
  | .switch switch => .ok <|
    match switch with
    | .noFramework => { invocation with noFramework := true }
    | .indexAll => { invocation with indexAll := true }
    | .json => { invocation with json := true }
    | .dot => { invocation with dot := true }
    | .logJson => { invocation with logJson := true }
  | .setting setting value => do
    match setting with
    | .config => return { invocation with config := some (← pathOf setting value) }
    | .appDirectory => return { invocation with appDirectory := some value }
    | .frameworkRoot => return { invocation with frameworkRoot := some (← pathOf setting value) }
    | .frameworkModule =>
      return { invocation with frameworkModules := invocation.frameworkModules ++ [value] }
    | .projectName => return { invocation with projectName := some value }
    | .outDirectory => return { invocation with outDirectory := some (← pathOf setting value) }
    | .collapseAt => return { invocation with collapseAt := some (← numberOf setting value) }
    | .indexFrom => return { invocation with indexFrom := some (← numberOf setting value) }
    | .listener => return { invocation with listener := some value }
    | .dotFile => return { invocation with dotFile := some (← pathOf setting value) }

-- The flags among the arguments that may stand there only once.
def singleFlags (arguments : List Argument) : List String :=
  arguments.filterMap fun
    | .switch switch => some switch.flag
    | .setting setting _ => if setting = .frameworkModule then none else some setting.flag
    | .path _ => none

def paths (arguments : List Argument) : List String :=
  arguments.filterMap fun
    | .path text => some text
    | .switch _ | .setting _ _ => none

-- Reads the words of a command line.
def ofWords (words : List String) : Except Fault Invocation := do
  let arguments ← arguments words
  let flags := singleFlags arguments
  match flags.find? (fun flag => 1 < flags.count flag) with
  | some flag => throw (.repeated flag)
  | none => pure ()
  let invocation ← arguments.foldlM apply {}
  if invocation.indexAll ∧ invocation.indexFrom.isSome then
    throw (.conflict Switch.indexAll.flag Setting.indexFrom.flag)
  match paths arguments with
  | [] => return invocation
  | [path] => return { invocation with path := path }
  | _ :: word :: _ => throw (.surplus word)

end Invocation

end EventFlow
