import EventFlow.Error
import EventFlow.FileSystem.Basic
import EventFlow.Text.Utf8
import EventFlow.Toml.Reader

namespace EventFlow

-- Where the sources of a project are.
structure Config.Sources where
  appDirectory : Option String := none
  frameworkRoot : Option String := none
  frameworkModules : Option (List String) := none
  definitionsSuffix : Option String := none
  deriving DecidableEq

-- How the documents of a project are laid out.
structure Config.Documents where
  collapseAt : Option Nat := none
  indexFrom : Option Nat := none
  title : Option String := none
  deriving DecidableEq

-- The settings of a project. Each of them may be left out.
structure Config where
  projectName : Option String := none
  sources : Option Config.Sources := none
  documents : Option Config.Documents := none
  deriving DecidableEq

namespace Config

open Toml

-- The file of the settings in the directory of a project.
def fileName : String := "evprop.toml"

def text? : Value → Option String
  | .string text => some text
  | _ => none

def natural? : Value → Option Nat
  | .integer (.ofNat value) => some value
  | _ => none

def texts? : Value → Option (List String)
  | .array elements => elements.mapM text?
  | _ => none

-- Reads a setting that may be left out, but not be of another kind.
def setting? {α : Type} (read? : Value → Option α) (value : Option Value) : Option (Option α) :=
  match value with
  | none => some none
  | some value => (read? value).map some

-- The values of a section by the names of its settings. A section may also be an array that has
-- a value for each setting in order. No other setting is known.
def section? (names : List String) : Value → Option (List (Option Value))
  | .table _ members =>
    if members.all (fun m => m.1 ∈ names) then some (names.map (Members.get? members)) else none
  | .array elements =>
    if names.length ≤ elements.length then some ((elements.take names.length).map some) else none
  | _ => none

def Sources.ofValue? (value : Value) : Option Sources := do
  match ← section? ["app_dir", "framework_root", "framework_modules",
    "definitions_suffix"] value with
  | [directory, root, modules, suffix] =>
    return { appDirectory := ← setting? text? directory
             frameworkRoot := ← setting? text? root
             frameworkModules := ← setting? texts? modules
             definitionsSuffix := ← setting? text? suffix }
  | _ => none

def Documents.ofValue? (value : Value) : Option Documents := do
  match ← section? ["fan_out_collapse_threshold", "index_module_count_threshold",
    "propagation_title"] value with
  | [collapse, index, title] =>
    return { collapseAt := ← setting? natural? collapse
             indexFrom := ← setting? natural? index
             title := ← setting? text? title }
  | _ => none

def ofMembers? (members : Members) : Option Config := do
  match ← section? ["project_name", "sources", "report"] (.table .header members) with
  | [name, sources, documents] =>
    return { projectName := ← setting? text? name
             sources := ← setting? Sources.ofValue? sources
             documents := ← setting? Documents.ofValue? documents }
  | _ => none

-- The settings in a file.
def ofFile (files : FileSystem) (path : Path) : Except Error Config :=
  match files.read path with
  | .error fault => .error (.unreadable path.text fault.message)
  | .ok octets =>
    match Text.Utf8.decode? octets with
    | none => .error (.unreadable path.text "stream did not contain valid UTF-8")
    | some text =>
      match parse? text with
      | none => .error (.badConfig path.text s!"Invalid {fileName}: not well-formed")
      | some members =>
        match ofMembers? members with
        | none => .error (.badConfig path.text s!"Invalid {fileName}: not a configuration")
        | some config => .ok config

-- The settings of the project in a directory, if it has any.
def ofProject (files : FileSystem) (root : Path) : Except Error (Option Config) :=
  let path := root.join ⟨fileName⟩
  if files.doesExist path then (ofFile files path).map some else .ok none

end Config

end EventFlow
