import EventFlow.Command.Invocation
import EventFlow.Graph.Dot
import EventFlow.Model.Json
import EventFlow.Project
import EventFlow.Report.Documents
import EventFlow.Report.Summary

namespace EventFlow

-- Why a run has failed: what it tried to do, and the causes, nearest first.
structure Failure where
  attempt : String
  causes : List String
  deriving DecidableEq

namespace Failure

-- Starts a cause with a mark. Its further lines are indented.
def marked (mark indent : String) (cause : String) : String :=
  mark ++ (String.ofList ('\n' :: indent.toList)).intercalate
    ((cause.toList.splitOn '\n').map String.ofList)

-- The causes as lines. Several causes are numbered.
def causeLines (causes : List String) : List String :=
  match causes with
  | [cause] => [marked "    " "    " cause]
  | several => several.zipIdx.map fun (cause, index) =>
      let number := toString index
      let blanks := String.ofList (List.replicate (5 - number.length) ' ')
      marked (blanks ++ number ++ ": ") "       " cause

def text (failure : Failure) : String :=
  let causes := if failure.causes = [] then ""
    else "\n\nCaused by:\n" ++ "\n".intercalate (causeLines failure.causes)
  "Error: " ++ failure.attempt ++ causes

end Failure

-- What a run leaves behind.
structure Outcome where
  exitCode : Nat
  output : String
  failure : Option Failure
  files : FileSystem
  deriving DecidableEq

namespace Invocation

-- The least number of modules for the index, unless it is set.
def usualIndexFrom : Nat := 7

def usualOutDirectory : String := "doc"

def root (invocation : Invocation) : Path := ⟨invocation.path⟩

-- The settings of the file that is named, or of the one in the project's directory.
def settings (invocation : Invocation) (files : FileSystem) : Except Failure (Option Config) :=
  match invocation.config with
  | some path =>
    ((Config.ofFile files path).map some).mapError fun error =>
      ⟨s!"Failed to load config {path.text}", error.chain⟩
  | none =>
    (Config.ofProject files invocation.root).mapError fun error =>
      ⟨"Failed to load project config", error.chain⟩

-- The project to analyze. Flags go before settings. `base` is the tree of the base system, beside
-- which the framework lies when nothing else is said.
def project (invocation : Invocation) (config : Option Config) (base : Option Path) : Project :=
  let plain : Project := { root := invocation.root }
  let configured := match config with
    | some config => plain.configure config
    | none => plain
  let project := { configured with
    name := invocation.projectName.or configured.name
    appDirectory := invocation.appDirectory.getD configured.appDirectory
    frameworkRoot := invocation.frameworkRoot.or configured.frameworkRoot
    frameworkModules := if invocation.frameworkModules = [] then configured.frameworkModules
      else invocation.frameworkModules }
  if invocation.noFramework then project.withoutFramework
  else { project with
    frameworkRoot := project.frameworkRoot.or
      ((base.bind Framework.besideBase?).map Framework.root) }

-- How the documents are laid out. Flags go before settings.
def options (invocation : Invocation) (config : Option Config) : Report.Options :=
  let usual : Report.Options := {}
  let settings := (config.bind Config.documents).getD {}
  { project := none
    collapseAt := (invocation.collapseAt.or settings.collapseAt).getD usual.collapseAt
    indexFrom := if invocation.indexAll then none
      else (invocation.indexFrom.or settings.indexFrom).or (some usualIndexFrom)
    title := settings.title }

-- What is printed first: the table of one listener, or the model in one of two forms. There is
-- nothing to print for a listener that is not known.
def report? (invocation : Invocation) (model : Model) (options : Report.Options) : Option String :=
  match invocation.listener with
  | some name =>
    ((Report.listenerTable (Graph.ofModel model) options name).map (· ++ "\n")).toOption
  | none => some (if invocation.json then model.jsonReport ++ "\n" else model.summary)

-- The directory for the documents.
def documentDirectory (invocation : Invocation) : Path :=
  invocation.outDirectory.getD (invocation.root.join ⟨usualOutDirectory⟩)

-- The graph in the DOT language, unless it goes into a file or is not asked for.
def printedDot (invocation : Invocation) (graph : Graph) : String :=
  if invocation.dot ∧ invocation.dotFile = none then graph.dot ++ "\n" else ""

-- The files to write, in their order: both documents, then the graph if it has a file.
def writings (invocation : Invocation) (graph : Graph) (documents : List (String × String)) :
    List (Path × String) :=
  documents.map (fun (name, text) => (invocation.documentDirectory.join ⟨name⟩, text))
    ++ invocation.dotFile.toList.map (fun path => (path, graph.dot))

-- Writes files one after the other until one cannot be written.
def writeAll (files : FileSystem) : List (Path × String) → FileSystem × Option Failure
  | [] => (files, none)
  | (path, text) :: rest =>
    match files.write path (Text.Utf8.encode text) with
    | .ok files => writeAll files rest
    | .error fault => (files, some ⟨s!"Failed to write {path.text}", [fault.message]⟩)

-- Writes the documents, and the graph if it has a file.
def publish (invocation : Invocation) (graph : Graph) (documents : List (String × String))
    (files : FileSystem) : FileSystem × Option Failure :=
  let directory := invocation.documentDirectory
  match files.makeDirectories directory with
  | (files, some fault) =>
    (files, some ⟨s!"Failed to create {directory.text}", [fault.message]⟩)
  | (files, none) => writeAll files (invocation.writings graph documents)

-- The outcome for a model: something is printed, then the documents are written, then the graph.
-- A listener that is not known fails the run only in the end.
def outcomeOf (invocation : Invocation) (model : Model) (options : Report.Options)
    (files : FileSystem) : Outcome :=
  let graph := Graph.ofModel model
  let report := invocation.report? model options
  let printed := report.getD ""
  match Report.documents graph options with
  | .error error => ⟨1, printed, some ⟨"Failed to render documents", error.chain⟩, files⟩
  | .ok documents =>
    match invocation.publish graph documents files with
    | (files, some failure) => ⟨1, printed, some failure, files⟩
    | (files, none) =>
      ⟨if report = none then 1 else 0, printed ++ invocation.printedDot graph, none, files⟩

-- Runs the command. Nothing is written unless the settings can be read and the project analyzed.
def run (invocation : Invocation) (base : Option Path) (files : FileSystem) : Outcome :=
  match invocation.settings files with
  | .error failure => ⟨1, "", some failure, files⟩
  | .ok config =>
    match (invocation.project config base).analyze files with
    | .error error =>
      ⟨1, "", some ⟨s!"Failed to analyze {invocation.path}", error.chain⟩, files⟩
    | .ok analysis => invocation.outcomeOf analysis.model (invocation.options config) files

end Invocation

end EventFlow
