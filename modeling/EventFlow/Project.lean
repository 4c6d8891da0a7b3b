import EventFlow.Config
import EventFlow.Corpus.Analysis
import EventFlow.Corpus.Gather

namespace EventFlow

-- What is to be analyzed: an application in a directory, and perhaps a framework.
structure Project where
  root : Path
  -- the name that labels begin with, instead of that of the directory
  name : Option String := none
  -- relative to the root
  appDirectory : String := "src"
  frameworkRoot : Option Path := none
  frameworkModules : List String := []
  -- what the names of headers that define events end in
  definitionsSuffix : String := "_def.h"
  deriving DecidableEq

-- A model, and how many files of either corpus it was made from.
structure Project.Analysis where
  root : Path
  model : Model
  appFiles : Nat
  frameworkFiles : Nat
  deriving DecidableEq

namespace Project

-- The name of a project in a directory without a name.
def namelessName : String := "project"

def withoutFramework (project : Project) : Project :=
  { project with frameworkRoot := none, frameworkModules := [] }

-- Takes over the settings that are made. The framework lies relative to the root.
def configure (project : Project) (config : Config) : Project :=
  let sources := config.sources.getD {}
  { project with
    name := config.projectName.or project.name
    appDirectory := sources.appDirectory.getD project.appDirectory
    frameworkRoot := (sources.frameworkRoot.map fun framework => project.root.join ⟨framework⟩).or
      project.frameworkRoot
    frameworkModules := sources.frameworkModules.getD project.frameworkModules
    definitionsSuffix := sources.definitionsSuffix.getD project.definitionsSuffix }

-- The name of the project: one that is set, or that of the directory, which counts as written
-- when it is not there.
def resolvedName (project : Project) (files : FileSystem) : String :=
  match project.name with
  | some name => name
  | none =>
    (match files.nameOf? project.root with
      | .ok name? => name?
      | .error _ => project.root.fileName?).getD namelessName

-- The files of the framework, if there is one.
def frameworkCorpus (project : Project) (files : FileSystem) : Except Error Corpus :=
  match project.frameworkRoot, project.frameworkModules with
  | some root, modules => Corpus.ofFramework files ⟨root⟩ modules
  | none, [] => .ok ∅
  | none, _ =>
    .error (.badArgument "framework modules were selected but no framework root is set")

-- Gathers both corpora and analyzes them together. Files of the application replace those of
-- the framework.
def analyze (project : Project) (files : FileSystem) : Except Error Analysis := do
  let app ← Corpus.ofApplication files (project.root.join ⟨project.appDirectory⟩)
  let framework ← project.frameworkCorpus files
  let model ← (framework.overlay app).model (project.resolvedName files) project.definitionsSuffix
  return ⟨project.root, model, app.size, framework.size⟩

-- The directories that an analysis reads.
def directories (project : Project) : List Path :=
  project.root.join ⟨project.appDirectory⟩ ::
    (project.frameworkRoot.toList.flatMap fun root =>
      [Framework.sourceDirectory ⟨root⟩, Framework.headerDirectory ⟨root⟩])

end Project

end EventFlow
