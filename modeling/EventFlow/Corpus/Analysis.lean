import EventFlow.Corpus
import EventFlow.Listener.SourceFile
import EventFlow.Model.Basic

namespace EventFlow

open Source

namespace Corpus

-- A file with its tokens. A header whose name a source has too counts as a source.
structure File where
  name : String
  isSource : Bool
  stream : Stream

-- All files in the order of their names, a source before a header of the same name.
def scanned (corpus : Corpus) : List File :=
  ((corpus.sources.entries.merge corpus.headers.entries (fun a b => !decide (b.1 < a.1)))).map
    fun entry => ⟨entry.1, corpus.sources.contains entry.1, Stream.ofText entry.2⟩

-- The definitions of callables in the files that are no listeners, each with its file. The
-- error of the first file counts.
def definitions (files : List File) : Except Error (List (String × Callable.Definition)) := do
  let perFile ← (files.filter (fun file => !Listener.SourceFile.isCandidate file.stream)).mapM
    fun file => do
      let found ← Callable.inFile file.name file.stream
      return found.values.map fun definition => (file.name, definition)
  return perFile.flatten

-- The callables of a corpus. No name may have definitions in two files.
def callables (files : List File) : Except Error (NameMap Callable) := do
  let found ← definitions files
  match Callable.repeated? (found.map fun d => d.2.name) with
  | some name =>
    let places := (found.filter (fun d => d.2.name = name)).map Prod.fst
    throw (.duplicateCallable name (NameSet.ofList places))
  | none =>
    return NameMap.ofList (found.map fun (file, definition) =>
      (definition.name, ⟨definition.name, definition.kind, file, definition.emits⟩))

-- What the sources say about listeners. The error of the first source counts.
def listenerFiles (suffix : String) (files : List File) :
    Except Error (List Listener.SourceFile) := do
  let perFile ← (files.filter File.isSource).mapM fun file =>
    Listener.SourceFile.ofStream? suffix file.name file.stream
  return perFile.filterMap id

-- Adds a record of a listener to those already there under its name.
def addListener (listeners : NameMap Listener) (listener : Listener) : NameMap Listener :=
  match listeners.get? listener.name with
  | some present => listeners.insert listener.name (present.merge listener)
  | none => listeners.insert listener.name listener

-- The model of a corpus. Callables come first, since every source is read against all of them.
def model (corpus : Corpus) (project suffix : String) : Except Error Model := do
  let files := corpus.scanned
  let callables ← callables files
  let sources ← listenerFiles suffix files
  let listeners := sources.map fun source => source.listener callables.values
  return ⟨project, callables, listeners.foldl addListener ∅⟩

end Corpus

end EventFlow
