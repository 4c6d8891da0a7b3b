import EventFlow.Corpus
import EventFlow.FileSystem.Search
import EventFlow.Framework

namespace EventFlow.Corpus

def sourceExtension : String := "c"

def headerExtension : String := "h"

def requireDirectory (files : FileSystem) (directory : Path) : Except Error Unit :=
  if files.isDirectory directory then .ok ()
  else .error (.badArgument s!"{directory.text} is not a directory")

-- The texts of the files with an extension below a directory.
def textsBelow (files : FileSystem) (directory : Path) (extension : String) :
    Except Error (NameMap String) := do
  files.readTexts (← files.search directory [extension])

-- All sources and headers of an application.
def ofApplication (files : FileSystem) (directory : Path) : Except Error Corpus := do
  requireDirectory files directory
  let sources ← textsBelow files directory sourceExtension
  let headers ← textsBelow files directory headerExtension
  return ⟨sources, headers⟩

-- All headers of a framework, and the sources that define events or are selected.
def ofFramework (files : FileSystem) (framework : Framework) (selected : List String) :
    Except Error Corpus := do
  requireDirectory files framework.sourceDirectory
  requireDirectory files framework.headerDirectory
  let sources ← textsBelow files framework.sourceDirectory sourceExtension
  let sources ← Framework.select sources selected
  let headers ← textsBelow files framework.headerDirectory headerExtension
  return ⟨sources, headers⟩

end EventFlow.Corpus
