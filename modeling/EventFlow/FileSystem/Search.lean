import EventFlow.Error
import EventFlow.FileSystem.Basic
import EventFlow.Names.Map
import EventFlow.Text.Utf8

namespace EventFlow.FileSystem

-- Directories that hold no sources of their own.
def skippedDirectories : List String := [".git", "build", "twister-out"]

-- Whether a search enters the directories of these names.
def isEntered (names : List String) : Bool := names.all (fun name => name ∉ skippedDirectories)

def hasExtension (extensions : List String) (name : String) : Bool :=
  (Path.extension? name).any (fun extension => extension ∈ extensions)

-- The names on the way to things below a place, in their order name by name.
def namesBelow (files : FileSystem) (place : Location) (isWanted : List String → Entry → Bool) :
    List (List String) :=
  (((files.below place).filter fun (names, entry) => isWanted names entry).map
    Prod.fst).mergeSort fun a b => !decide (b < a)

-- Whether a thing below the start of a search is a file with one of the extensions, and the
-- directories on the way to it are entered.
def isWantedFile (extensions : List String) (names : List String) (entry : Entry) : Bool :=
  entry ≠ .directory && isEntered names.dropLast && names.getLast?.any (hasExtension extensions)

def isEnteredDirectory (names : List String) (entry : Entry) : Bool :=
  entry = .directory && isEntered names

-- The path of a thing below another one.
def pathBelow (root : Path) (names : List String) : Path :=
  names.foldl (fun path name => path.join ⟨name⟩) root

-- The first directory that a search has to enter and cannot open. Its path may be too long although
-- the one of the directory around it is not.
def unopened? (files : FileSystem) (root : Path) (place : Location) : Option Error :=
  (files.namesBelow place isEnteredDirectory).findSome? fun names =>
    let path := pathBelow root names
    match files.resolve path with
    | .error fault => some (.unsearchable path.text fault.message)
    | .ok _ => none

-- The files with one of the extensions, at a path or below it. A directory of a skipped name is
-- not searched even if the search starts there.
def search (files : FileSystem) (root : Path) (extensions : List String) :
    Except Error (List Path) :=
  match files.resolve root with
  | .error fault => .error (.unsearchable root.text fault.message)
  | .ok (_, .file _) =>
    .ok (if root.fileName?.any (hasExtension extensions) then [root] else [])
  | .ok (place, .directory) =>
    if root.fileName?.getD root.text ∈ skippedDirectories then .ok []
    else
      match files.unopened? root place with
      | some error => .error error
      | none => .ok ((files.namesBelow place (isWantedFile extensions)).map (pathBelow root))

-- The text of a file. Octets that form no character are replaced.
def readText (files : FileSystem) (path : Path) : Except Error String :=
  match files.read path with
  | .ok octets => .ok (Text.Utf8.decodeLossy octets)
  | .error fault => .error (.unreadable path.text fault.message)

-- The texts of files by their bare names. Of two files with one name the first counts.
def readTexts (files : FileSystem) (paths : List Path) : Except Error (NameMap String) := do
  let texts ← paths.mapM fun path => do
    let text ← files.readText path
    return path.fileName?.map fun name => (name, text)
  return NameMap.ofList (texts.filterMap id).reverse

end EventFlow.FileSystem
