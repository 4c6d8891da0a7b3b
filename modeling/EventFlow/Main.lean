import EventFlow.Command.Outcome

namespace EventFlow.Main

-- The command reads what a run may look at into a snapshot, and afterwards writes what the run
-- has added to it.

def textOf (location : Location) : String := "/" ++ "/".intercalate location

-- Puts what lies in a place into the snapshot. A file without a wanted extension is left out
-- when there is a list of extensions.
def addPlace (files : FileSystem) (extensions? : Option (List String)) (location : Location) :
    IO FileSystem := do
  try
    let found ← IO.FS.realPath (textOf location)
    if ← found.isDir then return files.put location .directory
    else
      let name := location.getLastD ""
      let wanted := match extensions? with
        | some extensions => FileSystem.hasExtension extensions name
        | none => true
      if wanted then return files.put location (.file (← IO.FS.readBinFile found).data.toList)
      else return files
  catch _ => return files

-- Puts every source and header below a directory into the snapshot.
partial def addBelow (files : FileSystem) (location : Location) : IO FileSystem := do
  let directory ← IO.FS.realPath (textOf location)
  let mut files := files
  for item in ← directory.readDir do
    let place := location ++ [item.fileName]
    files ← addPlace files (some [Corpus.sourceExtension, Corpus.headerExtension]) place
    if files.lookup? place = some .directory then files ← addBelow files place
  return files

-- Puts a path and those above it into the snapshot.
def addPath (files : FileSystem) (path : Path) : IO FileSystem :=
  (path.above.reverse ++ [path]).foldlM (fun files path =>
    match files.origin path >>= fun place => files.follow place path.segments with
    | .ok location => addPlace files none location
    | .error _ => pure files) files

-- Puts a directory with its sources and headers into the snapshot.
def addDirectory (files : FileSystem) (path : Path) : IO FileSystem := do
  let files ← addPath files path
  match files.resolve path with
  | .ok (location, .directory) => addBelow files location
  | _ => return files

-- The snapshot of the current directory and those above it.
def startSnapshot : IO FileSystem := do
  let current := (Path.mk (← IO.FS.realPath ".").toString).steps
  let places := (List.range current.length).map fun count => current.take (count + 1)
  return ⟨current, places.map fun place => (place, .directory)⟩

-- Writes what is new or different in the second snapshot.
def writeBack (before after : FileSystem) : IO Unit :=
  after.entries.forM fun (location, entry) => do
    if before.lookup? location ≠ some entry then
      match entry with
      | .directory => IO.FS.createDirAll (textOf location)
      | .file octets => IO.FS.writeBinFile (textOf location) ⟨octets.toArray⟩

def perform (invocation : Invocation) (base : Option Path) : IO UInt32 := do
  let shallow := [invocation.config.getD (invocation.root.join ⟨Config.fileName⟩),
    invocation.root] ++ invocation.dotFile.toList
    ++ [Report.propagationFile, Report.indexFile].map fun name =>
      invocation.documentDirectory.join ⟨name⟩
  let files ← shallow.foldlM addPath (← startSnapshot)
  let config := (invocation.settings files).toOption.getD none
  let files ← (invocation.project config base).directories.foldlM addDirectory files
  let outcome := invocation.run base files
  IO.print outcome.output
  writeBack files outcome.files
  match outcome.failure with
  | some failure => IO.eprintln failure.text
  | none => pure ()
  return outcome.exitCode.toUInt32

-- Runs the command with the words of its command line. Words that ask for nothing end with
-- code two.
def start (words : List String) : IO UInt32 := do
  match Invocation.ofWords words with
  | .error fault =>
    IO.eprintln ("error: " ++ fault.message)
    return 2
  | .ok invocation =>
    let base ← IO.getEnv "ZEPHYR_BASE"
    perform invocation (base.map Path.mk)

end EventFlow.Main

def main (words : List String) : IO UInt32 := EventFlow.Main.start words
