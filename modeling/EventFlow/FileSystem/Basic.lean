import EventFlow.Path

namespace EventFlow

-- Where something lies, as the names on the way from the root directory.
abbrev Location := List String

inductive FileSystem.Entry where
  | directory
  | file (octets : List UInt8)
  deriving DecidableEq

-- Why the system refuses an operation on a path.
inductive FileSystem.Fault where
  | notFound
  | alreadyExists
  | notDirectory
  | isDirectory
  | nameTooLong
  -- a NUL, which no path can hold
  | nulInside
  -- not even the first directory on the way is there
  | noTree
  deriving DecidableEq

-- The directories and files at one time, and the directory from which relative paths start.
-- The root directory is always there and has no entry.
structure FileSystem where
  current : Location
  entries : List (Location × FileSystem.Entry)
  deriving DecidableEq

namespace FileSystem

def Fault.message : Fault → String
  | notFound => "No such file or directory (os error 2)"
  | alreadyExists => "File exists (os error 17)"
  | notDirectory => "Not a directory (os error 20)"
  | isDirectory => "Is a directory (os error 21)"
  | nameTooLong => "File name too long (os error 36)"
  | nulInside => "file name contained an unexpected NUL byte"
  | noTree => "failed to create whole tree"

-- The most octets in a name, and in a whole path.
def maxName : Nat := 255

def maxPath : Nat := 4095

def lookup? (files : FileSystem) (location : Location) : Option Entry :=
  if location = [] then some .directory
  else (files.entries.find? (fun entry => entry.1 = location)).map Prod.snd

-- Puts an entry in a place, where it replaces the one that is there.
def put (files : FileSystem) (location : Location) (entry : Entry) : FileSystem :=
  if files.entries.any (fun other => other.1 = location) then
    { files with entries := files.entries.map fun other =>
        if other.1 = location then (location, entry) else other }
  else { files with entries := files.entries ++ [(location, entry)] }

-- Replacing entries in their places keeps what is found, up to the replacement.
theorem find?_map_replace (location other : Location) (entry : Entry)
    (entries : List (Location × Entry)) :
    (entries.map fun present => if present.1 = location then (location, entry) else present).find?
        (fun present => present.1 = other) =
      (entries.find? (fun present => present.1 = other)).map fun present =>
        if present.1 = location then (location, entry) else present := by
  induction entries with
  | nil => rfl
  | cons head tail ih =>
    by_cases hhead : head.1 = other
    · by_cases hloc : head.1 = location
      · simp [← hhead, hloc]
      · simp [hhead, hhead ▸ hloc]
    · by_cases hloc : head.1 = location
      · have hne : location ≠ other := fun e => hhead (hloc.trans e)
        simpa [hloc, hne] using ih
      · simpa [hhead, hloc] using ih

-- Only the place that is put into changes.
@[simp] theorem lookup?_put (files : FileSystem) (location other : Location) (entry : Entry)
    (h : other ≠ []) :
    (files.put location entry).lookup? other =
      if other = location then some entry else files.lookup? other := by
  unfold put
  split
  · rename_i hany
    simp only [lookup?, h, if_false, find?_map_replace]
    by_cases heq : other = location
    · subst heq
      obtain ⟨present, hmem, hloc⟩ := List.any_eq_true.mp hany
      cases hfind : files.entries.find? (fun present => present.1 = other) with
      | none => exact absurd hloc (List.find?_eq_none.mp hfind present hmem)
      | some found =>
        have hfound : found.1 = other := by simpa using List.find?_some hfind
        simp [hfound]
    · cases hfind : files.entries.find? (fun present => present.1 = other) with
      | none => simp [heq]
      | some found =>
        have hfound : found.1 = other := by simpa using List.find?_some hfind
        simp [heq, hfound]
  · rename_i hany
    simp only [lookup?, h, if_false, List.find?_append]
    by_cases heq : other = location
    · subst heq
      have hnone : files.entries.find? (fun present => present.1 = other) = none := by
        refine List.find?_eq_none.mpr fun present hmem hloc => hany ?_
        exact List.any_eq_true.mpr ⟨present, hmem, hloc⟩
      simp [hnone]
    · simp [heq, Ne.symm heq]

-- Follows segments from a place. Every place that is left has to be a directory.
def follow (files : FileSystem) (place : Location) : List String → Except Fault Location
  | [] => .ok place
  | segment :: rest =>
    match files.lookup? place with
    | none => .error .notFound
    | some (.file _) => .error .notDirectory
    | some .directory =>
      if Path.isIdle segment then files.follow place rest
      else if segment = ".." then files.follow place.dropLast rest
      else if maxName < segment.utf8ByteSize then .error .nameTooLong
      else files.follow (place ++ [segment]) rest

-- Where a path starts. The empty path leads nowhere.
def origin (files : FileSystem) (path : Path) : Except Fault Location :=
  if '\x00' ∈ path.text.toList then .error .nulInside
  else if path.text = "" then .error .notFound
  else .ok (if path.isAbsolute then [] else files.current)

-- Where a path starts that the system has to follow in one go, so that it may not be too long.
def start (files : FileSystem) (path : Path) : Except Fault Location := do
  let place ← files.origin path
  if maxPath < path.text.utf8ByteSize then throw .nameTooLong else return place

-- What a path leads to, and where it lies.
def resolve (files : FileSystem) (path : Path) : Except Fault (Location × Entry) := do
  let place ← files.follow (← files.start path) path.segments
  match files.lookup? place with
  | some entry => return (place, entry)
  | none => throw .notFound

-- The directory for the last segment of a path, then that segment, and whether a slash follows
-- it. A path of slashes alone has no last segment.
def resolveLast (files : FileSystem) (path : Path) :
    Except Fault (Location × Option String × Bool) := do
  let first ← files.start path
  match path.segments.reverse.dropWhile (fun segment => segment = "") with
  | [] => return (first, none, true)
  | last :: before =>
    let place ← files.follow first before.reverse
    match files.lookup? place with
    | none => throw .notFound
    | some (.file _) => throw .notDirectory
    | some .directory => return (place, some last, path.segments.getLast? = some "")

def doesExist (files : FileSystem) (path : Path) : Bool := (files.resolve path).isOk

def isDirectory (files : FileSystem) (path : Path) : Bool :=
  match files.resolve path with
  | .ok (_, .directory) => true
  | _ => false

def read (files : FileSystem) (path : Path) : Except Fault (List UInt8) := do
  match ← files.resolve path with
  | (_, .file octets) => return octets
  | (_, .directory) => throw .isDirectory

-- Writes a whole file, which may be new. Its directory has to be there.
def write (files : FileSystem) (path : Path) (octets : List UInt8) : Except Fault FileSystem := do
  match ← files.resolveLast path with
  | (place, some name, false) =>
    if name = "." ∨ name = ".." then throw .isDirectory
    else if maxName < name.utf8ByteSize then throw .nameTooLong
    else if files.lookup? (place ++ [name]) = some .directory then throw .isDirectory
    else return files.put (place ++ [name]) (.file octets)
  | _ => throw .isDirectory

-- Makes one directory, whose own directory has to be there.
def makeDirectory (files : FileSystem) (path : Path) : Except Fault FileSystem := do
  match ← files.resolveLast path with
  | (place, some name, _) =>
    if name = "." ∨ name = ".." then throw .alreadyExists
    else if maxName < name.utf8ByteSize then throw .nameTooLong
    else if (files.lookup? (place ++ [name])).isSome then throw .alreadyExists
    else return files.put (place ++ [name]) .directory
  | _ => throw .alreadyExists

-- Makes the first of these directories, and says why it could not. Each of them lies in the next
-- one, which is made first where it is missing, and stays even if the first one cannot be made. A
-- directory that is there already is as good as a new one.
def makeFirst (files : FileSystem) : List Path → FileSystem × Option Fault
  | [] => (files, some .noTree)
  | path :: above =>
    if path.text = "" then (files, none)
    else
      match files.makeDirectory path with
      | .ok made => (made, none)
      | .error .notFound =>
        match files.makeFirst above with
        | (files, none) =>
          match files.makeDirectory path with
          | .ok made => (made, none)
          | .error fault => (files, if files.isDirectory path then none else some fault)
        | failed => failed
      | .error fault => (files, if files.isDirectory path then none else some fault)

-- Makes a directory and those above it.
def makeDirectories (files : FileSystem) (path : Path) : FileSystem × Option Fault :=
  files.makeFirst (path :: path.above)

-- The name of what a path leads to. The root directory has none. The way is gone step by step, so
-- that a path of any length will do.
def nameOf? (files : FileSystem) (path : Path) : Except Fault (Option String) := do
  let place ← files.follow (← files.origin path) path.segments
  if (files.lookup? place).isSome then return place.getLast? else throw .notFound

-- What lies below a directory, each with the names on the way to it.
def below (files : FileSystem) (place : Location) : List (List String × Entry) :=
  files.entries.filterMap fun (location, entry) =>
    (place.isPrefixOf? location).bind fun names => if names = [] then none else some (names, entry)

end FileSystem

end EventFlow
