namespace EventFlow

-- A path as it is written. Different texts may lead to the same place and are still shown as
-- they are.
structure Path where
  text : String
  deriving DecidableEq

namespace Path

def isAbsolute (path : Path) : Bool := path.text.toList.head? = some '/'

-- What stands between the slashes, without the empty piece before the first slash of an
-- absolute path.
def segments (path : Path) : List String :=
  let pieces := (path.text.toList.splitOn '/').map String.ofList
  if path.isAbsolute then pieces.drop 1 else pieces

-- Whether a segment leads nowhere.
def isIdle (segment : String) : Bool := segment = "" || segment = "."

-- Leaves out the idle segments at the end. A dot that begins a relative path is no idle segment.
def trimEnd (absolute : Bool) : List String → List String
  | [] => []
  | first :: rest =>
    match (rest.reverse.dropWhile isIdle).reverse with
    | [] => if first = "" ∨ (absolute ∧ first = ".") then [] else [first]
    | kept => first :: kept

-- The path that a list of segments makes.
def ofSegments (absolute : Bool) (segments : List String) : Path :=
  let relative := "/".intercalate segments
  ⟨if absolute then "/" ++ relative else relative⟩

-- The segments up to the last one that counts.
def steps (path : Path) : List String := trimEnd path.isAbsolute path.segments

-- The paths above this one, nearest first. The last one is the root or the empty path.
def above (path : Path) : List Path :=
  let steps := path.steps
  let stops := (List.range steps.length).reverse.filter fun count =>
    (trimEnd path.isAbsolute (steps.take count)).length = count
  stops.map fun count => ofSegments path.isAbsolute (steps.take count)

-- The path up to its last step.
def parent? (path : Path) : Option Path := path.above.head?

-- The last step, if that is a name.
def fileName? (path : Path) : Option String :=
  path.steps.getLast?.bind fun last => if last = "." ∨ last = ".." then none else some last

-- Goes on with another path. An absolute one starts afresh.
def join (path next : Path) : Path :=
  if next.isAbsolute then next
  else if path.text = "" ∨ path.text.toList.getLast? = some '/' then ⟨path.text ++ next.text⟩
  else ⟨path.text ++ "/" ++ next.text⟩

-- What follows the last dot of a file name. A dot at the front begins no extension.
def extension? (name : String) : Option String :=
  match name.toList.reverse.span (fun c => c ≠ '.') with
  | (extension, '.' :: _ :: _) => some (String.ofList extension.reverse)
  | _ => none

example : parent? ⟨"a//b/./"⟩ = some ⟨"a"⟩ ∧ parent? ⟨"/a"⟩ = some ⟨"/"⟩ ∧
    parent? ⟨"a"⟩ = some ⟨""⟩ ∧ parent? ⟨"/"⟩ = none := by decide +kernel

example : extension? ".c" = none ∧ extension? "n." = some "" ∧ extension? "x.y.c" = some "c" := by
  cbv

end Path

end EventFlow
