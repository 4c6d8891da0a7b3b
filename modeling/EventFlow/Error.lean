import EventFlow.Names.Set

namespace EventFlow

-- Why an analysis, or one of its parts, has no result.
inductive Error where
  -- a file that cannot be read
  | unreadable (path reason : String)
  -- a place at which a search for files cannot go on
  | unsearchable (path reason : String)
  | badConfig (path reason : String)
  -- a name for which more than one definition creates events, and the files they are in
  | duplicateCallable (name : String) (files : NameSet)
  -- a listener file with another number of registrations than one
  | registrationCount (file : String) (found : Nat)
  -- a listener name with several replacements
  | ambiguousName (file name : String) (found : Nat)
  | unevenColumn (owner column : String) (expected found : Nat)
  | unknownListener (name : String)
  | badArgument (reason : String)
  deriving DecidableEq

namespace Error

-- How a search reports what the system said.
def searchReport (path reason : String) : String := s!"IO error for operation on {path}: {reason}"

def message : Error → String
  | unreadable path reason => s!"I/O error at {path}: {reason}"
  | unsearchable path reason => s!"I/O error at {path}: " ++ searchReport path reason
  | badConfig path reason => s!"Config error at {path}: {reason}"
  | duplicateCallable name files =>
    let places := ", ".intercalate files.toList
    s!"Function or macro `{name}` is defined more than once (in {places})"
  | registrationCount file found =>
    s!"Listener file {file} must register exactly one listener, found {found}"
  | ambiguousName file name found =>
    s!"Listener name `{name}` in {file} is redefined {found} times, expected at most one"
  | unevenColumn owner column expected found =>
    s!"Propagation table for `{owner}`: column `{column}` has {found} rows, expected {expected}"
  | unknownListener name => s!"Unknown listener `{name}`"
  | badArgument reason => s!"Invalid argument: {reason}"

-- Errors of the corpus or of the layout itself, for which no report can be made at all.
def isIntegrity : Error → Bool
  | duplicateCallable .. | registrationCount .. | ambiguousName .. | unevenColumn .. => true
  | unreadable .. | unsearchable .. | badConfig .. | unknownListener .. | badArgument .. => false

-- Errors about one listener, which leave reports on the others possible.
def isLookup : Error → Bool
  | unknownListener _ => true
  | _ => false

def path? : Error → Option String
  | unreadable path _ | unsearchable path _ | badConfig path _ => some path
  | _ => none

-- The message, and below it what was said on the way up from the system, where an error comes
-- from there.
def chain (error : Error) : List String :=
  match error with
  | unreadable _ reason => [error.message, reason]
  | unsearchable path reason => [error.message, searchReport path reason, reason]
  | _ => [error.message]

end Error

end EventFlow
