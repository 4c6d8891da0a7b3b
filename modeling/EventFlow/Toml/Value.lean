import EventFlow.Toml.DateTime
import EventFlow.Toml.Number

namespace EventFlow.Toml

-- How a table came to be, which decides what may be added to it later.
inductive Origin where
  -- it has a header of its own
  | header
  -- it lies on the way in a header
  | passing
  -- it lies on the way in a dotted key
  | dotted
  | inline
  deriving DecidableEq

inductive Value where
  | string (text : String)
  | integer (value : Int)
  | float (value : Decimal)
  | boolean (value : Bool)
  | dateTime (value : DateTime)
  | array (elements : List Value)
  | table (origin : Origin) (members : List (String × Value))

abbrev Members := List (String × Value)

-- The value that a text without marks around it stands for. No text stands for two.
def Value.ofText? (text : List Char) : Option Value :=
  if text = ['t', 'r', 'u', 'e'] then some (.boolean true)
  else if text = ['f', 'a', 'l', 's', 'e'] then some (.boolean false)
  else (integer? text).map integer
    <|> (Decimal.ofText? text).map float
    <|> (DateTime.ofText? text).map dateTime

namespace Members

def get? (members : Members) (name : String) : Option Value :=
  (members.find? (fun m => m.1 = name)).map Prod.snd

def add (members : Members) (name : String) (value : Value) : Members := members ++ [(name, value)]

def set (members : Members) (name : String) (value : Value) : Members :=
  members.map fun m => if m.1 = name then (name, value) else m

-- Gives a dotted key its value. No key has two values, and on its way it makes tables or goes
-- through those that dotted keys have made.
def define (value : Value) : List String → Members → Option Members
  | [], _ => none
  | [name], members =>
    match members.get? name with
    | none => some (members.add name value)
    | some _ => none
  | name :: next :: path, members =>
    match members.get? name with
    | none => (define value (next :: path) []).map fun inner =>
        members.add name (.table .dotted inner)
    | some (.table .dotted present) => (define value (next :: path) present).map fun inner =>
        members.set name (.table .dotted inner)
    | some _ => none

-- Begins the table of a header. A table on the way of an earlier header becomes this one.
def openTable : List String → Members → Option Members
  | [], _ => none
  | [name], members =>
    match members.get? name with
    | none => some (members.add name (.table .header []))
    | some (.table .passing present) => some (members.set name (.table .header present))
    | some _ => none
  | name :: next :: path, members =>
    match members.get? name with
    | none => (openTable (next :: path) []).map fun inner =>
        members.add name (.table .passing inner)
    | some (.table .inline _) => none
    | some (.table origin present) => (openTable (next :: path) present).map fun inner =>
        members.set name (.table origin inner)
    | some _ => none

-- Changes the members of the table at a path.
def inTable (change : Members → Option Members) : List String → Members → Option Members
  | [], members => change members
  | name :: path, members =>
    match members.get? name with
    | some (.table origin present) => (inTable change path present).map fun inner =>
        members.set name (.table origin inner)
    | _ => none

end Members

end EventFlow.Toml
