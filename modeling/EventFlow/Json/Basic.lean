namespace EventFlow

-- A JSON value whose numbers are natural, as the reports need no others. Members of an object
-- keep the order in which they are written.
inductive Json where
  | null
  | bool (value : Bool)
  | number (value : Nat)
  | string (text : String)
  | array (elements : List Json)
  | object (members : List (String × Json))

namespace Json

instance : Inhabited Json := ⟨null⟩

def names (names : List String) : Json := array (names.map string)

def text? : Json → Option String
  | string text => some text
  | _ => none

def elements? : Json → Option (List Json)
  | array elements => some elements
  | _ => none

def members? : Json → Option (List (String × Json))
  | object members => some members
  | _ => none

def member? (name : String) (members : List (String × Json)) : Option Json :=
  (members.find? (fun m => m.1 = name)).map Prod.snd

-- The fields of a record in their order. A record is an object with at least these members,
-- or the plain array of its fields.
def record? (fields : List String) : Json → Option (List Json)
  | object members => fields.mapM (fun name => member? name members)
  | array elements => if elements.length = fields.length then some elements else none
  | _ => none

end Json

end EventFlow
