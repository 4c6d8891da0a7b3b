import EventFlow.Toml.Token
import EventFlow.Toml.Value

namespace EventFlow.Toml

-- How many arrays and inline tables may lie in each other, and how many parts a key may have.
def limit : Nat := 79

-- A part of a key.
def keyPart? : Token → Option String
  | .bare text => if '+' ∈ text then none else some (String.ofList text)
  | .string false text => some text
  | _ => none

-- What waits for a value or for more of them, elements last first.
inductive Open where
  | pair (key : List String)
  | array (elements : List Value)
  | inline (members : Members)

def Open.isContainer : Open → Bool
  | .pair _ => false
  | _ => true

-- What may come next. Parts of a key are kept backwards.
inductive Expect where
  | statement
  | lineEnd
  | headerPart (parts : List String)
  | headerNext (parts : List String)
  | keyPart (parts : List String)
  | keyNext (parts : List String)
  | value
  -- more of a value that is no string, or what follows it; its text is kept backwards
  | scalar (text : List Char)
  -- an element, or the end of the array
  | element
  | afterElement
  -- the first member of an inline table, or its end
  | firstMember
  | afterMember

-- What has been read: all tables so far, and the one whose header came last.
structure Reading where
  root : Members
  current : List String
  stack : List Open
  expect : Expect

namespace Reading

def start : Reading := ⟨[], [], [], .statement⟩

-- Hands a whole value to what waits for it.
def complete? (reading : Reading) (value : Value) : Option Reading :=
  match reading.stack with
  | [.pair key] => (reading.root.inTable (Members.define value key) reading.current).map
      fun root => { reading with root := root, stack := [], expect := .lineEnd }
  | .pair key :: .inline members :: stack => (members.define value key).map fun members =>
      { reading with stack := .inline members :: stack, expect := .afterMember }
  | .array elements :: stack =>
    some { reading with stack := .array (value :: elements) :: stack, expect := .afterElement }
  | _ => none

-- Begins to read what lies in an array or an inline table.
def enter? (reading : Reading) (container : Open) (expect : Expect) : Option Reading :=
  if reading.stack.countP Open.isContainer < limit then
    some { reading with stack := container :: reading.stack, expect := expect }
  else none

def beginValue? (reading : Reading) (token : Token) : Option Reading :=
  match token with
  | .string _ text => reading.complete? (.string text)
  | .openBracket => reading.enter? (.array []) .element
  | .openBrace => reading.enter? (.inline []) .firstMember
  | _ => token.text?.map fun text => { reading with expect := .scalar text.reverse }

def closeArray? (reading : Reading) : Option Reading :=
  match reading.stack with
  | .array elements :: stack => { reading with stack }.complete? (.array elements.reverse)
  | _ => none

def closeInline? (reading : Reading) : Option Reading :=
  match reading.stack with
  | .inline members :: stack => { reading with stack }.complete? (.table .inline members)
  | _ => none

-- The parts of a key after one more.
def addPart? (parts : List String) (token : Token) : Option (List String) :=
  if parts.length < limit then (keyPart? token).map (· :: parts) else none

def beginKey? (reading : Reading) (parts : List String) (token : Token) : Option Reading :=
  (addPart? parts token).map fun parts => { reading with expect := .keyNext parts }

-- Reads a token that is no blank, when no value is left half read.
def stepMark? (reading : Reading) (token : Token) : Option Reading :=
  match reading.expect, token with
  | .statement, .lineEnd => some reading
  | .statement, .openBracket => some { reading with expect := .headerPart [] }
  | .statement, _ => reading.beginKey? [] token
  | .lineEnd, .lineEnd => some { reading with expect := .statement }
  | .headerPart parts, _ =>
    (addPart? parts token).map fun parts => { reading with expect := .headerNext parts }
  | .headerNext parts, .dot => some { reading with expect := .headerPart parts }
  | .headerNext parts, .closeBracket => (reading.root.openTable parts.reverse).map fun root =>
      { reading with root := root, current := parts.reverse, expect := .lineEnd }
  | .keyPart parts, _ => reading.beginKey? parts token
  | .keyNext parts, .dot => some { reading with expect := .keyPart parts }
  | .keyNext parts, .equals =>
    some { reading with stack := .pair parts.reverse :: reading.stack, expect := .value }
  | .value, _ => reading.beginValue? token
  | .element, .lineEnd | .afterElement, .lineEnd => some reading
  | .element, .closeBracket | .afterElement, .closeBracket => reading.closeArray?
  | .element, _ => reading.beginValue? token
  | .afterElement, .comma => some { reading with expect := .element }
  | .firstMember, .closeBrace | .afterMember, .closeBrace => reading.closeInline?
  | .firstMember, _ => reading.beginKey? [] token
  | .afterMember, .comma => some { reading with expect := .keyPart [] }
  | _, _ => none

-- Ends a value that is no string. Blanks behind it do not belong to it.
def endScalar? (reading : Reading) : Option Reading :=
  match reading.expect with
  | .scalar text =>
    (Value.ofText? (text.dropWhile Token.isBlank).reverse).bind reading.complete?
  | _ => some reading

def step? (reading : Reading) (token : Token) : Option Reading :=
  match reading.expect, token, token.text? with
  | .scalar text, _, some more => some { reading with expect := .scalar (more.reverse ++ text) }
  | _, .blank _, _ => some reading
  | _, _, _ => reading.endScalar?.bind fun reading => reading.stepMark? token

end Reading

-- The tables of a text.
def parse? (text : String) : Option Members := do
  let tokens ← Token.ofText? text
  let reading ← tokens.foldlM Reading.step? Reading.start
  let reading ← reading.endScalar?
  match reading.expect with
  | .statement | .lineEnd => some reading.root
  | _ => none

end EventFlow.Toml
