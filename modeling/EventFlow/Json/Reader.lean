import EventFlow.Json.Basic
import EventFlow.Text.Digit

namespace EventFlow.Json

inductive Token where
  | openBrace
  | closeBrace
  | openBracket
  | closeBracket
  | comma
  | colon
  | null
  | bool (value : Bool)
  | number (value : Nat)
  | string (text : String)
  deriving DecidableEq

namespace Token

-- Where a scan stands. Texts of strings and words are kept backwards. A character number that
-- is the first half of a pair has to be followed by the number of the second half.
inductive Scan where
  | between
  | inWord (word : List Char)
  | inNumber (value : Nat)
  | inString (text : List Char)
  | escape (text : List Char) (firstHalf : Option Nat)
  | code (text : List Char) (firstHalf : Option Nat) (digits value : Nat)
  | firstHalf (text : List Char) (value : Nat)

def ofWord? (word : List Char) : Option Token :=
  if word = "null".toList then some .null
  else if word = "true".toList then some (.bool true)
  else if word = "false".toList then some (.bool false)
  else none

-- What an escape of one letter stands for.
def escaped? (c : Char) : Option Char :=
  match c with
  | '"' => some '"'
  | '\\' => some '\\'
  | '/' => some '/'
  | 'b' => some '\x08'
  | 'f' => some '\x0C'
  | 'n' => some '\n'
  | 'r' => some '\r'
  | 't' => some '\t'
  | _ => none

-- A scan after the last digit of a character number.
def afterCode? (text : List Char) (firstHalf : Option Nat) (value : Nat) : Option Scan :=
  match firstHalf with
  | some high =>
    if 0xDC00 ≤ value ∧ value < 0xE000 then
      some (.inString (Char.ofNat (0x10000 + (high - 0xD800) * 0x400 + (value - 0xDC00)) :: text))
    else none
  | none =>
    if 0xD800 ≤ value ∧ value < 0xDC00 then some (.firstHalf text value)
    else if 0xDC00 ≤ value ∧ value < 0xE000 then none
    else some (.inString (Char.ofNat value :: text))

-- One character between tokens: the tokens it completes, and where the scan stands then.
def start? (c : Char) : Option (List Token × Scan) :=
  match c with
  | '{' => some ([.openBrace], .between)
  | '}' => some ([.closeBrace], .between)
  | '[' => some ([.openBracket], .between)
  | ']' => some ([.closeBracket], .between)
  | ',' => some ([.comma], .between)
  | ':' => some ([.colon], .between)
  | '"' => some ([], .inString [])
  | ' ' | '\n' | '\r' | '\t' => some ([], .between)
  | _ =>
    if c.isDigit then some ([], .inNumber (c.toNat - '0'.toNat))
    else if c.isAlpha then some ([], .inWord [c])
    else none

def step? (scan : Scan) (c : Char) : Option (List Token × Scan) :=
  match scan with
  | .between => start? c
  | .inWord word =>
    if c.isAlpha then some ([], .inWord (c :: word))
    else do
      let token ← ofWord? word.reverse
      let (tokens, next) ← start? c
      return (token :: tokens, next)
  | .inNumber value =>
    if c.isDigit then
      if value = 0 then none else some ([], .inNumber (value * 10 + (c.toNat - '0'.toNat)))
    else (start? c).map fun (tokens, next) => (.number value :: tokens, next)
  | .inString text =>
    if c = '"' then some ([.string (String.ofList text.reverse)], .between)
    else if c = '\\' then some ([], .escape text none)
    else if c.toNat < 0x20 then none
    else some ([], .inString (c :: text))
  | .escape text high =>
    if c = 'u' then some ([], .code text high 0 0)
    else if high.isSome then none
    else (escaped? c).map fun d => ([], .inString (d :: text))
  | .code text high digits value => do
    let digit ← Text.digitValue? 16 c
    if digits = 3 then (afterCode? text high (value * 16 + digit)).map fun next => ([], next)
    else some ([], .code text high (digits + 1) (value * 16 + digit))
  | .firstHalf text value => if c = '\\' then some ([], .escape text (some value)) else none

-- The tokens of a text. A string must be closed.
def scan? (scan : Scan) : List Char → Option (List Token)
  | [] =>
    match scan with
    | .between => some []
    | .inWord word => (ofWord? word.reverse).map fun token => [token]
    | .inNumber value => some [.number value]
    | _ => none
  | c :: rest => do
    let (tokens, next) ← step? scan c
    let more ← scan? next rest
    return tokens ++ more

end Token

-- A container whose end has not been read, with what it holds so far, last first.
inductive Open where
  | array (elements : List Json)
  | object (members : List (String × Json)) (name : String)

-- What may come next.
inductive Expect where
  | value
  | firstElement
  | firstName
  | name (members : List (String × Json))
  | colon (members : List (String × Json)) (name : String)
  -- a value has just been read
  | continuation (value : Json)

def leaf? : Token → Option Json
  | .null => some .null
  | .bool value => some (.bool value)
  | .number value => some (.number value)
  | .string text => some (.string text)
  | _ => none

-- Reads a token where a value may begin.
def beginValue? (token : Token) (stack : List Open) : Option (Expect × List Open) :=
  match token with
  | .openBracket => some (.firstElement, stack)
  | .openBrace => some (.firstName, stack)
  | _ => (leaf? token).map fun value => (.continuation value, stack)

-- Reads a token behind a value, which belongs to the innermost open container.
def afterValue? (token : Token) (value : Json) : List Open → Option (Expect × List Open)
  | .array elements :: stack =>
    match token with
    | .comma => some (.value, .array (value :: elements) :: stack)
    | .closeBracket => some (.continuation (.array (value :: elements).reverse), stack)
    | _ => none
  | .object members name :: stack =>
    match token with
    | .comma => some (.name ((name, value) :: members), stack)
    | .closeBrace => some (.continuation (.object ((name, value) :: members).reverse), stack)
    | _ => none
  | [] => none

def step? (expect : Expect) (stack : List Open) (token : Token) : Option (Expect × List Open) :=
  match expect, token with
  | .value, _ => beginValue? token stack
  | .firstElement, .closeBracket => some (.continuation (.array []), stack)
  | .firstElement, _ => beginValue? token (.array [] :: stack)
  | .firstName, .closeBrace => some (.continuation (.object []), stack)
  | .firstName, .string name => some (.colon [] name, stack)
  | .name members, .string name => some (.colon members name, stack)
  | .colon members name, .colon => some (.value, .object members name :: stack)
  | .continuation value, _ => afterValue? token value stack
  | _, _ => none

def build? (expect : Expect) (stack : List Open) : List Token → Option Json
  | [] =>
    match expect, stack with
    | .continuation value, [] => some value
    | _, _ => none
  | token :: rest => do
    let (next, stack) ← step? expect stack token
    build? next stack rest

-- The value that a text stands for. A number has no sign, fraction or exponent.
def parse? (text : String) : Option Json := do
  let tokens ← Token.scan? .between text.toList
  build? .value [] tokens

end EventFlow.Json
