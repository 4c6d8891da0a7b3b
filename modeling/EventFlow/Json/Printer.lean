import EventFlow.Json.Basic

namespace EventFlow.Json

def hexDigit (n : Nat) : Char := "0123456789abcdef".toList.getD n '0'

-- How a character stands inside quotes. Control characters without a letter of their own are
-- written by number; characters beyond ASCII stand for themselves.
def escape (c : Char) : List Char :=
  if c = '"' then ['\\', '"']
  else if c = '\\' then ['\\', '\\']
  else if c = '\x08' then ['\\', 'b']
  else if c = '\x0C' then ['\\', 'f']
  else if c = '\n' then ['\\', 'n']
  else if c = '\r' then ['\\', 'r']
  else if c = '\t' then ['\\', 't']
  else if c.toNat < 0x20 then
    ['\\', 'u', '0', '0', hexDigit (c.toNat / 16), hexDigit (c.toNat % 16)]
  else [c]

def quote (text : String) : List Char := '"' :: (text.toList.flatMap escape ++ ['"'])

-- The start of a line at a depth, two spaces for each level.
def lineStart (depth : Nat) : List Char := '\n' :: List.replicate (2 * depth) ' '

-- One element or member to a line; an empty array or object stays closed up.
mutual

def write (depth : Nat) : Json → List Char
  | null => "null".toList
  | bool true => "true".toList
  | bool false => "false".toList
  | number value => Nat.toDigits 10 value
  | string text => quote text
  | array [] => ['[', ']']
  | array (first :: rest) =>
    '[' :: (lineStart (depth + 1) ++ write (depth + 1) first
      ++ writeElements (depth + 1) rest ++ lineStart depth ++ [']'])
  | object [] => ['{', '}']
  | object ((name, value) :: rest) =>
    '{' :: (lineStart (depth + 1) ++ quote name ++ ':' :: ' ' :: write (depth + 1) value
      ++ writeMembers (depth + 1) rest ++ lineStart depth ++ ['}'])

def writeElements (depth : Nat) : List Json → List Char
  | [] => []
  | element :: rest =>
    ',' :: (lineStart depth ++ write depth element ++ writeElements depth rest)

def writeMembers (depth : Nat) : List (String × Json) → List Char
  | [] => []
  | (name, value) :: rest =>
    ',' :: (lineStart depth ++ quote name ++ ':' :: ' ' :: write depth value
      ++ writeMembers depth rest)

end

def pretty (value : Json) : String := String.ofList (write 0 value)

end EventFlow.Json
