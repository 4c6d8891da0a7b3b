import EventFlow.Source.Lexeme

namespace EventFlow.Source

inductive Token.Kind where
  | identifier
  | number
  | string
  | character
  | punctuation (c : Char)
  deriving DecidableEq

-- A word of a source text. `line` counts from one, `offset` is that of the first octet, and
-- `directive` is the number of the preprocessor line that holds the token, if one does.
structure Token where
  kind : Token.Kind
  text : String
  line : Nat
  offset : Nat
  directive : Option Nat
  deriving DecidableEq

namespace Token

def isIdentifier (token : Token) : Bool := token.kind = .identifier

def isPunctuation (token : Token) (c : Char) : Bool := token.kind = .punctuation c

def isWord (token : Token) (word : String) : Bool := token.isIdentifier && token.text = word

end Token

-- A lexeme and where it begins.
structure Placed where
  lexeme : Lexeme
  line : Nat
  offset : Nat

namespace Placed

-- How many octets a text takes.
def octets (text : List Char) : Nat := text.foldr (fun c count => c.utf8Size + count) 0

def ofLexemes (line offset : Nat) : List Lexeme → List Placed
  | [] => []
  | lexeme :: rest =>
    ⟨lexeme, line, offset⟩ ::
      ofLexemes (line + lexeme.text.count '\n') (offset + octets lexeme.text) rest

def kind? (placed : Placed) : Option Token.Kind :=
  match placed.lexeme.kind with
  | .identifier => some .identifier
  | .number => some .number
  | .string => some .string
  | .character => some .character
  | .punctuation => placed.lexeme.text.head?.map .punctuation
  | .newline | .blank | .splice | .lineComment | .blockComment | .stray => none

def token? (directive : Option Nat) (placed : Placed) : Option Token :=
  placed.kind?.map fun kind =>
    ⟨kind, String.ofList placed.lexeme.text, placed.line, placed.offset, directive⟩

-- Cuts at the line ends, which belong to no line. A line end inside a comment, a literal or a
-- splice does not cut.
def lines : List Placed → List (List Placed)
  | [] => [[]]
  | placed :: rest =>
    if placed.lexeme.kind = .newline then [] :: lines rest
    else (lines rest).modifyHead (placed :: ·)

end Placed

end EventFlow.Source
