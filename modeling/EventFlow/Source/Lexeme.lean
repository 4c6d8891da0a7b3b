namespace EventFlow.Source

-- What a piece of source text is. A splice is a backslash that joins a line to the next one.
-- A stray is a character that carries no structure: a control character, or any character
-- beyond ASCII outside a literal.
inductive Lexeme.Kind where
  | newline
  | blank
  | splice
  | lineComment
  | blockComment
  | identifier
  | number
  | string
  | character
  | punctuation
  | stray
  deriving DecidableEq

structure Lexeme where
  kind : Lexeme.Kind
  text : List Char
  deriving DecidableEq

-- White space within a line.
def isBlank (c : Char) : Bool :=
  c == ' ' || c == '\t' || c == '\r' || c == '\x0B' || c == '\x0C'

def isIdentifierStart (c : Char) : Bool := c.isAlpha || c == '_'

def isIdentifierPart (c : Char) : Bool := c.isAlphanum || c == '_'

def isNumberPart (c : Char) : Bool := isIdentifierPart c || c == '.'

-- The printing characters of ASCII that are no letters, digits or space.
def isPunctuation (c : Char) : Bool :=
  0x21 ≤ c.toNat && c.toNat ≤ 0x7E && !c.isAlphanum

namespace Lexeme

-- How much of `rest` a block comment takes after its opening: up to and with the first
-- closing, or all of it.
def blockCommentLength : List Char → Nat
  | [] => 0
  | '*' :: '/' :: _ => 2
  | _ :: rest => blockCommentLength rest + 1

-- How much of `rest` a literal takes after its opening quote. A backslash hides the character
-- behind it; at a line end it carries the literal over to the next line. Without that the
-- literal ends before the line end.
def literalLength (quote : Char) : List Char → Nat
  | [] => 0
  | '\\' :: '\n' :: rest => literalLength quote rest + 2
  | '\\' :: '\r' :: '\n' :: rest => literalLength quote rest + 3
  | '\\' :: _ :: rest => literalLength quote rest + 2
  | '\n' :: _ => 0
  | c :: rest => if c = quote then 1 else literalLength quote rest + 1

def runLength (inside : Char → Bool) (rest : List Char) : Nat := (rest.takeWhile inside).length

-- The kind of the lexeme that begins with `c`, and how many characters of `rest` it takes.
def front (c : Char) (rest : List Char) : Kind × Nat :=
  if c = '\n' then (.newline, 0)
  else if isBlank c then (.blank, 0)
  else if c = '\\' then
    match rest with
    | '\n' :: _ => (.splice, 1)
    | '\r' :: '\n' :: _ => (.splice, 2)
    | _ => (.punctuation, 0)
  else if c = '/' then
    match rest with
    | '/' :: _ => (.lineComment, runLength (fun d => d ≠ '\n') rest)
    | '*' :: comment => (.blockComment, blockCommentLength comment + 1)
    | _ => (.punctuation, 0)
  else if c = '"' then (.string, literalLength c rest)
  else if c = '\'' then (.character, literalLength c rest)
  else if isIdentifierStart c then (.identifier, runLength isIdentifierPart rest)
  else if c.isDigit then (.number, runLength isNumberPart rest)
  else if isPunctuation c then (.punctuation, 0)
  else (.stray, 0)

-- Cuts a text into lexemes. Each takes at least its first character.
def scan : List Char → List Lexeme
  | [] => []
  | c :: rest =>
    ⟨(front c rest).1, c :: rest.take (front c rest).2⟩ :: scan (rest.drop (front c rest).2)
termination_by text => text.length

-- Nothing of the text is lost.
theorem flatMap_text_scan (text : List Char) : (scan text).flatMap Lexeme.text = text := by
  fun_induction scan text with
  | case1 => rfl
  | case2 c rest ih => simp [ih]

-- Whether the lexeme is a word of the language, which comments and white space are not.
def isWord (lexeme : Lexeme) : Bool :=
  match lexeme.kind with
  | .identifier | .number | .string | .character | .punctuation => true
  | .newline | .blank | .splice | .lineComment | .blockComment | .stray => false

-- Whether the lexeme keeps the words at its sides apart.
def isSpace (lexeme : Lexeme) : Bool :=
  match lexeme.kind with
  | .blank | .splice | .lineComment | .blockComment => true
  | .newline | .identifier | .number | .string | .character | .punctuation | .stray => false

end Lexeme

end EventFlow.Source
