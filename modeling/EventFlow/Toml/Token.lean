import EventFlow.Text.Digit

namespace EventFlow.Toml

inductive Token where
  -- letters, digits, underscores and signs that stand together
  | bare (text : List Char)
  | string (multiline : Bool) (text : String)
  -- a space or a tab
  | blank (character : Char)
  | dot
  | colon
  | equals
  | comma
  | openBracket
  | closeBracket
  | openBrace
  | closeBrace
  | lineEnd
  deriving DecidableEq

namespace Token

-- The characters of a token if a value that is no string may be written with them.
def text? : Token → Option (List Char)
  | .bare text => some text
  | .blank c => some [c]
  | .dot => some ['.']
  | .colon => some [':']
  | _ => none

-- How a string began. One over several lines has three marks at either end.
structure Opening where
  mark : Char
  multiline : Bool

-- Where a scan stands. Texts are kept backwards.
inductive Scan where
  | between
  | comment
  | bare (text : List Char)
  | opened (mark : Char)
  | openedTwice (mark : Char)
  -- right behind three marks, where one line end does not count
  | firstLine (mark : Char)
  | inside (opening : Opening) (text : List Char)
  -- behind some marks, which may end a string over several lines
  | closing (mark : Char) (text : List Char) (count : Nat)
  | escape (opening : Opening) (text : List Char)
  | code (opening : Opening) (text : List Char) (left value : Nat)
  -- behind a backslash that joins lines, before the first character that is no blank
  | joined (opening : Opening) (text : List Char) (crossed : Bool)

-- A carriage return may stand before each line end.
def unifyLineEnds : List Char → List Char
  | [] => []
  | '\r' :: '\n' :: rest => '\n' :: unifyLineEnds rest
  | c :: rest => c :: unifyLineEnds rest

-- The characters that comments and strings may hold.
def isPlain (c : Char) : Bool := c = '\t' || (0x20 ≤ c.toNat && c.toNat ≠ 0x7F)

def isBlank (c : Char) : Bool := c = ' ' || c = '\t'

def isBare (c : Char) : Bool := c.isAlphanum || c = '_' || c = '-' || c = '+'

def punctuation? (c : Char) : Option Token :=
  match c with
  | '.' => some .dot
  | ':' => some .colon
  | '=' => some .equals
  | ',' => some .comma
  | '[' => some .openBracket
  | ']' => some .closeBracket
  | '{' => some .openBrace
  | '}' => some .closeBrace
  | '\n' => some .lineEnd
  | _ => none

def escaped? (c : Char) : Option Char :=
  match c with
  | '"' => some '"'
  | '\\' => some '\\'
  | 'b' => some '\x08'
  | 'f' => some '\x0C'
  | 'n' => some '\n'
  | 'r' => some '\r'
  | 't' => some '\t'
  | _ => none

-- One character between tokens: the tokens it completes, and where the scan stands then.
def start? (c : Char) : Option (List Token × Scan) :=
  if isBlank c then some ([.blank c], .between)
  else if c = '#' then some ([], .comment)
  else if c = '"' ∨ c = '\'' then some ([], .opened c)
  else if isBare c then some ([], .bare [c])
  else (punctuation? c).map fun token => ([token], .between)

-- The token of a string whose text is kept backwards.
def stringOf (multiline : Bool) (text : List Char) : Token :=
  .string multiline (String.ofList text.reverse)

-- One character inside a string.
def stepInside? (opening : Opening) (text : List Char) (c : Char) : Option (List Token × Scan) :=
  if c = opening.mark then
    if opening.multiline then some ([], .closing c text 1)
    else some ([stringOf false text], .between)
  else if c = '\\' ∧ opening.mark = '"' then some ([], .escape opening text)
  else if isPlain c ∨ (c = '\n' ∧ opening.multiline) then some ([], .inside opening (c :: text))
  else none

-- One character behind a backslash.
def stepEscape? (opening : Opening) (text : List Char) (c : Char) : Option (List Token × Scan) :=
  if c = 'u' then some ([], .code opening text 4 0)
  else if c = 'U' then some ([], .code opening text 8 0)
  else if opening.multiline ∧ (isBlank c ∨ c = '\n') then
    some ([], .joined opening text (c = '\n'))
  else (escaped? c).map fun d => ([], .inside opening (d :: text))

-- One digit of a character number.
def stepCode? (opening : Opening) (text : List Char) (left value : Nat) (c : Char) :
    Option (List Token × Scan) :=
  (Text.digitValue? 16 c).bind fun digit =>
    let value := value * 16 + digit
    if 1 < left then some ([], .code opening text (left - 1) value)
    else if value.isValidChar then some ([], .inside opening (Char.ofNat value :: text))
    else none

def step? (scan : Scan) (c : Char) : Option (List Token × Scan) :=
  match scan with
  | .between => start? c
  | .comment =>
    if c = '\n' then start? c else if isPlain c then some ([], .comment) else none
  | .bare text =>
    if isBare c then some ([], .bare (c :: text))
    else (start? c).map fun (tokens, next) => (.bare text.reverse :: tokens, next)
  | .opened mark =>
    if c = mark then some ([], .openedTwice mark) else stepInside? ⟨mark, false⟩ [] c
  | .openedTwice mark =>
    if c = mark then some ([], .firstLine mark)
    else (start? c).map fun (tokens, next) => (stringOf false [] :: tokens, next)
  | .firstLine mark =>
    if c = '\n' then some ([], .inside ⟨mark, true⟩ []) else stepInside? ⟨mark, true⟩ [] c
  | .inside opening text => stepInside? opening text c
  | .closing mark text count =>
    if c = mark then if count < 5 then some ([], .closing mark text (count + 1)) else none
    else if count < 3 then stepInside? ⟨mark, true⟩ (List.replicate count mark ++ text) c
    else (start? c).map fun (tokens, next) =>
      (stringOf true (List.replicate (count - 3) mark ++ text) :: tokens, next)
  | .escape opening text => stepEscape? opening text c
  | .code opening text left value => stepCode? opening text left value c
  | .joined opening text crossed =>
    if isBlank c ∨ c = '\n' then some ([], .joined opening text (crossed || c = '\n'))
    else if crossed then stepInside? opening text c
    else none

-- What the end of the text completes. Strings have to be closed.
def finish? : Scan → Option (List Token)
  | .between | .comment => some []
  | .bare text => some [.bare text.reverse]
  | .openedTwice _ => some [stringOf false []]
  | .closing mark text count =>
    if 3 ≤ count then some [stringOf true (List.replicate (count - 3) mark ++ text)] else none
  | _ => none

def scan? (scan : Scan) : List Char → Option (List Token)
  | [] => finish? scan
  | c :: rest => do
    let (tokens, next) ← step? scan c
    let more ← scan? next rest
    return tokens ++ more

-- The tokens of a text, which may begin with a byte order mark.
def ofText? (text : String) : Option (List Token) :=
  let characters := text.toList
  scan? .between (unifyLineEnds
    (if characters.head? = some '\uFEFF' then characters.drop 1 else characters))

end Token

end EventFlow.Toml
