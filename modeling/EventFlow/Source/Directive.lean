import EventFlow.Source.Token
import EventFlow.Text.Blank

namespace EventFlow.Source

-- A preprocessor line. Its tokens are those from number `first` up to but without `stop`.
structure Directive where
  text : String
  line : Nat
  first : Nat
  stop : Nat
  deriving DecidableEq

namespace Directive

-- One step of writing a line out backwards: words as they stand, one space for each run of
-- white space and comments, nothing for a stray.
def writeBackwards (written : List Char) (lexeme : Lexeme) : List Char :=
  if lexeme.isWord then lexeme.text.reverse ++ written
  else if lexeme.isSpace then
    match written with
    | ' ' :: _ => written
    | _ => ' ' :: written
  else written

-- The text of a line from its first word on, with comments gone and spaces evened out.
def textOf (line : List Placed) : String :=
  let lexemes := (line.map Placed.lexeme).dropWhile (fun lexeme => !lexeme.isWord)
  String.ofList ((lexemes.foldl writeBackwards []).dropWhile Text.isBlank).reverse

-- Reads `#`, then the keyword, with blanks allowed before it, and gives back what follows.
def afterKeyword? (keyword : String) (text : List Char) : Option (List Char) :=
  match text with
  | '#' :: rest => keyword.toList.isPrefixOf? (Text.dropBlankStart rest)
  | _ => none

-- The name a `define` line gives, and the text right behind the name.
def definedName? (text : String) : Option (String × List Char) :=
  (afterKeyword? "define" text.toList).bind fun rest =>
    match rest with
    | [] => none
    | blank :: _ =>
      if Text.isBlank blank then
        match Text.dropBlankStart rest with
        | [] => none
        | c :: more =>
          if isIdentifierStart c then
            some (String.ofList (c :: more.takeWhile isIdentifierPart),
              more.dropWhile isIdentifierPart)
          else none
      else none

-- What a `define` line introduces. A parenthesis right behind the name makes it take
-- arguments.
structure Definition where
  name : String
  takesArguments : Bool
  body : List Char
  deriving DecidableEq

def definition? (directive : Directive) : Option Definition :=
  (definedName? directive.text).map fun (name, rest) =>
    match rest with
    | '(' :: body => ⟨name, true, body⟩
    | _ => ⟨name, false, rest⟩

-- The text that the name stands for. A name that takes arguments, or that stands for nothing,
-- has none.
def Definition.replacement? (definition : Definition) : Option (List Char) :=
  if definition.takesArguments then none
  else
    match Text.stripBlanks definition.body with
    | [] => none
    | text => some text

-- The file an `include` line names. Either kind of bracket may close it.
def includeTarget? (directive : Directive) : Option String :=
  (afterKeyword? "include" directive.text.toList).bind fun rest =>
    match Text.dropBlankStart rest with
    | opening :: more =>
      let target := more.takeWhile (fun c => c ≠ '>' ∧ c ≠ '"')
      if (opening = '<' ∨ opening = '"') ∧ target ≠ [] ∧ target.length < more.length then
        some (String.ofList target)
      else none
    | [] => none

end Directive

end EventFlow.Source
