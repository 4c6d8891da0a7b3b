import EventFlow.Source.Directive

namespace EventFlow.Source

-- The tokens of a source text and its preprocessor lines, both in the order of the text.
structure Stream where
  tokens : List Token
  directives : List Directive
  deriving DecidableEq

namespace Stream

-- A line is a preprocessor line when its first word is `#`.
def opensDirective (line : List Placed) : Bool :=
  match line.filterMap (Placed.token? none) with
  | token :: _ => token.isPunctuation '#'
  | [] => false

def directiveOf (line : List Placed) (first : Nat) : Directive :=
  let tokens := line.filterMap (Placed.token? none)
  ⟨Directive.textOf line, (tokens.head?.map Token.line).getD 0, first, first + tokens.length⟩

-- `directives` and `tokens` count those of the lines before.
def ofLines (directives tokens : Nat) : List (List Placed) → Stream
  | [] => ⟨[], []⟩
  | line :: rest =>
    let count := (line.filterMap (Placed.token? none)).length
    if opensDirective line then
      let stream := ofLines (directives + 1) (tokens + count) rest
      ⟨line.filterMap (Placed.token? (some directives)) ++ stream.tokens,
        directiveOf line tokens :: stream.directives⟩
    else
      let stream := ofLines directives (tokens + count) rest
      ⟨line.filterMap (Placed.token? none) ++ stream.tokens, stream.directives⟩

def ofText (text : String) : Stream :=
  ofLines 0 0 (Placed.lines (Placed.ofLexemes 1 0 (Lexeme.scan text.toList)))

-- The tokens outside preprocessor lines.
def code (stream : Stream) : List Token :=
  stream.tokens.filter (fun token => token.directive = none)

def within (stream : Stream) (directive : Directive) : List Token :=
  (stream.tokens.take directive.stop).drop directive.first

-- Every name of the text, in code and in preprocessor lines.
def identifiers (stream : Stream) : List String :=
  (stream.tokens.filter Token.isIdentifier).map Token.text

end Stream

end EventFlow.Source
