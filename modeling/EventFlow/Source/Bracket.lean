import EventFlow.Source.Token

namespace EventFlow.Source

inductive Bracket where
  | round
  | square
  | curly
  deriving DecidableEq

namespace Bracket

def opening : Bracket → Char
  | round => '('
  | square => '['
  | curly => '{'

def closing : Bracket → Char
  | round => ')'
  | square => ']'
  | curly => '}'

def all : List Bracket := [round, square, curly]

def opens (bracket : Bracket) (token : Token) : Bool := token.isPunctuation bracket.opening

def closes (bracket : Bracket) (token : Token) : Bool := token.isPunctuation bracket.closing

-- The bracket that a token opens.
def ofOpening? (token : Token) : Option Bracket := all.find? (fun bracket => bracket.opens token)

-- How many tokens stand before the one that closes a group of this kind. `depth` counts the
-- groups of the kind that are open inside it. Other kinds of brackets do not count.
def untilClose (bracket : Bracket) : Nat → List Token → Option Nat
  | _, [] => none
  | depth, token :: rest =>
    if bracket.opens token then (bracket.untilClose (depth + 1) rest).map (· + 1)
    else if bracket.closes token then
      match depth with
      | 0 => some 0
      | depth + 1 => (bracket.untilClose depth rest).map (· + 1)
    else (bracket.untilClose depth rest).map (· + 1)

end Bracket

namespace Token

-- The number of the token that closes the group which token number `first` opens.
def closeOf? (tokens : List Token) (first : Nat) : Option Nat :=
  match tokens.drop first with
  | [] => none
  | token :: rest =>
    (Bracket.ofOpening? token).bind fun bracket =>
      (bracket.untilClose 0 rest).map (first + 1 + ·)

-- For tokens that begin with a group of this kind, the tokens inside it and those behind it.
def group? (bracket : Bracket) : List Token → Option (List Token × List Token)
  | [] => none
  | token :: rest =>
    if bracket.opens token then
      (bracket.untilClose 0 rest).map fun count => (rest.take count, rest.drop (count + 1))
    else none

-- The depth behind a token, over all three kinds. It never goes below zero.
def depthAfter (depth : Nat) (token : Token) : Nat :=
  if Bracket.all.any (fun bracket => bracket.opens token) then depth + 1
  else if Bracket.all.any (fun bracket => bracket.closes token) then depth - 1
  else depth

def splitAtCommas (depth : Nat) : List Token → List (List Token)
  | [] => [[]]
  | token :: rest =>
    if token.isPunctuation ',' ∧ depth = 0 then [] :: splitAtCommas 0 rest
    else (splitAtCommas (depthAfter depth token) rest).modifyHead (token :: ·)

-- The arguments in a group, cut at the commas outside inner groups. An empty group has none.
def arguments : List Token → List (List Token)
  | [] => []
  | token :: rest => splitAtCommas 0 (token :: rest)

-- The arguments of a call whose name stands right before these tokens.
def callArguments? (behind : List Token) : Option (List (List Token)) :=
  (group? .round behind).map (fun group => arguments group.1)

-- The words of an argument run together, without its parentheses.
def bareText (argument : List Token) : String :=
  String.join ((argument.filter fun token =>
    !token.isPunctuation '(' && !token.isPunctuation ')').map Token.text)

theorem length_of_group? {bracket : Bracket} {tokens inside behind : List Token}
    (h : group? bracket tokens = some (inside, behind)) : behind.length < tokens.length := by
  cases tokens with
  | nil => simp [group?] at h
  | cons token rest =>
    simp only [group?] at h
    split at h
    · obtain ⟨count, _, heq⟩ := Option.map_eq_some_iff.mp h
      obtain ⟨_, rfl⟩ := Prod.mk.inj heq
      simp only [List.length_drop, List.length_cons]
      omega
    · cases h

end Token

end EventFlow.Source
