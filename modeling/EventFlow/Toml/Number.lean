import EventFlow.Text.Digit

namespace EventFlow.Toml

-- The digits of a number in which single underscores may stand between digits.
def digits? (base : Nat) (text : List Char) : Option (List Char) :=
  let groups := text.splitOn '_'
  if groups.all fun group => group ≠ [] && group.all fun c => (Text.digitValue? base c).isSome then
    some groups.flatten
  else none

-- Decimal digits without a zero in front of others.
def decimalDigits? (text : List Char) : Option (List Char) :=
  match text with
  | '0' :: _ :: _ => none
  | _ => digits? 10 text

def natural? (base : Nat) (text : List Char) : Option Nat :=
  (digits? base text).bind (Text.natural? base)

-- Whether a number has a minus in front, and what follows its sign if it has one.
def splitSign (text : List Char) : Bool × List Char :=
  match text with
  | '+' :: rest => (false, rest)
  | '-' :: rest => (true, rest)
  | _ => (false, text)

def signed (negative : Bool) (size : Nat) : Int :=
  if negative then -Int.ofNat size else Int.ofNat size

-- A whole number of 64 bits. Only a decimal one has a sign.
def integer? (text : List Char) : Option Int :=
  let value := match text with
    | '0' :: 'x' :: digits => (natural? 16 digits).map Int.ofNat
    | '0' :: 'o' :: digits => (natural? 8 digits).map Int.ofNat
    | '0' :: 'b' :: digits => (natural? 2 digits).map Int.ofNat
    | _ =>
      let (negative, size) := splitSign text
      ((decimalDigits? size).bind (Text.natural? 10)).map (signed negative)
  value.filter fun value => -9223372036854775808 ≤ value ∧ value < 9223372036854775808

-- A number that need not be whole: a coefficient times a power of ten, or none of that kind.
inductive Decimal where
  | finite (negative : Bool) (coefficient : Nat) (exponent : Int)
  | infinite (negative : Bool)
  | notANumber
  deriving DecidableEq

namespace Decimal

-- Half way from the greatest finite number of 64 bits to the next power of two. From here on
-- the nearest number of 64 bits is infinite.
def bound : Nat := Nat.shiftLeft 0x3FFFFFFFFFFFFF 970

-- Whether a coefficient times a power of ten reaches the bound, which has 309 digits. The
-- power is worked out only where the number has as many, so it never gets long.
def reachesBound (coefficient : Nat) (exponent : Int) : Bool :=
  let places := Int.ofNat (Nat.toDigits 10 coefficient).length + exponent
  if coefficient = 0 ∨ places < 309 then false
  else if 309 < places then true
  else match exponent with
    | .ofNat power => bound ≤ coefficient * Nat.pow 10 power
    | .negSucc power => bound ≤ coefficient / Nat.pow 10 (power + 1)

-- What stands behind the point. It has digits if there is a point.
def fraction? : List Char → Option (List Char)
  | [] => some []
  | _ :: digits => digits? 10 digits

-- What stands behind the mark of the exponent. It may have zeros in front.
def exponent? : List Char → Option Int
  | [] => some 0
  | _ :: exponent =>
    let (negative, size) := splitSign exponent
    (natural? 10 size).map (signed negative)

-- A number with a fraction, an exponent or both.
def finite? (negative : Bool) (size : List Char) : Option Decimal := do
  let (mantissa, exponent) := size.span fun c => c ≠ 'e' && c ≠ 'E'
  let (whole, fraction) := mantissa.span (· ≠ '.')
  if fraction = [] ∧ exponent = [] then none
  let whole ← decimalDigits? whole
  let fraction ← fraction? fraction
  let coefficient ← Text.natural? 10 (whole ++ fraction)
  let exponent := (← exponent? exponent) - Int.ofNat fraction.length
  return .finite negative coefficient exponent

-- A positive number is refused where 64 bits have only infinity for it.
def ofText? (text : List Char) : Option Decimal :=
  let (negative, size) := splitSign text
  if size = ['i', 'n', 'f'] then some (.infinite negative)
  else if size = ['n', 'a', 'n'] then some .notANumber
  else (finite? negative size).filter fun
    | .finite false coefficient exponent => !reachesBound coefficient exponent
    | _ => true

end Decimal

end EventFlow.Toml
