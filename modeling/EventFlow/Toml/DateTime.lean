import EventFlow.Text.Digit

namespace EventFlow.Toml

structure Date where
  year : Nat
  month : Nat
  day : Nat
  deriving DecidableEq

-- A time of day with the digits of the fraction of its second.
structure Time where
  hour : Nat
  minute : Nat
  second : Nat
  fraction : List Char
  deriving DecidableEq

-- A date, a time of day, or both. A date with a time may say by how many minutes it is ahead
-- of the zone from which all others are counted.
inductive DateTime where
  | date (date : Date)
  | time (time : Time)
  | moment (date : Date) (time : Time) (ahead : Option Int)
  deriving DecidableEq

-- A number with exactly so many digits.
def fixedNatural? (length : Nat) (text : List Char) : Option Nat :=
  if text.length = length then Text.natural? 10 text else none

namespace Date

-- The present calendar is used for all years, also for the year zero.
def isLeap (year : Nat) : Bool := year % 4 = 0 && (year % 100 ≠ 0 || year % 400 = 0)

def monthLength (year month : Nat) : Nat :=
  if month = 2 then if isLeap year then 29 else 28
  else if month ∈ [4, 6, 9, 11] then 30
  else 31

example : monthLength 1900 2 = 28 ∧ monthLength 2000 2 = 29 ∧ monthLength 2001 12 = 31 := by
  decide

def ofText? (text : List Char) : Option Date :=
  match text.splitOn '-' with
  | [year, month, day] => do
    let year ← fixedNatural? 4 year
    let month ← fixedNatural? 2 month
    let day ← fixedNatural? 2 day
    if 1 ≤ month ∧ month ≤ 12 ∧ 1 ≤ day ∧ day ≤ monthLength year month then
      some ⟨year, month, day⟩
    else none
  | _ => none

end Date

namespace Time

-- The digits behind the point. A point has digits behind it.
def fraction? : List Char → Option (List Char)
  | [] => some []
  | _ :: digits => if digits ≠ [] ∧ digits.all Char.isDigit then some digits else none

-- The last minute of an hour may be a second longer than the others.
def ofText? (text : List Char) : Option Time :=
  let (whole, fraction) := text.span (· ≠ '.')
  match whole.splitOn ':' with
  | [hour, minute, second] => do
    let hour ← fixedNatural? 2 hour
    let minute ← fixedNatural? 2 minute
    let second ← fixedNatural? 2 second
    let fraction ← fraction? fraction
    if hour < 24 ∧ minute < 60 ∧ second ≤ 60 then some ⟨hour, minute, second, fraction⟩ else none
  | _ => none

end Time

namespace DateTime

-- Hours and minutes as minutes.
def minutes? (text : List Char) : Option Int :=
  match text.splitOn ':' with
  | [hour, minute] => do
    let hour ← fixedNatural? 2 hour
    let minute ← fixedNatural? 2 minute
    if hour < 24 ∧ minute < 60 then some (Int.ofNat (hour * 60 + minute)) else none
  | _ => none

-- What stands behind the time of a date.
def ahead? (text : List Char) : Option (Option Int) :=
  match text with
  | [] => some none
  | ['Z'] | ['z'] => some (some 0)
  | '+' :: rest => (minutes? rest).map some
  | '-' :: rest => (minutes? rest).map fun minutes => some (-minutes)
  | _ => none

-- A letter or one blank stands between a date and its time.
def ofText? (text : List Char) : Option DateTime :=
  match Time.ofText? text with
  | some clock => some (.time clock)
  | none => do
    let day ← Date.ofText? (text.take 10)
    match text.drop 10 with
    | [] => return .date day
    | 'T' :: rest | 't' :: rest | ' ' :: rest =>
      let (clock, zone) := rest.span fun c => c.isDigit || c = ':' || c = '.'
      return .moment day (← Time.ofText? clock) (← ahead? zone)
    | _ => none

end DateTime

end EventFlow.Toml
