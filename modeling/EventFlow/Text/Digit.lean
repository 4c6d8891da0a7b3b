namespace EventFlow.Text

-- The value of a digit in a base up to sixteen. Letters may be small or capital.
def digitValue? (base : Nat) (c : Char) : Option Nat :=
  let value :=
    if c.isDigit then some (c.toNat - '0'.toNat)
    else if 'a' ≤ c ∧ c ≤ 'f' then some (c.toNat - 'a'.toNat + 10)
    else if 'A' ≤ c ∧ c ≤ 'F' then some (c.toNat - 'A'.toNat + 10)
    else none
  value.filter (fun digit => digit < base)

-- The number that digits stand for. It takes at least one of them.
def natural? (base : Nat) (digits : List Char) : Option Nat :=
  if digits = [] then none
  else digits.foldlM (fun value c => (digitValue? base c).map (value * base + ·)) 0

example : natural? 16 "1F".toList = some 31 ∧ natural? 8 ['8'] = none ∧ natural? 10 [] = none := by
  decide

end EventFlow.Text
