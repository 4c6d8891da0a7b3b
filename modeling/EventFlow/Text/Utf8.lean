namespace EventFlow.Text.Utf8

-- What the octets at the front of a sequence stand for: a character, or an error that covers
-- the longest run of octets which could have begun a character.
inductive Code where
  | char (c : Char)
  | malformed
  deriving DecidableEq

def Code.char? : Code → Option Char
  | .char c => some c
  | .malformed => none

-- A continuation octet, narrowed to the range that the first octet allows.
def inRange (low high octet : UInt8) : Bool := low ≤ octet && octet ≤ high

def isTail (octet : UInt8) : Bool := inRange 0x80 0xBF octet

def payload (octet : UInt8) : Nat := octet.toNat % 64

-- Two continuation octets, the first one in the given range.
def threeOctets (lead : UInt8) (low high : UInt8) : List UInt8 → Code × Nat
  | second :: third :: _ =>
    if inRange low high second then
      if isTail third then
        (.char (Char.ofNat ((lead.toNat % 16) * 4096 + payload second * 64 + payload third)), 2)
      else (.malformed, 1)
    else (.malformed, 0)
  | [second] => if inRange low high second then (.malformed, 1) else (.malformed, 0)
  | [] => (.malformed, 0)

-- Three continuation octets, the first one in the given range.
def fourOctets (lead : UInt8) (low high : UInt8) : List UInt8 → Code × Nat
  | second :: third :: fourth :: _ =>
    if inRange low high second then
      if isTail third then
        if isTail fourth then
          (.char (Char.ofNat ((lead.toNat % 8) * 262144 + payload second * 4096
            + payload third * 64 + payload fourth)), 3)
        else (.malformed, 2)
      else (.malformed, 1)
    else (.malformed, 0)
  | [second, third] =>
    if inRange low high second then
      if isTail third then (.malformed, 2) else (.malformed, 1)
    else (.malformed, 0)
  | [second] => if inRange low high second then (.malformed, 1) else (.malformed, 0)
  | [] => (.malformed, 0)

-- The first code of `lead :: rest`, and how many octets of `rest` belong to it.
def front (lead : UInt8) (rest : List UInt8) : Code × Nat :=
  if lead < 0x80 then (.char (Char.ofNat lead.toNat), 0)
  else if inRange 0xC2 0xDF lead then
    match rest with
    | second :: _ =>
      if isTail second then
        (.char (Char.ofNat ((lead.toNat % 32) * 64 + payload second)), 1)
      else (.malformed, 0)
    | [] => (.malformed, 0)
  else if lead = 0xE0 then threeOctets lead 0xA0 0xBF rest
  else if lead = 0xED then threeOctets lead 0x80 0x9F rest
  else if inRange 0xE1 0xEF lead then threeOctets lead 0x80 0xBF rest
  else if lead = 0xF0 then fourOctets lead 0x90 0xBF rest
  else if inRange 0xF1 0xF3 lead then fourOctets lead 0x80 0xBF rest
  else if lead = 0xF4 then fourOctets lead 0x80 0x8F rest
  else (.malformed, 0)

def codes : List UInt8 → List Code
  | [] => []
  | lead :: rest => (front lead rest).1 :: codes (rest.drop (front lead rest).2)
termination_by octets => octets.length

-- Every malformed run reads as one replacement character.
def decodeLossy (octets : List UInt8) : String :=
  String.ofList ((codes octets).map (fun code => code.char?.getD '\uFFFD'))

-- The text, unless some run is malformed.
def decode? (octets : List UInt8) : Option String :=
  ((codes octets).mapM Code.char?).map String.ofList

def encode (text : String) : List UInt8 := text.toUTF8.data.toList

end EventFlow.Text.Utf8
