namespace EventFlow.Text

-- The code points with the property White_Space, as closed ranges.
def blankRanges : List (Nat × Nat) :=
  [(0x09, 0x0D), (0x20, 0x20), (0x85, 0x85), (0xA0, 0xA0), (0x1680, 0x1680), (0x2000, 0x200A),
   (0x2028, 0x2029), (0x202F, 0x202F), (0x205F, 0x205F), (0x3000, 0x3000)]

def isBlank (c : Char) : Bool :=
  blankRanges.any (fun range => range.1 ≤ c.toNat && c.toNat ≤ range.2)

def dropBlankStart (text : List Char) : List Char := text.dropWhile isBlank

def dropBlankEnd (text : List Char) : List Char := (text.reverse.dropWhile isBlank).reverse

def stripBlanks (text : List Char) : List Char := dropBlankEnd (dropBlankStart text)

-- The last of the words that blanks separate, or nothing when there is no word.
def lastWord (text : List Char) : List Char :=
  ((dropBlankEnd text).reverse.takeWhile (fun c => !isBlank c)).reverse

example : isBlank 'a' = false ∧ isBlank '\u200b' = false := by decide

end EventFlow.Text
