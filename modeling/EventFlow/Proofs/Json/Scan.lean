import EventFlow.Json.Printer
import EventFlow.Json.Reader
import Mathlib.Tactic.IntervalCases

namespace EventFlow.Json

-- The tokens that a value is written with.
mutual

def tokens : Json → List Token
  | null => [.null]
  | bool value => [.bool value]
  | number value => [.number value]
  | string text => [.string text]
  | array [] => [.openBracket, .closeBracket]
  | array (first :: rest) =>
    .openBracket :: (tokens first ++ elementTokens rest ++ [.closeBracket])
  | object [] => [.openBrace, .closeBrace]
  | object ((name, value) :: rest) =>
    .openBrace :: .string name :: .colon :: (tokens value ++ memberTokens rest ++ [.closeBrace])

def elementTokens : List Json → List Token
  | [] => []
  | element :: rest => .comma :: (tokens element ++ elementTokens rest)

def memberTokens : List (String × Json) → List Token
  | [] => []
  | (name, value) :: rest =>
    .comma :: .string name :: .colon :: (tokens value ++ memberTokens rest)

end

namespace Token

variable {scan next : Scan} {c : Char} {rest : List Char} {token : Token}

theorem scan?_cons (scan : Scan) (c : Char) (rest : List Char) :
    scan? scan (c :: rest) =
      (step? scan c).bind fun result => (scan? result.2 rest).map (result.1 ++ ·) := by
  cases hstep : step? scan c with
  | none => simp [scan?, hstep]
  | some result => cases hrest : scan? result.2 rest <;> simp [scan?, hstep, hrest]

theorem scan?_of_silent (h : step? scan c = some ([], next)) :
    scan? scan (c :: rest) = scan? next rest := by
  simp [scan?_cons, h]

theorem scan?_of_token (h : step? scan c = some ([token], next)) :
    scan? scan (c :: rest) = (scan? next rest).map (token :: ·) := by
  simp [scan?_cons, h]

-- A character that ends a number or a word begins what comes next.
theorem scan?_of_end
    (h : step? scan c = (start? c).map fun result => (token :: result.1, result.2)) :
    scan? scan (c :: rest) = (scan? .between (c :: rest)).map (token :: ·) := by
  have hbetween : step? .between c = start? c := rfl
  rw [scan?_cons, scan?_cons, h, hbetween]
  cases start? c with
  | none => rfl
  | some result => simp [Function.comp_def]

-- What may stand behind a number or a word without going on with it.
def Ends (rest : List Char) : Prop := ∀ c ∈ rest.head?, c.isDigit = false ∧ c.isAlpha = false

theorem start?_of_isAlpha (h : c.isAlpha = true) : start? c = some ([], .inWord [c]) := by
  have hdigit : ¬ c.isDigit = true := by
    -- the digits all stand before the letters
    intro hdigit
    have hupto : c.val ≤ '9'.val := of_decide_eq_true (Bool.and_eq_true_iff.mp hdigit).2
    rcases Bool.or_eq_true_iff.mp h with hupper | hlower
    · have hfrom : 'A'.val ≤ c.val := (of_decide_eq_true hupper).1
      exact absurd (UInt32.le_trans hfrom hupto) (by decide)
    · have hfrom : 'a'.val ≤ c.val := of_decide_eq_true (Bool.and_eq_true_iff.mp hlower).1
      exact absurd (UInt32.le_trans hfrom hupto) (by decide)
  unfold start?
  split <;> simp_all

theorem scan?_letters {word : List Char} (read : List Char) (h : ∀ c ∈ word, c.isAlpha = true)
    (rest : List Char) :
    scan? (.inWord read) (word ++ rest) = scan? (.inWord (word.reverse ++ read)) rest := by
  induction word generalizing read with
  | nil => rfl
  | cons c word ih =>
    rw [List.forall_mem_cons] at h
    have hstep : step? (.inWord read) c = some ([], .inWord (c :: read)) := by simp [step?, h.1]
    rw [List.cons_append, scan?_of_silent hstep, ih _ h.2, List.reverse_cons, List.append_assoc,
      List.singleton_append]

theorem scan?_keyword {word : List Char} (hword : ofWord? word = some token)
    (halpha : word.all Char.isAlpha = true) (h : Ends rest) :
    scan? .between (word ++ rest) = (scan? .between rest).map (token :: ·) := by
  rw [List.all_eq_true] at halpha
  cases word with
  | nil => cases hword
  | cons first word =>
    rw [List.forall_mem_cons] at halpha
    have hread : ofWord? (word.reverse ++ [first]).reverse = some token := by
      simpa using hword
    rw [List.cons_append, @scan?_of_silent .between _ _ _ (start?_of_isAlpha halpha.1),
      scan?_letters [first] halpha.2]
    cases rest with
    | nil => simp only [scan?, hread, Option.map_some]
    | cons c rest =>
      obtain ⟨_, hother⟩ := h c rfl
      apply scan?_of_end
      cases hstart : start? c <;> simp [step?, hother, hword, hstart]

theorem scan?_number {value : Nat} (h : Ends rest) :
    scan? (.inNumber value) rest = (scan? .between rest).map (.number value :: ·) := by
  cases rest with
  | nil => simp [scan?]
  | cons c rest =>
    obtain ⟨hdigit, _⟩ := h c rfl
    apply scan?_of_end
    simp [step?, hdigit]

theorem start?_digitChar {digit : Nat} (h : digit < 10) :
    start? digit.digitChar = some ([], .inNumber digit) := by
  interval_cases digit <;> rfl

theorem scan?_toDigits (value : Nat) (rest : List Char) :
    scan? .between (Nat.toDigits 10 value ++ rest) = scan? (.inNumber value) rest := by
  induction value using Nat.strongRecOn generalizing rest with
  | ind value ih =>
    by_cases hsmall : value < 10
    · rw [Nat.toDigits_of_lt_base hsmall, List.singleton_append]
      exact scan?_of_silent (start?_digitChar hsmall)
    · have hdigit : value % 10 < 10 := Nat.mod_lt value (by omega)
      have hpositive : value / 10 ≠ 0 := by omega
      have hvalue : value / 10 * 10 + ((value % 10).digitChar.toNat - '0'.toNat) = value := by
        have hcode := Nat.toNat_digitChar_of_lt_ten hdigit
        have hzero : '0'.toNat = 48 := rfl
        omega
      have hstep : step? (.inNumber (value / 10)) (value % 10).digitChar =
          some ([], .inNumber value) := by
        simp only [step?, Nat.isDigit_digitChar, hdigit, decide_true, if_true, hpositive, if_false,
          hvalue]
      rw [Nat.toDigits_of_base_le (by omega) (by omega), List.append_assoc,
        ih (value / 10) (by omega), List.singleton_append, scan?_of_silent hstep]

theorem scan?_letter {letter : Char} (text : List Char) (rest : List Char) (hletter : letter ≠ 'u')
    (h : escaped? letter = some c) :
    scan? (.inString text) ('\\' :: letter :: rest) = scan? (.inString (c :: text)) rest := by
  have hstep : step? (.escape text none) letter = some ([], .inString (c :: text)) := by
    simp [step?, hletter, h]
  rw [scan?_of_silent rfl, scan?_of_silent hstep]

theorem digitValue?_hexDigit : ∀ digit < 16, Text.digitValue? 16 (hexDigit digit) = some digit := by
  decide

theorem scan?_control (text : List Char) (rest : List Char) (h : c.toNat < 0x20) :
    scan? (.inString text) ('\\' :: 'u' :: '0' :: '0' :: hexDigit (c.toNat / 16) ::
      hexDigit (c.toNat % 16) :: rest) = scan? (.inString (c :: text)) rest := by
  have hhigh := digitValue?_hexDigit (c.toNat / 16) (by omega)
  have hlow := digitValue?_hexDigit (c.toNat % 16) (by omega)
  have hfirst : step? (.code text none 0 0) '0' = some ([], .code text none 1 0) := rfl
  have hsecond : step? (.code text none 1 0) '0' = some ([], .code text none 2 0) := rfl
  have hthird : step? (.code text none 2 0) (hexDigit (c.toNat / 16)) =
      some ([], .code text none 3 (c.toNat / 16)) := by
    simp [step?, hhigh]
  have hfourth : step? (.code text none 3 (c.toNat / 16)) (hexDigit (c.toNat % 16)) =
      some ([], .inString (c :: text)) := by
    have hvalue : c.toNat / 16 * 16 + c.toNat % 16 = c.toNat := by omega
    have hpair : ¬ (0xD800 ≤ c.toNat ∧ c.toNat < 0xDC00) := by omega
    have hlater : ¬ (0xDC00 ≤ c.toNat ∧ c.toNat < 0xE000) := by omega
    simp only [step?, hlow, Option.bind_eq_bind, Option.bind_some, if_true, hvalue, afterCode?,
      if_neg hpair, if_neg hlater, Option.map_some, Char.ofNat_toNat]
  rw [scan?_of_silent rfl, scan?_of_silent rfl, scan?_of_silent hfirst, scan?_of_silent hsecond,
    scan?_of_silent hthird, scan?_of_silent hfourth]

-- Within quotes each character is read as it was before it was escaped.
theorem scan?_escape (text : List Char) (c : Char) (rest : List Char) :
    scan? (.inString text) (escape c ++ rest) = scan? (.inString (c :: text)) rest := by
  unfold escape
  split_ifs with hquote hbackslash hb hf hn hr ht hcontrol
  · exact scan?_letter text rest (by decide) (by rw [hquote]; rfl)
  · exact scan?_letter text rest (by decide) (by rw [hbackslash]; rfl)
  · exact scan?_letter text rest (by decide) (by rw [hb]; rfl)
  · exact scan?_letter text rest (by decide) (by rw [hf]; rfl)
  · exact scan?_letter text rest (by decide) (by rw [hn]; rfl)
  · exact scan?_letter text rest (by decide) (by rw [hr]; rfl)
  · exact scan?_letter text rest (by decide) (by rw [ht]; rfl)
  · exact scan?_control text rest hcontrol
  · rw [List.singleton_append]
    apply scan?_of_silent
    simp [step?, hquote, hbackslash, hcontrol]

theorem scan?_quote (text : String) (rest : List Char) :
    scan? .between (quote text ++ rest) = (scan? .between rest).map (.string text :: ·) := by
  have hinside : ∀ (written : List Char) (characters : List Char),
      scan? (.inString written) (characters.flatMap escape ++ '"' :: rest) =
        (scan? .between rest).map
          (.string (String.ofList (characters.reverse ++ written).reverse) :: ·) := by
    intro written characters
    induction characters generalizing written with
    | nil => exact scan?_of_token rfl
    | cons c characters ih =>
      rw [List.flatMap_cons, List.append_assoc, scan?_escape, ih, List.reverse_cons,
        List.append_assoc, List.singleton_append]
  rw [quote, List.cons_append, scan?_of_silent rfl, List.append_assoc, List.singleton_append,
    hinside, List.append_nil, List.reverse_reverse, String.ofList_toList]

theorem scan?_lineStart (depth : Nat) (rest : List Char) :
    scan? .between (lineStart depth ++ rest) = scan? .between rest := by
  have hblanks : ∀ count, scan? .between (List.replicate count ' ' ++ rest) =
      scan? .between rest := by
    intro count
    induction count with
    | zero => rfl
    | succ count ih =>
      rw [List.replicate_succ, List.cons_append, scan?_of_silent rfl]
      exact ih
  rw [lineStart, List.cons_append, scan?_of_silent rfl]
  exact hblanks _

theorem ends_lineStart (depth : Nat) (rest : List Char) : Ends (lineStart depth ++ rest) := by
  rintro c ⟨⟩
  decide

theorem ends_writeElements (depth : Nat) (elements : List Json) (h : Ends rest) :
    Ends (writeElements depth elements ++ rest) := by
  cases elements with
  | nil => simpa [writeElements] using h
  | cons element elements =>
    rw [writeElements]
    rintro c ⟨⟩
    decide

theorem ends_writeMembers (depth : Nat) (members : List (String × Json)) (h : Ends rest) :
    Ends (writeMembers depth members ++ rest) := by
  cases members with
  | nil => simpa [writeMembers] using h
  | cons member members =>
    rw [writeMembers]
    rintro c ⟨⟩
    decide

end Token

open Token

-- A value is written with its tokens, whatever stands behind it.
mutual

theorem scan?_write (depth : Nat) (value : Json) {rest : List Char} (h : Ends rest) :
    scan? .between (write depth value ++ rest) =
      (scan? .between rest).map (tokens value ++ ·) := by
  match value with
  | .null =>
    rw [write, scan?_keyword rfl rfl h, tokens]
    rfl
  | .bool true =>
    rw [write, scan?_keyword rfl rfl h, tokens]
    rfl
  | .bool false =>
    rw [write, scan?_keyword rfl rfl h, tokens]
    rfl
  | .number value =>
    rw [write, scan?_toDigits, scan?_number h, tokens]
    rfl
  | .string text =>
    rw [write, scan?_quote, tokens]
    rfl
  | .array [] =>
    simp only [write, List.cons_append, List.nil_append]
    rw [scan?_of_token rfl, scan?_of_token rfl, tokens]
    simp [Function.comp_def]
  | .array (first :: others) =>
    have hend := ends_lineStart depth (']' :: rest)
    have hfirst := scan?_write (depth + 1) first (ends_writeElements (depth + 1) others hend)
    have hothers := scan?_writeElements (depth + 1) others hend
    simp only [write, List.cons_append, List.append_assoc, List.nil_append]
    rw [scan?_of_token rfl, scan?_lineStart, hfirst, hothers, scan?_lineStart, scan?_of_token rfl,
      tokens]
    simp [Function.comp_def]
  | .object [] =>
    simp only [write, List.cons_append, List.nil_append]
    rw [scan?_of_token rfl, scan?_of_token rfl, tokens]
    simp [Function.comp_def]
  | .object ((name, value) :: others) =>
    have hend := ends_lineStart depth ('}' :: rest)
    have hvalue := scan?_write (depth + 1) value (ends_writeMembers (depth + 1) others hend)
    have hothers := scan?_writeMembers (depth + 1) others hend
    simp only [write, List.cons_append, List.append_assoc, List.nil_append]
    rw [scan?_of_token rfl, scan?_lineStart, scan?_quote, scan?_of_token rfl, scan?_of_silent rfl,
      hvalue, hothers, scan?_lineStart, scan?_of_token rfl, tokens]
    simp [Function.comp_def]

theorem scan?_writeElements (depth : Nat) (elements : List Json) {rest : List Char}
    (h : Ends rest) :
    scan? .between (writeElements depth elements ++ rest) =
      (scan? .between rest).map (elementTokens elements ++ ·) := by
  match elements with
  | [] => simp [writeElements, elementTokens]
  | element :: others =>
    have helement := scan?_write depth element (ends_writeElements depth others h)
    have hothers := scan?_writeElements depth others h
    simp only [writeElements, List.cons_append, List.append_assoc]
    rw [scan?_of_token rfl, scan?_lineStart, helement, hothers, elementTokens]
    simp [Function.comp_def]

theorem scan?_writeMembers (depth : Nat) (members : List (String × Json)) {rest : List Char}
    (h : Ends rest) :
    scan? .between (writeMembers depth members ++ rest) =
      (scan? .between rest).map (memberTokens members ++ ·) := by
  match members with
  | [] => simp [writeMembers, memberTokens]
  | (name, value) :: others =>
    have hvalue := scan?_write depth value (ends_writeMembers depth others h)
    have hothers := scan?_writeMembers depth others h
    simp only [writeMembers, List.cons_append, List.append_assoc]
    rw [scan?_of_token rfl, scan?_lineStart, scan?_quote, scan?_of_token rfl, scan?_of_silent rfl,
      hvalue, hothers, memberTokens]
    simp [Function.comp_def]

end

end EventFlow.Json
