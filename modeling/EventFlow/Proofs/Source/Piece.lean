import EventFlow.Source.Stream
import Mathlib.Data.List.TakeWhile

namespace EventFlow.Source

def isIdentifier (name : String) : Bool :=
  match name.toList with
  | [] => false
  | c :: rest => isIdentifierStart c && rest.all isIdentifierPart

theorem exists_chars_of_isIdentifier {name : String} (h : isIdentifier name) :
    ∃ c rest, name.toList = c :: rest ∧ isIdentifierStart c ∧ ∀ d ∈ rest, isIdentifierPart d := by
  unfold isIdentifier at h
  cases hname : name.toList with
  | nil =>
    rw [hname] at h
    cases h
  | cons c rest =>
    simp only [hname, Bool.and_eq_true, List.all_eq_true] at h
    exact ⟨c, rest, rfl, h⟩

-- The characters of punctuation that the lines below are written with. None of them begins
-- anything longer.
def plainMarks : List Char := ['#', '(', ')', ',', ';', '{', '}']

inductive Piece where
  | word (name : String)
  | mark (c : Char)
  | gap
  deriving DecidableEq

namespace Piece

def text : Piece → List Char
  | word name => name.toList
  | mark c => [c]
  | gap => [' ']

def lexeme : Piece → Lexeme
  | word name => ⟨.identifier, name.toList⟩
  | mark c => ⟨.punctuation, [c]⟩
  | gap => ⟨.blank, [' ']⟩

-- Nothing runs together: no word stands right behind another, and behind a gap stands a word
-- or a mark.
def Fits : List Piece → Prop
  | [] => True
  | word name :: rest => isIdentifier name ∧ (∀ other, rest.head? ≠ some (word other)) ∧ Fits rest
  | mark c :: rest => c ∈ plainMarks ∧ Fits rest
  | gap :: rest => (rest ≠ [] ∧ rest.head? ≠ some gap) ∧ Fits rest

end Piece

theorem isIdentifierPart_of_start {c : Char} (h : isIdentifierStart c) : isIdentifierPart c := by
  simp only [isIdentifierStart, isIdentifierPart, Char.isAlphanum, Bool.or_eq_true] at h ⊢
  rcases h with h | h
  · exact .inl (.inl h)
  · exact .inr h

-- The characters of words print, and so none of them is white space.

theorem printing_of_isIdentifierPart {c : Char} (h : isIdentifierPart c) :
    0x21 ≤ c.toNat ∧ c.toNat ≤ 0x7E := by
  change (decide (c.val ≥ 'A'.val ∧ c.val ≤ 'Z'.val) ||
    (decide (c.val ≥ 'a'.val) && decide (c.val ≤ 'z'.val)) ||
    (decide (c.val ≥ '0'.val) && decide (c.val ≤ '9'.val)) || c == '_') = true at h
  simp only [Bool.or_eq_true, Bool.and_eq_true, decide_eq_true_eq, beq_iff_eq] at h
  change ((((65 ≤ c.toNat ∧ c.toNat ≤ 90) ∨ 97 ≤ c.toNat ∧ c.toNat ≤ 122) ∨
    48 ≤ c.toNat ∧ c.toNat ≤ 57) ∨ c = '_') at h
  rcases h with h | rfl
  · omega
  · decide

theorem isBlank_of_printing {c : Char} (h : 0x21 ≤ c.toNat ∧ c.toNat ≤ 0x7E) :
    Text.isBlank c = false := by
  by_contra hblank
  simp only [Text.isBlank, Text.blankRanges, List.any_cons, List.any_nil, Bool.or_false,
    Bool.not_eq_false, Bool.or_eq_true, Bool.and_eq_true, decide_eq_true_eq] at hblank
  omega

theorem isBlank_of_isIdentifierPart {c : Char} (h : isIdentifierPart c) :
    Text.isBlank c = false :=
  isBlank_of_printing (printing_of_isIdentifierPart h)

theorem isIdentifierPart_of_mem {name : String} (h : isIdentifier name) {c : Char}
    (hc : c ∈ name.toList) : isIdentifierPart c := by
  obtain ⟨first, rest, hname, hstart, hrest⟩ := exists_chars_of_isIdentifier h
  rw [hname] at hc
  rcases List.mem_cons.mp hc with rfl | hc
  · exact isIdentifierPart_of_start hstart
  · exact hrest c hc

theorem exists_last_of_isIdentifier {name : String} (h : isIdentifier name) :
    ∃ front c, name.toList = front ++ [c] ∧ isIdentifierPart c := by
  obtain ⟨c, rest, hname, -⟩ := exists_chars_of_isIdentifier h
  have hne : name.toList ≠ [] := by
    rw [hname]
    exact List.cons_ne_nil c rest
  exact ⟨_, _, (List.dropLast_concat_getLast hne).symm,
    isIdentifierPart_of_mem h (List.getLast_mem hne)⟩

theorem front_of_isIdentifierStart {c : Char} (h : isIdentifierStart c) (rest : List Char) :
    Lexeme.front c rest = (.identifier, Lexeme.runLength isIdentifierPart rest) := by
  have hne : ∀ d, isIdentifierStart d = false → c ≠ d := by
    rintro d hd rfl
    rw [hd] at h
    cases h
  have hblank : isBlank c = false := by
    simp only [isBlank, Bool.or_eq_false_iff, beq_eq_false_iff_ne]
    exact ⟨⟨⟨⟨hne _ (by decide), hne _ (by decide)⟩, hne _ (by decide)⟩, hne _ (by decide)⟩,
      hne _ (by decide)⟩
  unfold Lexeme.front
  rw [if_neg (hne _ (by decide)), hblank, if_neg Bool.false_ne_true, if_neg (hne _ (by decide)),
    if_neg (hne _ (by decide)), if_neg (hne _ (by decide)), if_neg (hne _ (by decide)), if_pos h]

theorem front_of_mem_plainMarks {c : Char} (h : c ∈ plainMarks) (rest : List Char) :
    Lexeme.front c rest = (.punctuation, 0) := by
  simp only [plainMarks, List.mem_cons, List.not_mem_nil, or_false] at h
  rcases h with rfl | rfl | rfl | rfl | rfl | rfl | rfl <;> rfl

section Run

variable {inside : Char → Bool} {front rest : List Char}

theorem takeWhile_run (h : ∀ c ∈ front, inside c)
    (hrest : rest.head?.all (fun c => !inside c)) : (front ++ rest).takeWhile inside = front := by
  rw [List.takeWhile_append_of_pos h]
  cases rest with
  | nil => rw [List.takeWhile_nil, List.append_nil]
  | cons c rest => rw [List.takeWhile_cons_of_neg (by simpa using hrest), List.append_nil]

theorem dropWhile_run (h : ∀ c ∈ front, inside c)
    (hrest : rest.head?.all (fun c => !inside c)) : (front ++ rest).dropWhile inside = rest := by
  rw [List.dropWhile_append_of_pos h]
  cases rest with
  | nil => rfl
  | cons c rest => rw [List.dropWhile_cons_of_neg (by simpa using hrest)]

end Run

namespace Lexeme

theorem scan_newline (rest : List Char) :
    scan ('\n' :: rest) = ⟨.newline, ['\n']⟩ :: scan rest := by
  rw [scan]
  rfl

theorem scan_gap (rest : List Char) : scan (' ' :: rest) = ⟨.blank, [' ']⟩ :: scan rest := by
  rw [scan]
  rfl

theorem scan_mark {c : Char} (h : c ∈ plainMarks) (rest : List Char) :
    scan (c :: rest) = ⟨.punctuation, [c]⟩ :: scan rest := by
  rw [scan, front_of_mem_plainMarks h]
  rfl

theorem scan_word {name : String} {rest : List Char} (h : isIdentifier name)
    (hrest : rest.head?.all (fun c => !isIdentifierPart c)) :
    scan (name.toList ++ rest) = ⟨.identifier, name.toList⟩ :: scan rest := by
  obtain ⟨c, more, hname, hstart, hmore⟩ := exists_chars_of_isIdentifier h
  rw [hname, List.cons_append, scan, front_of_isIdentifierStart hstart, runLength,
    takeWhile_run hmore hrest, List.take_left, List.drop_left]

end Lexeme

namespace Piece

def textOf (pieces : List Piece) : List Char := pieces.flatMap Piece.text

-- What follows a word does not go on with it.
theorem head?_textOf {pieces : List Piece} (h : Fits pieces)
    (hword : ∀ other, pieces.head? ≠ some (word other)) :
    (textOf pieces).head?.all (fun c => !isIdentifierPart c) := by
  cases pieces with
  | nil => rfl
  | cons piece pieces =>
    cases piece with
    | word name => exact absurd rfl (hword name)
    | mark c =>
      have hc : c ∈ plainMarks := h.1
      simp only [plainMarks, List.mem_cons, List.not_mem_nil, or_false] at hc
      rcases hc with rfl | rfl | rfl | rfl | rfl | rfl | rfl <;> rfl
    | gap => rfl

theorem head?_textOf_append {pieces : List Piece} (h : Fits pieces)
    (hword : ∀ other, pieces.head? ≠ some (word other)) (rest : List Char) :
    (textOf pieces ++ '\n' :: rest).head?.all (fun c => !isIdentifierPart c) := by
  have hhead := head?_textOf h hword
  cases htext : textOf pieces with
  | nil => rfl
  | cons c more =>
    rw [htext] at hhead
    exact hhead

-- A line is cut back into the pieces it is put together from.
theorem scan_textOf {pieces : List Piece} (h : Fits pieces) (rest : List Char) :
    Lexeme.scan (textOf pieces ++ '\n' :: rest) =
      pieces.map lexeme ++ ⟨.newline, ['\n']⟩ :: Lexeme.scan rest := by
  induction pieces with
  | nil => exact Lexeme.scan_newline rest
  | cons piece pieces ih =>
    rw [textOf, List.flatMap_cons, List.append_assoc, List.map_cons, List.cons_append]
    cases piece with
    | word name =>
      obtain ⟨hname, hword, hrest⟩ := h
      rw [← ih hrest]
      exact Lexeme.scan_word hname (head?_textOf_append hrest hword rest)
    | mark c =>
      rw [← ih h.2]
      exact Lexeme.scan_mark h.1 _
    | gap =>
      rw [← ih h.2]
      exact Lexeme.scan_gap _

end Piece

end EventFlow.Source
