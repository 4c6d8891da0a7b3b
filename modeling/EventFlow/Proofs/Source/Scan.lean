import EventFlow.Source.Lexeme
import Mathlib.Data.List.Infix
import Mathlib.Data.List.TakeWhile

namespace EventFlow.Source.Lexeme

variable {text rest more : List Char}

-- Whether a literal is over before the text ends, be it with its quote or at a line end.
def literalStops (quote : Char) : List Char → Bool
  | [] => false
  | '\\' :: '\n' :: rest => literalStops quote rest
  | '\\' :: '\r' :: '\n' :: rest => literalStops quote rest
  | '\\' :: _ :: rest => literalStops quote rest
  | '\n' :: _ => true
  | c :: rest => c = quote || literalStops quote rest

section Extents

variable {inside : Char → Bool} {quote : Char}

theorem runLength_le (inside : Char → Bool) (rest : List Char) :
    runLength inside rest ≤ rest.length :=
  (List.takeWhile_prefix inside).length_le

theorem blockCommentLength_le (rest : List Char) : blockCommentLength rest ≤ rest.length := by
  fun_induction blockCommentLength rest with
  | case1 => exact Nat.le_refl 0
  | case2 rest => simp
  | case3 c rest hclose ih => simpa using ih

theorem literalLength_le (quote : Char) (rest : List Char) :
    literalLength quote rest ≤ rest.length := by
  fun_induction literalLength quote rest with
  | case1 => exact Nat.le_refl 0
  | case2 rest ih => simpa using ih
  | case3 rest ih => simpa using ih
  | case4 c rest _ _ ih => simpa using ih
  | case5 rest => exact Nat.zero_le _
  | case6 rest => simp
  | case7 c rest _ _ _ _ _ ih => simpa using ih

-- What is taken up to an end that is found does not depend on what stands behind it.

theorem runLength_append_of_lt (h : runLength inside rest < rest.length) :
    runLength inside (rest ++ more) = runLength inside rest := by
  unfold runLength at h ⊢
  rw [List.takeWhile_append, if_neg (Nat.ne_of_lt h)]

-- A run also ends at the end of the text, if what follows does not go on with it.
theorem runLength_append_of_head (h : more.head?.all fun c => !inside c) :
    runLength inside (rest ++ more) = runLength inside rest := by
  have hmore : more.takeWhile inside = [] := by
    cases more with
    | nil => rfl
    | cons c more => exact List.takeWhile_cons_of_neg (by simpa using h)
  unfold runLength
  rw [List.takeWhile_append, hmore, List.append_nil]
  split
  · rename_i hall
    exact hall.symm
  · rfl

theorem blockCommentLength_append (h : ['*', '/'] <:+: rest) :
    blockCommentLength (rest ++ more) = blockCommentLength rest := by
  fun_induction blockCommentLength rest with
  | case1 => simp at h
  | case2 rest => rfl
  | case3 c rest hclose ih =>
    have hrest : ['*', '/'] <:+: rest := by
      rcases List.infix_cons_iff.mp h with ⟨behind, hbehind⟩ | hinfix
      · obtain ⟨rfl, rfl⟩ := List.cons.inj hbehind
        exact (hclose behind rfl rfl).elim
      · exact hinfix
    -- the character behind `c` is still the same one
    have hopen : ∀ behind, c = '*' → rest ++ more = '/' :: behind → False := by
      intro behind hc hbehind
      cases rest with
      | nil => simp at hrest
      | cons d rest => exact hclose rest hc (by rw [(List.cons.inj hbehind).1])
    rw [List.cons_append, blockCommentLength.eq_3 c _ hopen, ih hrest]

theorem closes_of_blockCommentLength_lt (h : blockCommentLength rest < rest.length) :
    ['*', '/'] <:+: rest := by
  fun_induction blockCommentLength rest with
  | case1 => simp at h
  | case2 rest => exact ⟨[], rest, rfl⟩
  | case3 c rest hclose ih =>
    rw [List.length_cons, Nat.add_lt_add_iff_right] at h
    exact List.infix_cons_iff.mpr (.inr (ih h))

section Literal

variable {c : Char} (hc : c ≠ '\\') (hline : c ≠ '\n')

include hc hline

theorem literalLength_plain (rest : List Char) :
    literalLength quote (c :: rest) = if c = quote then 1 else literalLength quote rest + 1 :=
  literalLength.eq_6 quote c rest (fun _ heq _ => hc heq) (fun _ heq _ => hc heq)
    (fun _ _ heq _ => hc heq) hline

theorem literalStops_plain (rest : List Char) :
    literalStops quote (c :: rest) = (decide (c = quote) || literalStops quote rest) :=
  literalStops.eq_6 quote c rest (fun _ heq _ => hc heq) (fun _ heq _ => hc heq)
    (fun _ _ heq _ => hc heq) hline

end Literal

theorem literalLength_append (hquote : quote ≠ '\\') (h : literalStops quote rest) :
    literalLength quote (rest ++ more) = literalLength quote rest := by
  fun_induction literalLength quote rest with
  | case1 => cases h
  | case2 rest ih => exact congrArg (· + 2) (ih h)
  | case3 rest ih => exact congrArg (· + 3) (ih h)
  | case4 c rest hsplice hwide ih =>
    have hrest : literalStops quote rest := by
      rwa [literalStops.eq_4 quote c rest hsplice hwide] at h
    -- the character behind `c` is still the same one
    have hwide : ∀ behind, c = '\r' → rest ++ more = '\n' :: behind → False := by
      intro behind hc hbehind
      cases rest with
      | nil => cases hrest
      | cons d rest => exact hwide rest hc (by rw [(List.cons.inj hbehind).1])
    rw [List.cons_append, List.cons_append, literalLength.eq_4 quote c _ hsplice hwide, ih hrest]
  | case5 rest => rfl
  | case6 rest _ _ _ hline => rw [List.cons_append, literalLength_plain hquote hline, if_pos rfl]
  | case7 c rest _ _ hescape hline hne ih =>
    have hc : c ≠ '\\' := by
      rintro rfl
      cases rest with
      | nil => simp [literalStops, Ne.symm hquote] at h
      | cons d rest => exact hescape d rest rfl rfl
    have hrest : literalStops quote rest := by
      rwa [literalStops_plain hc hline, decide_eq_false hne, Bool.false_or] at h
    rw [List.cons_append, literalLength_plain hc hline, if_neg hne, ih hrest]

theorem stops_of_literalLength_lt (h : literalLength quote rest < rest.length) :
    literalStops quote rest := by
  fun_induction literalLength quote rest with
  | case1 => simp at h
  | case2 rest ih => exact ih (by simpa using h)
  | case3 rest ih => exact ih (by simpa using h)
  | case4 c rest hsplice hwide ih =>
    rw [literalStops.eq_4 quote c rest hsplice hwide]
    exact ih (by simpa using h)
  | case5 rest => rfl
  | case6 rest hsplice hwide hescape hline =>
    rw [literalStops.eq_6 quote quote rest hsplice hwide hescape hline, decide_eq_true rfl]
    rfl
  | case7 c rest hsplice hwide hescape hline hne ih =>
    rw [literalStops.eq_6 quote c rest hsplice hwide hescape hline, decide_eq_false hne]
    exact ih (by simpa using h)

end Extents

-- What a lexeme can begin with, and what it then takes.
inductive Rule (c : Char) : Prop where
  | newline (hc : c = '\n')
  | blank (hc : isBlank c) (h : ∀ rest, front c rest = (.blank, 0))
  | backslash (hc : c = '\\')
  | slash (hc : c = '/')
  | string (hc : c = '"')
  | character (hc : c = '\'')
  | identifier (h : ∀ rest, front c rest = (.identifier, runLength isIdentifierPart rest))
      (hc : isIdentifierStart c)
  | number (h : ∀ rest, front c rest = (.number, runLength isNumberPart rest)) (hc : c.isDigit)
  | punctuation (h : ∀ rest, front c rest = (.punctuation, 0)) (hc : isPunctuation c)
  | stray (hc : c.toNat < 0x20 ∨ 0x7F ≤ c.toNat) (h : ∀ rest, front c rest = (.stray, 0))

theorem rule (c : Char) : Rule c := by
  by_cases hline : c = '\n'
  · exact .newline hline
  by_cases hblank : isBlank c
  · exact .blank hblank fun rest => by simp [front, hline, hblank]
  by_cases hbackslash : c = '\\'
  · exact .backslash hbackslash
  by_cases hslash : c = '/'
  · exact .slash hslash
  by_cases hquote : c = '"'
  · exact .string hquote
  by_cases happostrophe : c = '\''
  · exact .character happostrophe
  by_cases hstart : isIdentifierStart c
  · refine .identifier (fun rest => ?_) hstart
    simp [front, hline, hblank, hbackslash, hslash, hquote, happostrophe, hstart]
  by_cases hdigit : c.isDigit
  · refine .number (fun rest => ?_) hdigit
    simp [front, hline, hblank, hbackslash, hslash, hquote, happostrophe, hstart, hdigit]
  by_cases hpunctuation : isPunctuation c
  · refine .punctuation (fun rest => ?_) hpunctuation
    simp [front, hline, hblank, hbackslash, hslash, hquote, happostrophe, hstart, hdigit,
      hpunctuation]
  · refine .stray ?_ fun rest => ?_
    · have hletter : c.isAlphanum = false := by
        simp only [isIdentifierStart, Bool.or_eq_true, not_or, Bool.not_eq_true] at hstart hdigit
        simp [Char.isAlphanum, hstart.1, hdigit]
      have hspace : c.toNat ≠ 0x20 := by
        intro hc
        obtain rfl : c = ' ' := Char.toNat_inj.mp hc
        exact hblank rfl
      simp only [isPunctuation, hletter, Bool.not_false, Bool.and_true, Bool.and_eq_true,
        decide_eq_true_eq] at hpunctuation
      omega
    · simp [front, hline, hblank, hbackslash, hslash, hquote, happostrophe, hstart, hdigit,
        hpunctuation]

-- The two characters that mean more with certain others behind them.

inductive Backslash : List Char → Prop where
  | splice (behind : List Char) : Backslash ('\n' :: behind)
  | wideSplice (behind : List Char) : Backslash ('\r' :: '\n' :: behind)
  | mark {rest : List Char} (hline : ∀ behind, rest ≠ '\n' :: behind)
      (hwide : ∀ behind, rest ≠ '\r' :: '\n' :: behind)
      (h : front '\\' rest = (.punctuation, 0)) : Backslash rest

theorem backslash (rest : List Char) : Backslash rest := by
  by_cases hline : ∃ behind, rest = '\n' :: behind
  · obtain ⟨behind, rfl⟩ := hline
    exact .splice behind
  by_cases hwide : ∃ behind, rest = '\r' :: '\n' :: behind
  · obtain ⟨behind, rfl⟩ := hwide
    exact .wideSplice behind
  refine .mark (fun behind h => hline ⟨behind, h⟩) (fun behind h => hwide ⟨behind, h⟩) ?_
  unfold front
  rw [if_neg (by decide), if_neg (by decide), if_pos rfl]
  split
  · exact absurd ⟨_, rfl⟩ hline
  · exact absurd ⟨_, rfl⟩ hwide
  · rfl

inductive Slash : List Char → Prop where
  | line (behind : List Char) : Slash ('/' :: behind)
  | block (behind : List Char) : Slash ('*' :: behind)
  | mark {rest : List Char} (hline : ∀ behind, rest ≠ '/' :: behind)
      (hblock : ∀ behind, rest ≠ '*' :: behind)
      (h : front '/' rest = (.punctuation, 0)) : Slash rest

theorem slash (rest : List Char) : Slash rest := by
  by_cases hline : ∃ behind, rest = '/' :: behind
  · obtain ⟨behind, rfl⟩ := hline
    exact .line behind
  by_cases hblock : ∃ behind, rest = '*' :: behind
  · obtain ⟨behind, rfl⟩ := hblock
    exact .block behind
  refine .mark (fun behind h => hline ⟨behind, h⟩) (fun behind h => hblock ⟨behind, h⟩) ?_
  unfold front
  rw [if_neg (by decide), if_neg (by decide), if_neg (by decide), if_pos rfl]
  split
  · exact absurd ⟨_, rfl⟩ hline
  · exact absurd ⟨_, rfl⟩ hblock
  · rfl

theorem front_le (c : Char) (rest : List Char) : (front c rest).2 ≤ rest.length := by
  cases rule c with
  | newline hc =>
    subst hc
    exact Nat.zero_le _
  | blank hc h => simp [h]
  | backslash hc =>
    subst hc
    cases backslash rest with
    | splice behind => exact Nat.succ_le_succ (Nat.zero_le _)
    | wideSplice behind => exact Nat.succ_le_succ (Nat.succ_le_succ (Nat.zero_le _))
    | mark hline hwide h => simp [h]
  | slash hc =>
    subst hc
    cases slash rest with
    | line behind => exact runLength_le _ _
    | block behind => exact Nat.succ_le_succ (blockCommentLength_le behind)
    | mark hline hblock h => simp [h]
  | string hc =>
    subst hc
    exact literalLength_le _ _
  | character hc =>
    subst hc
    exact literalLength_le _ _
  | identifier h =>
    rw [h]
    exact runLength_le _ _
  | number h =>
    rw [h]
    exact runLength_le _ _
  | punctuation h => simp [h]
  | stray hc h => simp [h]

-- A lexeme that ends before the text does is the same with more text behind. Only a carriage
-- return at the very end leaves open whether it belongs to a splice.
theorem front_append_of_lt (h : (front c rest).2 < rest.length)
    (hreturn : rest.getLast? = some '\r' → more.head? ≠ some '\n') :
    front c (rest ++ more) = front c rest := by
  cases rule c with
  | newline hc =>
    subst hc
    rfl
  | blank hc hfront => rw [hfront, hfront]
  | backslash hc =>
    subst hc
    cases backslash rest with
    | splice behind => rfl
    | wideSplice behind => rfl
    | mark hline hwide hmark =>
      rw [hmark] at h ⊢
      obtain ⟨d, rest, rfl⟩ := List.exists_cons_of_length_pos h
      generalize hall : d :: rest ++ more = all
      cases backslash all with
      | splice behind => exact absurd (by rw [(List.cons.inj hall).1]) (hline rest)
      | wideSplice behind =>
        obtain ⟨rfl, hrest⟩ := List.cons.inj hall
        cases rest with
        | nil =>
          have hmore : more = '\n' :: behind := hrest
          exact absurd (congrArg List.head? hmore) (hreturn rfl)
        | cons e rest => exact absurd (by rw [(List.cons.inj hrest).1]) (hwide rest)
      | mark _ _ h => exact h
  | slash hc =>
    subst hc
    cases slash rest with
    | line behind =>
      have hrun := @runLength_append_of_lt _ more _ h
      exact congrArg (Kind.lineComment, ·) hrun
    | block behind =>
      have hclosed := closes_of_blockCommentLength_lt (Nat.lt_of_succ_lt_succ h)
      exact congrArg (fun count => (Kind.blockComment, count + 1))
        (blockCommentLength_append hclosed)
    | mark hline hblock hmark =>
      rw [hmark] at h ⊢
      obtain ⟨d, rest, rfl⟩ := List.exists_cons_of_length_pos h
      generalize hall : d :: rest ++ more = all
      cases slash all with
      | line behind => exact absurd (by rw [(List.cons.inj hall).1]) (hline rest)
      | block behind => exact absurd (by rw [(List.cons.inj hall).1]) (hblock rest)
      | mark _ _ h => exact h
  | string hc =>
    subst hc
    have hstops := stops_of_literalLength_lt h
    exact congrArg (Kind.string, ·) (literalLength_append (by decide) hstops)
  | character hc =>
    subst hc
    have hstops := stops_of_literalLength_lt h
    exact congrArg (Kind.character, ·) (literalLength_append (by decide) hstops)
  | identifier hfront =>
    rw [hfront] at h
    rw [hfront, hfront, runLength_append_of_lt h]
  | number hfront =>
    rw [hfront] at h
    rw [hfront, hfront, runLength_append_of_lt h]
  | punctuation hfront => rw [hfront, hfront]
  | stray hc hfront => rw [hfront, hfront]

-- The scanner cuts the lexeme off if this stands behind it.
def EndsBefore (lexeme : Lexeme) (behind : List Char) : Prop :=
  ∃ c taken, lexeme.text = c :: taken ∧
    front c (taken ++ behind) = (lexeme.kind, taken.length)

theorem EndsBefore.scan_eq {lexeme : Lexeme} {behind : List Char} (h : lexeme.EndsBefore behind) :
    scan (lexeme.text ++ behind) = lexeme :: scan behind := by
  obtain ⟨c, taken, htext, hfront⟩ := h
  rw [htext, List.cons_append, scan, hfront, List.take_left, List.drop_left, ← htext]

theorem endsBefore_front (c : Char) (rest : List Char) :
    EndsBefore ⟨(front c rest).1, c :: rest.take (front c rest).2⟩
      (rest.drop (front c rest).2) := by
  refine ⟨c, rest.take (front c rest).2, rfl, ?_⟩
  rw [List.take_append_drop, List.length_take, Nat.min_eq_left (front_le c rest)]

-- The lexemes of a text end before those that follow.
theorem endsBefore_of_scan {before behind : List Lexeme} {lexeme : Lexeme}
    (h : scan text = before ++ lexeme :: behind) :
    lexeme.EndsBefore (behind.flatMap Lexeme.text) := by
  fun_induction scan text generalizing before with
  | case1 => simp at h
  | case2 c rest ih =>
    cases before with
    | nil =>
      obtain ⟨rfl, rfl⟩ := List.cons.inj h
      rw [flatMap_text_scan]
      exact endsBefore_front c rest
    | cons first before => exact ih (List.cons.inj h).2

-- A text is scanned as if nothing stood behind it, if its last lexeme ends there.
theorem scan_append (hlast : ∀ lexeme, (scan text).getLast? = some lexeme → lexeme.EndsBefore more)
    (hreturn : text.getLast? = some '\r' → more.head? ≠ some '\n') :
    scan (text ++ more) = scan text ++ scan more := by
  fun_induction scan text with
  | case1 => rfl
  | case2 c rest ih =>
    by_cases hend : rest.length ≤ (front c rest).2
    · rw [List.drop_eq_nil_of_le hend, List.take_of_length_le hend, scan] at hlast ⊢
      have hends := hlast _ rfl
      exact hends.scan_eq
    · rw [not_le] at hend
      have hlater : ∀ lexeme, (scan (rest.drop (front c rest).2)).getLast? = some lexeme →
          lexeme.EndsBefore more := by
        intro lexeme hlexeme
        exact hlast lexeme (by rw [List.getLast?_cons, hlexeme, Option.getD_some])
      have hrest : rest.getLast? = some '\r' → more.head? ≠ some '\n' := by
        intro hlexeme
        exact hreturn (by rw [List.getLast?_cons, hlexeme, Option.getD_some])
      have hdrop : (rest.drop (front c rest).2).getLast? = some '\r' → more.head? ≠ some '\n' := by
        rw [List.getLast?_drop, if_neg (Nat.not_le.mpr hend)]
        exact hrest
      rw [List.cons_append, scan, front_append_of_lt hend hrest,
        List.take_append_of_le_length hend.le, List.drop_append_of_le_length hend.le,
        ih hlater hdrop, List.cons_append]

end EventFlow.Source.Lexeme
