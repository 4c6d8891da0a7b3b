import EventFlow.Proofs.Source.Matching
import EventFlow.Source.Stream
import Mathlib.Data.List.Induction

namespace EventFlow.Source.Token

variable {token : Token} {tokens inside before : List Token} {depth number last : Nat}

section Depth

-- Whether a token opens a group of some kind, and whether it closes one.
def isOpening (token : Token) : Bool := Bracket.all.any fun bracket => bracket.opens token

def isClosing (token : Token) : Bool := Bracket.all.any fun bracket => bracket.closes token

-- How many more groups are opened than closed, over all three kinds.
def surplus (tokens : List Token) : Int := tokens.countP isOpening - tokens.countP isClosing

-- The depth behind tokens that start outside all groups.
def depthOf (tokens : List Token) : Nat := tokens.foldl depthAfter 0

theorem surplus_append (front back : List Token) :
    surplus (front ++ back) = surplus front + surplus back := by
  simp only [surplus, List.countP_append]
  omega

theorem isClosing_eq_false (h : isOpening token) : isClosing token = false := by
  obtain ⟨bracket, _, hopens⟩ := List.any_eq_true.mp h
  refine List.any_eq_false.mpr fun other _ => ?_
  rw [Bracket.closes_eq_false_of_opens hopens]
  exact Bool.false_ne_true

theorem depthAfter_eq_max (depth : Nat) (token : Token) :
    (depthAfter depth token : Int) = max 0 (depth + surplus [token]) := by
  have hdepth : depthAfter depth token =
      if isOpening token then depth + 1 else if isClosing token then depth - 1 else depth := rfl
  rw [hdepth, surplus, List.countP_singleton, List.countP_singleton]
  by_cases hopening : isOpening token
  · rw [if_pos hopening, if_pos hopening, isClosing_eq_false hopening, if_neg Bool.false_ne_true]
    omega
  · rw [if_neg hopening, if_neg hopening]
    by_cases hclosing : isClosing token
    · rw [if_pos hclosing, if_pos hclosing]
      omega
    · rw [if_neg hclosing, if_neg hclosing]
      omega

-- The depth is the most that a stretch which ends there opens without closing it.
theorem isGreatest_depthOf (tokens : List Token) :
    IsGreatest {count : Int | ∃ back, back <:+ tokens ∧ count = surplus back}
      (depthOf tokens) := by
  induction tokens using List.reverseRecOn with
  | nil =>
    refine ⟨⟨[], List.suffix_refl [], rfl⟩, ?_⟩
    rintro _ ⟨back, hback, rfl⟩
    rw [List.suffix_nil.mp hback]
    exact le_refl 0
  | append_singleton tokens token ih =>
    rw [depthOf, List.foldl_append, ← depthOf, List.foldl_cons, List.foldl_nil, depthAfter_eq_max]
    constructor
    · obtain hle | hle := le_total (depthOf tokens + surplus [token]) 0
      · rw [max_eq_left hle]
        exact ⟨[], List.nil_suffix, rfl⟩
      · obtain ⟨back, hback, heq⟩ := ih.1
        rw [max_eq_right hle, heq, ← surplus_append]
        exact ⟨back ++ [token], List.suffix_concat_iff.mpr (.inr ⟨back, rfl, hback⟩), rfl⟩
    · rintro _ ⟨back, hback, rfl⟩
      obtain rfl | ⟨front, rfl, hfront⟩ := List.suffix_concat_iff.mp hback
      · exact le_max_left 0 _
      · rw [surplus_append]
        have hle := ih.2 ⟨front, hfront, rfl⟩
        exact le_max_of_le_right (Int.add_le_add_right hle _)

-- The depth is zero where every stretch before closes as many groups as it opens, or more.
theorem depthOf_eq_zero_iff : depthOf tokens = 0 ↔
    ∀ back, back <:+ tokens → back.countP isOpening ≤ back.countP isClosing := by
  obtain ⟨⟨widest, hwidest, heq⟩, hgreatest⟩ := isGreatest_depthOf tokens
  rw [surplus] at heq
  constructor
  · intro hzero back hback
    have hle := hgreatest ⟨back, hback, rfl⟩
    rw [surplus] at hle
    omega
  · intro hall
    have hle := hall widest hwidest
    omega

end Depth

section Cut

-- No comma of the argument lies at depth zero. `depth` is the one in front of it.
def Whole (depth : Nat) (argument : List Token) : Prop :=
  ∀ front comma back, argument = front ++ comma :: back → comma.isPunctuation ',' →
    front.foldl depthAfter depth ≠ 0

-- Arguments in order. The ones behind the first come with the comma in front of them.
def rejoined (first : List Token) (rest : List (Token × List Token)) : List Token :=
  first ++ rest.flatMap fun piece => piece.1 :: piece.2

-- The commas between the arguments are those at depth zero.
structure Cut (depth : Nat) (first : List Token) (rest : List (Token × List Token)) : Prop where
  comma : ∀ before comma argument after, rest = before ++ (comma, argument) :: after →
    comma.isPunctuation ',' ∧ (rejoined first before).foldl depthAfter depth = 0
  first_whole : Whole depth first
  rest_whole : ∀ piece ∈ rest, Whole 0 piece.2

variable {first : List Token} {rest : List (Token × List Token)}

theorem depthAfter_comma (h : token.isPunctuation ',') (depth : Nat) :
    depthAfter depth token = depth := by
  have hkind : token.kind = .punctuation ',' := of_decide_eq_true h
  simp [depthAfter, Bracket.all, Bracket.opens, Bracket.closes, Bracket.opening, Bracket.closing,
    isPunctuation, hkind]

theorem Cut.cons_comma (h : Cut 0 first rest) (hcomma : token.isPunctuation ',') :
    Cut 0 [] ((token, first) :: rest) where
  comma before comma argument after heq := by
    obtain ⟨rfl, hrest⟩ | ⟨before, rfl, hrest⟩ := List.cons_eq_append_iff.mp heq
    · obtain ⟨hpiece, -⟩ := List.cons.inj hrest
      cases hpiece
      exact ⟨hcomma, rfl⟩
    · obtain ⟨hother, hdepth⟩ := h.comma before comma argument after hrest
      refine ⟨hother, ?_⟩
      rw [rejoined, List.nil_append, List.flatMap_cons, List.cons_append, List.foldl_cons,
        depthAfter_comma hcomma]
      exact hdepth
  first_whole front comma back heq := by simp at heq
  rest_whole := List.forall_mem_cons.mpr ⟨h.first_whole, h.rest_whole⟩

theorem Cut.cons (h : Cut (depthAfter depth token) first rest)
    (hkept : ¬ (token.isPunctuation ',' ∧ depth = 0)) : Cut depth (token :: first) rest where
  comma := h.comma
  first_whole front comma back heq hcomma := by
    obtain ⟨rfl, hrest⟩ | ⟨front, rfl, hrest⟩ := List.cons_eq_append_iff.mp heq
    · obtain ⟨rfl, -⟩ := List.cons.inj hrest
      exact fun hzero => hkept ⟨hcomma, hzero⟩
    · exact h.first_whole front comma back hrest hcomma
  rest_whole := h.rest_whole

theorem exists_cut (depth : Nat) (tokens : List Token) : ∃ first rest,
    splitAtCommas depth tokens = first :: rest.map Prod.snd ∧ tokens = rejoined first rest ∧
      Cut depth first rest := by
  induction tokens generalizing depth with
  | nil => exact ⟨[], [], rfl, rfl, by simp, by simp [Whole], by simp⟩
  | cons token tokens ih =>
    rw [splitAtCommas]
    split_ifs with hcut
    · obtain ⟨hcomma, rfl⟩ := hcut
      obtain ⟨first, rest, heq, rfl, hfirst⟩ := ih 0
      exact ⟨[], (token, first) :: rest, congrArg _ heq, rfl, hfirst.cons_comma hcomma⟩
    · obtain ⟨first, rest, heq, rfl, hfirst⟩ := ih (depthAfter depth token)
      exact ⟨token :: first, rest, by rw [heq, List.modifyHead_cons], rfl, hfirst.cons hcut⟩

theorem splitAtCommas_of_whole (h : Whole depth tokens) :
    splitAtCommas depth tokens = [tokens] := by
  induction tokens generalizing depth with
  | nil => rfl
  | cons token tokens ih =>
    have hkept : ¬ (token.isPunctuation ',' ∧ depth = 0) := fun hcut =>
      h [] token tokens rfl hcut.1 hcut.2
    have hrest : Whole (depthAfter depth token) tokens := by
      rintro front comma back rfl
      exact h (token :: front) comma back rfl
    rw [splitAtCommas, if_neg hkept, ih hrest, List.modifyHead_cons]

end Cut

-- How a group with tokens inside is cut into arguments.
structure Split (inside : List Token) (arguments : List (List Token)) : Prop where
  -- with a comma between neighbours they are the group, and each such comma lies outside all
  -- groups inside
  rejoins : ∃ first rest, arguments = first :: rest.map Prod.snd ∧ inside = rejoined first rest ∧
    ∀ before comma argument after, rest = before ++ (comma, argument) :: after →
      comma.isPunctuation ',' ∧ depthOf (rejoined first before) = 0
  -- no other comma does
  whole : ∀ argument ∈ arguments, ∀ front comma back, argument = front ++ comma :: back →
    comma.isPunctuation ',' → depthOf front ≠ 0
  -- cut once more, an argument stays whole; without tokens it is a group that has no arguments
  again : ∀ argument ∈ arguments, splitAtCommas 0 argument = [argument] ∧
    (argument ≠ [] → Token.arguments argument = [argument])

theorem arguments_eq_nil_iff : arguments inside = [] ↔ inside = [] := by
  cases inside with
  | nil => exact iff_of_true rfl rfl
  | cons token rest =>
    obtain ⟨first, others, heq, -, -⟩ := exists_cut 0 (token :: rest)
    rw [arguments, heq]
    exact iff_of_false (List.cons_ne_nil _ _) (List.cons_ne_nil _ _)

theorem arguments_eq (h : inside ≠ []) : arguments inside = splitAtCommas 0 inside := by
  cases inside with
  | nil => exact absurd rfl h
  | cons token rest => rfl

theorem split_arguments (h : inside ≠ []) : Split inside (arguments inside) := by
  rw [arguments_eq h]
  obtain ⟨first, rest, heq, hinside, hcut⟩ := exists_cut 0 inside
  have hwhole : ∀ argument ∈ splitAtCommas 0 inside, Whole 0 argument := by
    rw [heq, List.forall_mem_cons, List.forall_mem_map]
    exact ⟨hcut.first_whole, hcut.rest_whole⟩
  refine ⟨⟨first, rest, heq, hinside, hcut.comma⟩, hwhole, fun argument hargument => ?_⟩
  have hagain := splitAtCommas_of_whole (hwhole argument hargument)
  exact ⟨hagain, fun hne => (arguments_eq hne).trans hagain⟩

-- A group ends where its brackets balance for the first time, and its arguments with the commas
-- between them are all that is inside.
theorem group_split (tokens : List Token) (number : Nat) :
    (∀ bracket token, tokens[number]? = some token → Bracket.opens bracket token →
      Matched bracket tokens number) ∧
    ((∀ token, tokens[number]? = some token → ∀ bracket : Bracket, bracket.opens token = false) →
      closeOf? tokens number = none) ∧
    (∀ last, closeOf? tokens number = some last →
      (arguments ((tokens.take last).drop (number + 1)) = [] ↔ last = number + 1) ∧
      (last ≠ number + 1 → Split ((tokens.take last).drop (number + 1))
        (arguments ((tokens.take last).drop (number + 1))))) ∧
    ∀ before, depthOf before = 0 ↔
      ∀ back, back <:+ before → back.countP isOpening ≤ back.countP isClosing := by
  refine ⟨fun _ _ => matched, closeOf?_of_not_opens, fun last hlast => ?_,
    fun before => depthOf_eq_zero_iff⟩
  have hinside : (tokens.take last).drop (number + 1) = [] ↔ last = number + 1 := by
    obtain ⟨hlt, hlength⟩ := lt_of_closeOf? hlast
    rw [List.drop_eq_nil_iff, List.length_take]
    omega
  rw [arguments_eq_nil_iff]
  exact ⟨hinside, fun hne => split_arguments (mt hinside.mp hne)⟩

-- The square bracket is still open where the group ends, so the comma behind it does not count.
example : let tokens := (Stream.ofText "f(a, , b[1, 2), 3]").code
    closeOf? tokens 1 = some 10 ∧
      (arguments ((tokens.take 10).drop 2)).map (List.map Token.text) =
        [["a"], [], ["b", "[", "1", ",", "2"]] := by decide +kernel

end EventFlow.Source.Token
