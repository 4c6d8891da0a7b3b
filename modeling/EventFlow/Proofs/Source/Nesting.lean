import EventFlow.Proofs.Source.Bracket
import Mathlib.Algebra.Order.Group.Int

namespace EventFlow.Source

-- Brackets of all kinds close in the order that they are opened in require.
inductive Nested : List Token → Prop where
  | nil : Nested []
  | plain {token : Token} {rest : List Token}
      (htoken : ∀ bracket : Bracket, bracket.opens token = false ∧ bracket.closes token = false)
      (hrest : Nested rest) : Nested (token :: rest)
  | group {bracket : Bracket} {opening closing : Token} {inside rest : List Token}
      (hopens : bracket.opens opening) (hcloses : bracket.closes closing)
      (hinside : Nested inside) (hrest : Nested rest) :
      Nested (opening :: (inside ++ closing :: rest))

namespace Bracket

variable {bracket : Bracket} {token : Token}

-- A bracket, what is nested in it and the bracket that closes it.
def IsGroup (bracket : Bracket) (tokens : List Token) : Prop :=
  ∃ opening inside closing, tokens = opening :: (inside ++ [closing]) ∧
    bracket.opens opening ∧ bracket.closes closing ∧ Nested inside

-- The place between `done` and `rest` is inside a group of the kind, with `before` before it.
def Encloses (bracket : Bracket) (before done rest : List Token) : Prop :=
  ∃ opening front back closing behind, done = before ++ opening :: front ∧
    rest = back ++ closing :: behind ∧ bracket.opens opening ∧ bracket.closes closing ∧
    Nested (front ++ back)

theorem opens_eq_of_opens (h : bracket.opens token) (other : Bracket) :
    other.opens token = decide (other = bracket) := by
  have hkind : token.kind = .punctuation bracket.opening := of_decide_eq_true h
  cases bracket <;> cases other <;> simp [opens, opening, Token.isPunctuation, hkind]

theorem closes_eq_of_closes (h : bracket.closes token) (other : Bracket) :
    other.closes token = decide (other = bracket) := by
  have hkind : token.kind = .punctuation bracket.closing := of_decide_eq_true h
  cases bracket <;> cases other <;> simp [closes, closing, Token.isPunctuation, hkind]

theorem closes_eq_false_of_opens (h : bracket.opens token) (other : Bracket) :
    other.closes token = false := by
  have hkind : token.kind = .punctuation bracket.opening := of_decide_eq_true h
  cases bracket <;> cases other <;>
    simp [closes, closing, opening, Token.isPunctuation, hkind]

-- How many more brackets of the kind are opened than closed.
def excess (bracket : Bracket) (tokens : List Token) : Int :=
  tokens.countP bracket.opens - tokens.countP bracket.closes

theorem excess_append (bracket : Bracket) (front rest : List Token) :
    bracket.excess (front ++ rest) = bracket.excess front + bracket.excess rest := by
  simp only [excess, List.countP_append]
  omega

theorem excess_cons (bracket : Bracket) (token : Token) (rest : List Token) :
    bracket.excess (token :: rest) = bracket.excess [token] + bracket.excess rest :=
  bracket.excess_append [token] rest

theorem excess_opening (h : bracket.opens token) (other : Bracket) :
    other.excess [token] = if other = bracket then 1 else 0 := by
  simp only [excess, List.countP_singleton, opens_eq_of_opens h, closes_eq_false_of_opens h,
    decide_eq_true_eq, Bool.false_eq_true, if_false]
  split <;> rfl

theorem excess_closing (h : bracket.closes token) (other : Bracket) :
    other.excess [token] = if other = bracket then -1 else 0 := by
  simp only [excess, List.countP_singleton, closes_eq_of_closes h, opens_eq_false_of_closes h,
    decide_eq_true_eq, Bool.false_eq_true, if_false]
  split <;> rfl

theorem excess_plain (h : bracket.opens token = false ∧ bracket.closes token = false) :
    bracket.excess [token] = 0 := by
  simp [excess, h]

end Bracket

namespace Nested

variable {tokens front back inside rest : List Token} {opening : Token} {bracket : Bracket}

theorem append (hfront : Nested front) (hback : Nested back) : Nested (front ++ back) := by
  induction hfront with
  | nil => exact hback
  | plain htoken _ ih => exact .plain htoken ih
  | group hopens hcloses hinside _ _ ih =>
    simpa using Nested.group hopens hcloses hinside ih

theorem of_isGroup (h : bracket.IsGroup tokens) : Nested tokens := by
  obtain ⟨_, _, _, rfl, hopens, hcloses, hinside⟩ := h
  exact .group hopens hcloses hinside .nil

theorem excess_eq_zero (h : Nested tokens) (bracket : Bracket) : bracket.excess tokens = 0 := by
  induction h with
  | nil => rfl
  | plain htoken _ ih =>
    rw [Bracket.excess_cons, Bracket.excess_plain (htoken bracket), ih, zero_add]
  | @group kind opening closing inside rest hopens hcloses _ _ ihinside ihrest =>
    rw [bracket.excess_cons opening, Bracket.excess_append, bracket.excess_cons closing, ihinside,
      ihrest, Bracket.excess_opening hopens, Bracket.excess_closing hcloses]
    split <;> rfl

-- The tokens in front of a place close nothing that is not opened there. The place is outside
-- all groups, or inside one of them that has nested tokens on both sides.
theorem split (h : Nested (front ++ back)) :
    (Nested front ∧ Nested back) ∨
    ∃ bracket before opening inner outer closing behind, front = before ++ opening :: inner ∧
      back = outer ++ closing :: behind ∧ Bracket.opens bracket opening ∧
      Bracket.closes bracket closing ∧ Nested before ∧ Nested (inner ++ outer) ∧
      Nested behind := by
  generalize hall : front ++ back = tokens at h
  induction h generalizing front with
  | nil =>
    obtain ⟨rfl, rfl⟩ := List.append_eq_nil_iff.mp hall
    exact .inl ⟨.nil, .nil⟩
  | @plain token rest htoken hrest ih =>
    rcases List.append_eq_cons_iff.mp hall with ⟨rfl, rfl⟩ | ⟨more, rfl, hmore⟩
    · exact .inl ⟨.nil, .plain htoken hrest⟩
    rcases ih hmore.symm with ⟨hfront, hback⟩ |
      ⟨kind, before, opening, inner, outer, closing, behind, rfl, hback, ho, hc, hb, hi, he⟩
    · exact .inl ⟨.plain htoken hfront, hback⟩
    · exact .inr ⟨kind, token :: before, opening, inner, outer, closing, behind, rfl, hback, ho,
        hc, .plain htoken hb, hi, he⟩
  | @group kind opening closing inside rest hopens hcloses hinside hrest _ ih =>
    rcases List.append_eq_cons_iff.mp hall with ⟨rfl, rfl⟩ | ⟨more, rfl, hmore⟩
    · exact .inl ⟨.nil, .group hopens hcloses hinside hrest⟩
    rcases List.append_eq_append_iff.mp hmore with ⟨past, rfl, hpast⟩ | ⟨left, rfl, rfl⟩
    · rcases List.cons_eq_append_iff.mp hpast with ⟨rfl, rfl⟩ | ⟨past, rfl, hbeyond⟩
      · exact .inr ⟨kind, [], opening, inside, [], closing, rest, by simp, rfl, hopens, hcloses,
          .nil, by simpa using hinside, hrest⟩
      rcases ih hbeyond.symm with ⟨hfront, hback⟩ |
        ⟨other, before, first, inner, outer, last, behind, rfl, hback, ho, hc, hb, hi, he⟩
      · exact .inl ⟨.group hopens hcloses hinside hfront, hback⟩
      · exact .inr ⟨other, opening :: (inside ++ closing :: before), first, inner, outer, last,
          behind, by simp, hback, ho, hc, .group hopens hcloses hinside hb, hi, he⟩
    · exact .inr ⟨kind, [], opening, more, left, closing, rest, rfl, rfl, hopens, hcloses, .nil,
        hinside, hrest⟩

theorem excess_nonneg (h : Nested (front ++ back)) (bracket : Bracket) :
    0 ≤ bracket.excess front := by
  induction hlength : front.length using Nat.strong_induction_on generalizing front back with
  | _ length ih =>
    rcases h.split with ⟨hfront, -⟩ |
      ⟨kind, before, opening, inner, outer, _, _, rfl, rfl, hopens, _, hbefore, hinner, _⟩
    · exact (hfront.excess_eq_zero bracket).ge
    · have hlt : inner.length < length := by
        rw [← hlength, List.length_append, List.length_cons]
        omega
      have hnonneg := ih _ hlt hinner rfl
      have hopening := Bracket.excess_opening hopens bracket
      rw [Bracket.excess_append, Bracket.excess_cons, hbefore.excess_eq_zero]
      split at hopening <;> omega

-- Every bracket that is opened has a group.
theorem exists_group (h : Nested (front ++ opening :: rest)) (hopens : bracket.opens opening) :
    ∃ inside closing behind, rest = inside ++ closing :: behind ∧ bracket.closes closing ∧
      Nested inside := by
  induction hlength : front.length using Nat.strong_induction_on generalizing front rest with
  | _ length ih =>
    rcases h.split with ⟨-, hback⟩ |
      ⟨kind, before, first, inner, outer, last, behind, rfl, hrest, hfirst, hlast, _, hinner, _⟩
    · cases hback with
      | plain htoken _ => simp [(htoken bracket).1] at hopens
      | @group kind _ closing inside behind hkind hcloses hinside _ =>
        have hsame : bracket = kind := by
          simpa [Bracket.opens_eq_of_opens hkind] using hopens
        exact ⟨inside, closing, behind, rfl, hsame ▸ hcloses, hinside⟩
    · rcases List.cons_eq_append_iff.mp hrest with ⟨rfl, hbehind⟩ | ⟨outer, rfl, rfl⟩
      · obtain ⟨rfl, rfl⟩ := List.cons.inj hbehind
        simp [Bracket.closes_eq_false_of_opens hopens] at hlast
      · have hlt : inner.length < length := by
          rw [← hlength, List.length_append, List.length_cons]
          omega
        obtain ⟨inside, closing, more, rfl, hcloses, hinside⟩ := ih _ hlt hinner rfl
        exact ⟨inside, closing, more ++ last :: behind, by simp, hcloses, hinside⟩

-- What is nested does not close the group that it stands in.
theorem untilClose_append (h : Nested inside) (bracket : Bracket) (depth : Nat)
    (rest : List Token) : bracket.untilClose depth (inside ++ rest) =
      (bracket.untilClose depth rest).map (· + inside.length) := by
  induction h generalizing depth rest with
  | nil => simp
  | plain htoken _ ih =>
    simp [Bracket.untilClose, htoken bracket, ih, Function.comp_def, Nat.add_assoc]
  | @group kind opening closing inner more hopens hcloses _ _ ihinner ihmore =>
    have hlength : ∀ count, count + more.length + 1 + inner.length + 1 =
        count + (inner.length + (more.length + 1) + 1) := by
      intro count
      omega
    by_cases hkind : bracket = kind
    · subst hkind
      simp [Bracket.untilClose, hopens, hcloses, ihinner, ihmore,
        Bracket.opens_eq_false_of_closes hcloses, Function.comp_def, hlength]
    · simp [Bracket.untilClose, Bracket.opens_eq_of_opens hopens, hkind, ihinner, ihmore,
        Bracket.closes_eq_false_of_opens hopens, Bracket.closes_eq_of_closes hcloses,
        Bracket.opens_eq_false_of_closes hcloses, Function.comp_def, hlength]

theorem group?_append {group : List Token} (h : bracket.IsGroup group) (rest : List Token) :
    Token.group? bracket (group ++ rest) = some (group.tail.dropLast, rest) := by
  obtain ⟨opening, inside, closing, rfl, hopens, hcloses, hinside⟩ := h
  have hcount : bracket.untilClose 0 (inside ++ closing :: rest) = some inside.length := by
    rw [hinside.untilClose_append]
    simp [Bracket.untilClose, hcloses, Bracket.opens_eq_false_of_closes hcloses]
  simp [Token.group?, hopens, hcount]

-- What counting one kind of bracket takes for a group is one.
theorem isGroup_of_group? {group : List Token} (h : Nested (front ++ (group ++ rest)))
    (hgroup : Token.group? bracket (group ++ rest) = some (inside, rest)) :
    bracket.IsGroup group := by
  obtain ⟨opening, closing, hopens, -, heq⟩ := Token.exists_brackets hgroup
  rw [heq, List.cons_append] at h
  obtain ⟨nested, last, behind, hrest, hlast, hnested⟩ := h.exists_group hopens
  have hfound : bracket.IsGroup (opening :: (nested ++ [last])) :=
    ⟨opening, nested, last, rfl, hopens, hlast, hnested⟩
  have hall : group ++ rest = opening :: (nested ++ [last]) ++ behind := by
    rw [heq, List.cons_append, hrest]
    simp
  rw [hall, group?_append hfound] at hgroup
  obtain ⟨-, rfl⟩ := Prod.mk.inj (Option.some.inj hgroup)
  rw [List.append_cancel_right hall]
  exact hfound

theorem not_encloses {before : List Token} (h : Nested front) :
    ¬ bracket.Encloses before front back := by
  rintro ⟨opening, inner, outer, closing, behind, rfl, -, hopens, -, hinner⟩
  have hbefore := h.excess_nonneg bracket
  have hnonneg := hinner.excess_nonneg bracket
  have hzero := h.excess_eq_zero bracket
  rw [Bracket.excess_append, Bracket.excess_cons, Bracket.excess_opening hopens, if_pos rfl]
    at hzero
  omega

-- The groups around a place are the outermost one and those around the place inside it.
theorem encloses_iff {kind : Bracket} {before outermost inner outer behind : List Token}
    {closing : Token} (hopens : kind.opens opening) (hcloses : kind.closes closing)
    (houtermost : Nested outermost) (hinside : Nested (inner ++ outer)) :
    bracket.Encloses before (outermost ++ opening :: inner) (outer ++ closing :: behind) ↔
      (bracket = kind ∧ before = outermost) ∨
      ∃ more, bracket.Encloses more inner outer ∧ before = outermost ++ opening :: more := by
  constructor
  · rintro ⟨first, front, back, last, rest, hdone, hrest, hfirst, hlast, hnested⟩
    have hfront := hnested.excess_nonneg bracket
    rcases List.append_eq_append_iff.mp hdone with ⟨past, rfl, hpast⟩ | ⟨past, rfl, hpast⟩
    · rcases List.cons_eq_append_iff.mp hpast with ⟨rfl, heq⟩ | ⟨more, rfl, rfl⟩
      · obtain ⟨rfl, rfl⟩ := List.cons.inj heq
        have hsame : bracket = kind := by
          simpa [Bracket.opens_eq_of_opens hopens] using hfirst
        exact .inl ⟨hsame, List.append_nil _⟩
      -- the brackets inside the outermost group close there
      have hmore : 0 ≤ bracket.excess more := by
        rw [List.append_assoc] at hinside
        exact hinside.excess_nonneg bracket
      have hzero := hinside.excess_eq_zero bracket
      rw [Bracket.excess_append, Bracket.excess_append, Bracket.excess_cons,
        Bracket.excess_opening hfirst, if_pos rfl] at hzero
      refine .inr ⟨more, ⟨first, front, back, last, ?_⟩, rfl⟩
      rcases List.append_eq_append_iff.mp hrest with ⟨beyond, rfl, hbeyond⟩ | ⟨left, rfl, hleft⟩
      · rw [← List.append_assoc] at hnested
        have hinner := hnested.excess_nonneg bracket
        rw [Bracket.excess_append] at hinner
        omega
      rcases List.cons_eq_append_iff.mp hleft with ⟨rfl, heq⟩ | ⟨rest, rfl, rfl⟩
      · have hclosed := hnested.excess_eq_zero bracket
        rw [Bracket.excess_append] at hclosed
        rw [List.append_nil] at hzero
        omega
      · exact ⟨rest, rfl, rfl, hfirst, hlast, hnested⟩
    · have hbefore := houtermost.excess_nonneg bracket
      have hzero := houtermost.excess_eq_zero bracket
      rcases List.cons_eq_append_iff.mp hpast with ⟨rfl, heq⟩ | ⟨more, rfl, rfl⟩
      · obtain ⟨rfl, rfl⟩ := List.cons.inj heq
        have hsame : bracket = kind := by simpa [Bracket.opens_eq_of_opens hopens] using hfirst
        exact .inl ⟨hsame, (List.append_nil _).symm⟩
      · rw [List.append_assoc] at hnested
        have hmore := hnested.excess_nonneg bracket
        rw [Bracket.excess_append, Bracket.excess_cons, Bracket.excess_opening hfirst, if_pos rfl]
          at hzero
        omega
  · rintro (⟨rfl, rfl⟩ | ⟨more, ⟨first, front, back, last, rest, rfl, rfl, hfirst, hlast, hn⟩, rfl⟩)
    · exact ⟨opening, inner, outer, closing, behind, rfl, rfl, hopens, hcloses, hinside⟩
    · exact ⟨first, front, back, last, rest ++ closing :: behind, by simp, by simp, hfirst, hlast,
        hn⟩

-- What is nested and begins inside a group ends there.
theorem isPrefix_of_append {closing : Token} {behind : List Token} (h : Nested (front ++ back))
    (hinside : Nested inside) (hcloses : bracket.closes closing)
    (heq : inside ++ behind = back ++ closing :: rest) : inside <+: back := by
  rcases List.append_eq_append_iff.mp heq with ⟨more, rfl, -⟩ | ⟨past, rfl, hpast⟩
  · exact List.prefix_append _ _
  rcases List.cons_eq_append_iff.mp hpast with ⟨rfl, -⟩ | ⟨more, rfl, -⟩
  · exact ⟨[], by simp⟩
  · have hfront := h.excess_nonneg bracket
    have hzero := h.excess_eq_zero bracket
    rw [← List.singleton_append, ← List.append_assoc] at hinside
    have hpast := hinside.excess_nonneg bracket
    rw [Bracket.excess_append] at hzero
    rw [Bracket.excess_append, Bracket.excess_closing hcloses, if_pos rfl] at hpast
    omega

end Nested

end EventFlow.Source
