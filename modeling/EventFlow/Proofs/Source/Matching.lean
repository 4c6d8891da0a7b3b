import EventFlow.Proofs.Source.Nesting
import Mathlib.Order.Bounds.Basic

namespace EventFlow.Source

variable {bracket : Bracket} {token : Token} {tokens rest : List Token} {found : Option Nat}
  {depth after count first last : Nat}

namespace Bracket

-- Up to this many tokens, what is closed was opened there or is one of the groups open before.
def StaysOpen (bracket : Bracket) (depth : Nat) (tokens : List Token) (count : Nat) : Prop :=
  ∀ earlier ≤ count, 0 ≤ depth + bracket.excess (tokens.take earlier)

-- The token of this number is the first to close a group more than that.
structure ClosedBy (bracket : Bracket) (depth : Nat) (tokens : List Token) (count : Nat) :
    Prop where
  lt_length : count < tokens.length
  before : bracket.StaysOpen depth tokens count
  behind : depth + bracket.excess (tokens.take (count + 1)) = -1

-- What a search for the end of a group says about the tokens.
def Tells (bracket : Bracket) (depth : Nat) (tokens : List Token) : Option Nat → Prop
  | some count => bracket.ClosedBy depth tokens count
  | none => ∀ count, bracket.StaysOpen depth tokens count

theorem StaysOpen.zero (bracket : Bracket) (depth : Nat) (tokens : List Token) :
    bracket.StaysOpen depth tokens 0 := by
  intro earlier hearlier
  obtain rfl := Nat.le_zero.mp hearlier
  simp [excess]

theorem StaysOpen.cons (h : bracket.StaysOpen after rest count)
    (hafter : (after : Int) = depth + bracket.excess [token]) :
    bracket.StaysOpen depth (token :: rest) (count + 1) := by
  intro earlier hearlier
  cases earlier with
  | zero => exact StaysOpen.zero bracket depth (token :: rest) 0 (Nat.le_refl 0)
  | succ earlier =>
    have hrest := h earlier (Nat.le_of_succ_le_succ hearlier)
    rw [List.take_succ_cons, excess_cons]
    omega

theorem Tells.cons (h : bracket.Tells after rest found)
    (hafter : (after : Int) = depth + bracket.excess [token]) :
    bracket.Tells depth (token :: rest) (found.map (· + 1)) := by
  cases found with
  | none => exact fun count earlier hearlier => (h count).cons hafter earlier (by omega)
  | some count =>
    have hbehind : depth + bracket.excess ((token :: rest).take (count + 1 + 1)) = -1 := by
      have hrest := h.behind
      rw [List.take_succ_cons, excess_cons]
      omega
    exact ⟨Nat.succ_lt_succ h.lt_length, h.before.cons hafter, hbehind⟩

-- The depth of the search is that of the groups which are open in front of the tokens.
theorem tells_untilClose (bracket : Bracket) (depth : Nat) (tokens : List Token) :
    bracket.Tells depth tokens (bracket.untilClose depth tokens) := by
  fun_induction Bracket.untilClose bracket depth tokens with
  | case1 depth => exact fun count earlier _ => by simp [excess]
  | case2 depth token rest hopens ih =>
    refine ih.cons ?_
    rw [excess_opening hopens, if_pos rfl]
    rfl
  | case3 token rest hopens hcloses =>
    refine ⟨Nat.zero_lt_succ _, StaysOpen.zero _ _ _, ?_⟩
    rw [List.take_succ_cons, List.take_zero, excess_closing hcloses, if_pos rfl]
    rfl
  | case4 token rest hopens hcloses depth ih =>
    refine ih.cons ?_
    rw [excess_closing hcloses, if_pos rfl]
    omega
  | case5 depth token rest hopens hcloses ih =>
    refine ih.cons ?_
    rw [excess_plain ⟨Bool.eq_false_iff.mpr hopens, Bool.eq_false_iff.mpr hcloses⟩, add_zero]

end Bracket

namespace Token

-- The tokens from number `first` to number `last`, both included.
def stretch (tokens : List Token) (first last : Nat) : List Token :=
  (tokens.take (last + 1)).drop first

-- Counted from token number `first` on, token number `last` makes the brackets of the kind that
-- are closed as many as those that are opened.
structure Balances (bracket : Bracket) (tokens : List Token) (first last : Nat) : Prop where
  lt : first < last
  lt_length : last < tokens.length
  countP_eq : (stretch tokens first last).countP bracket.closes =
    (stretch tokens first last).countP bracket.opens

-- What the search for the token that closes a group gives.
structure Matched (bracket : Bracket) (tokens : List Token) (first : Nat) : Prop where
  some_iff : ∀ last, closeOf? tokens first = some last ↔
    IsLeast {other | Balances bracket tokens first other} last
  none_iff : closeOf? tokens first = none ↔ ∀ last, ¬ Balances bracket tokens first last
  -- as far as the search goes, no group is closed that is not open
  closes_le : ∀ last, (∀ closing, closeOf? tokens first = some closing → last ≤ closing) →
    (stretch tokens first last).countP bracket.closes ≤
      (stretch tokens first last).countP bracket.opens
  -- a group is taken off the front of a list at the same token
  group_eq : group? bracket (tokens.drop first) = (closeOf? tokens first).map
    fun last => ((tokens.take last).drop (first + 1), tokens.drop (last + 1))

theorem drop_eq_cons (h : tokens[first]? = some token) :
    tokens.drop first = token :: tokens.drop (first + 1) := by
  obtain ⟨hlt, rfl⟩ := List.getElem?_eq_some_iff.mp h
  exact List.drop_eq_getElem_cons hlt

theorem ofOpening?_of_opens (h : bracket.opens token) :
    Bracket.ofOpening? token = some bracket := by
  have hopens : (fun other : Bracket => other.opens token) = fun other => decide (other = bracket) :=
    funext (Bracket.opens_eq_of_opens h)
  rw [Bracket.ofOpening?, hopens]
  cases bracket with
  | round => rfl
  | square => rfl
  | curly => rfl

theorem closeOf?_of_opens (htoken : tokens[first]? = some token) (h : bracket.opens token) :
    closeOf? tokens first =
      (bracket.untilClose 0 (tokens.drop (first + 1))).map (first + 1 + ·) := by
  rw [closeOf?, drop_eq_cons htoken]
  simp only [ofOpening?_of_opens h, Option.bind_some]

section Opening

variable (htoken : tokens[first]? = some token) (h : bracket.opens token)

include htoken h

theorem excess_stretch (count : Nat) : bracket.excess (stretch tokens first (first + count)) =
    1 + bracket.excess ((tokens.drop (first + 1)).take count) := by
  have hstretch : stretch tokens first (first + count) =
      token :: (tokens.drop (first + 1)).take count := by
    rw [stretch, List.drop_take, drop_eq_cons htoken, Nat.add_assoc, Nat.add_sub_cancel_left,
      List.take_succ_cons]
  rw [hstretch, Bracket.excess_cons, Bracket.excess_opening h, if_pos rfl]

theorem balances_iff (count : Nat) : Balances bracket tokens first (first + 1 + count) ↔
    first + 1 + count < tokens.length ∧
      bracket.excess ((tokens.drop (first + 1)).take (count + 1)) = -1 := by
  have hexcess := excess_stretch htoken h (count + 1)
  rw [Bracket.excess, ← Nat.add_assoc, Nat.add_right_comm] at hexcess
  constructor
  · rintro ⟨-, hlt, heq⟩
    exact ⟨hlt, by omega⟩
  · rintro ⟨hlt, heq⟩
    exact ⟨by omega, hlt, by omega⟩

theorem closes_le_of_staysOpen {count : Nat}
    (hopen : bracket.StaysOpen 0 (tokens.drop (first + 1)) count) (hlast : last ≤ first + count) :
    (stretch tokens first last).countP bracket.closes ≤
      (stretch tokens first last).countP bracket.opens := by
  obtain hlt | hle := Nat.lt_or_ge last first
  · have hnil : stretch tokens first last = [] := by
      refine List.drop_eq_nil_of_le ?_
      rw [List.length_take]
      omega
    rw [hnil]
    exact Nat.le_refl 0
  · obtain ⟨offset, rfl⟩ := Nat.exists_eq_add_of_le hle
    have hexcess := excess_stretch htoken h offset
    have hnonneg := hopen offset (by omega)
    rw [Bracket.excess] at hexcess
    omega

theorem not_balances_of_staysOpen {count : Nat}
    (hopen : bracket.StaysOpen 0 (tokens.drop (first + 1)) count) (hlast : last ≤ first + count) :
    ¬ Balances bracket tokens first last := by
  intro hbalances
  obtain ⟨offset, rfl⟩ := Nat.exists_eq_add_of_le (Nat.succ_le_of_lt hbalances.lt)
  have hexcess := ((balances_iff htoken h offset).mp hbalances).2
  have hnonneg := hopen (offset + 1) (by omega)
  omega

theorem isLeast_of_closedBy {count : Nat}
    (hclosed : bracket.ClosedBy 0 (tokens.drop (first + 1)) count) :
    IsLeast {last | Balances bracket tokens first last} (first + 1 + count) := by
  have hlength := hclosed.lt_length
  have hbehind := hclosed.behind
  rw [List.length_drop] at hlength
  refine ⟨(balances_iff htoken h count).mpr ⟨by omega, by omega⟩, fun last hlast => ?_⟩
  by_contra hlt
  exact not_balances_of_staysOpen htoken h hclosed.before (by omega) hlast

theorem group?_drop : group? bracket (tokens.drop first) = (closeOf? tokens first).map
    fun last => ((tokens.take last).drop (first + 1), tokens.drop (last + 1)) := by
  rw [closeOf?_of_opens htoken h, drop_eq_cons htoken, group?, if_pos h, Option.map_map]
  refine congrArg (Option.map · _) (funext fun count => ?_)
  rw [Function.comp_apply, List.drop_take, List.drop_drop, Nat.add_sub_cancel_left,
    Nat.add_assoc (first + 1)]

theorem matched : Matched bracket tokens first := by
  have hclose := closeOf?_of_opens htoken h
  have htells := bracket.tells_untilClose 0 (tokens.drop (first + 1))
  cases hfound : bracket.untilClose 0 (tokens.drop (first + 1)) with
  | none =>
    rw [hfound] at hclose htells
    have hnone : ∀ last, ¬ Balances bracket tokens first last := fun last =>
      not_balances_of_staysOpen htoken h (htells last) (Nat.le_add_left last first)
    refine ⟨fun last => ?_, iff_of_true hclose hnone, fun last _ => ?_, group?_drop htoken h⟩
    · rw [hclose]
      exact iff_of_false (Option.some_ne_none last).symm fun hleast => hnone last hleast.1
    · exact closes_le_of_staysOpen htoken h (htells last) (Nat.le_add_left last first)
  | some count =>
    rw [hfound] at hclose htells
    have hleast := isLeast_of_closedBy htoken h htells
    refine ⟨fun last => ?_, ?_, fun last hlast => ?_, group?_drop htoken h⟩
    · rw [hclose]
      exact ⟨fun heq => Option.some.inj heq ▸ hleast, fun hother =>
        congrArg some (hleast.unique hother)⟩
    · rw [hclose]
      exact iff_of_false (Option.some_ne_none _) fun hnone => hnone _ hleast.1
    · have hle : last ≤ first + 1 + count := hlast _ hclose
      obtain hlt | rfl := Nat.lt_or_eq_of_le hle
      · exact closes_le_of_staysOpen htoken h htells.before (by omega)
      · exact hleast.1.countP_eq.le

end Opening

theorem closeOf?_of_not_opens (h : ∀ token, tokens[first]? = some token →
    ∀ bracket : Bracket, bracket.opens token = false) : closeOf? tokens first = none := by
  unfold closeOf?
  cases hdrop : tokens.drop first with
  | nil => rfl
  | cons token rest =>
    have htoken : tokens[first]? = some token := by
      rw [← List.head?_drop, hdrop, List.head?_cons]
    have hnone : Bracket.ofOpening? token = none :=
      List.find?_eq_none.mpr fun bracket _ => by simp [h token htoken bracket]
    simp only [hnone, Option.bind_none]

theorem lt_of_closeOf? (h : closeOf? tokens first = some last) :
    first < last ∧ last < tokens.length := by
  by_contra hbound
  have hnone : closeOf? tokens first = none := by
    refine closeOf?_of_not_opens fun token htoken bracket => Bool.eq_false_iff.mpr fun hopens => ?_
    have hbalances := (((matched htoken hopens).some_iff last).mp h).1
    exact hbound ⟨hbalances.lt, hbalances.lt_length⟩
  rw [h] at hnone
  cases hnone

end Token

end EventFlow.Source
