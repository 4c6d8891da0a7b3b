import EventFlow.Source.Bracket

namespace EventFlow.Source

variable {bracket : Bracket} {first last : Token} {inside behind : List Token}

theorem Bracket.opens_eq_false_of_closes {other : Bracket} (h : bracket.closes first) :
    other.opens first = false := by
  have hkind : first.kind = .punctuation bracket.closing := of_decide_eq_true h
  cases bracket <;> cases other <;> simp [opens, opening, Token.isPunctuation, hkind, closing]

-- Without brackets of the kind inside, the first one that closes ends the group.
theorem Bracket.untilClose_append (hinside : ∀ token ∈ inside,
      bracket.opens token = false ∧ bracket.closes token = false) (hlast : bracket.closes last) :
    bracket.untilClose 0 (inside ++ last :: behind) = some inside.length := by
  induction inside with
  | nil => simp [untilClose, opens_eq_false_of_closes hlast, hlast]
  | cons token inside ih =>
    rw [List.forall_mem_cons] at hinside
    obtain ⟨⟨hopens, hcloses⟩, hrest⟩ := hinside
    simp [untilClose, hopens, hcloses, ih hrest]

theorem Token.group?_append (hfirst : bracket.opens first) (hinside : ∀ token ∈ inside,
      bracket.opens token = false ∧ bracket.closes token = false) (hlast : bracket.closes last) :
    group? bracket (first :: (inside ++ last :: behind)) = some (inside, behind) := by
  rw [group?, if_pos hfirst, Bracket.untilClose_append hinside hlast, Option.map_some,
    List.take_left, ← List.drop_drop, List.drop_left, List.drop_one, List.tail_cons]

theorem Bracket.exists_of_untilClose {tokens : List Token} {depth count : Nat}
    (h : bracket.untilClose depth tokens = some count) : ∃ closing, bracket.closes closing ∧
      tokens = tokens.take count ++ closing :: tokens.drop (count + 1) := by
  fun_induction Bracket.untilClose bracket depth tokens generalizing count with
  | case1 => cases h
  | case2 depth token rest hopens ih =>
    obtain ⟨count, hcount, rfl⟩ := Option.map_eq_some_iff.mp h
    obtain ⟨closing, hcloses, hrest⟩ := ih hcount
    exact ⟨closing, hcloses, congrArg (token :: ·) hrest⟩
  | case3 token rest hopens hcloses =>
    obtain rfl := Option.some.inj h
    exact ⟨token, hcloses, rfl⟩
  | case4 token rest hopens hcloses depth ih =>
    obtain ⟨count, hcount, rfl⟩ := Option.map_eq_some_iff.mp h
    obtain ⟨closing, hcloses, hrest⟩ := ih hcount
    exact ⟨closing, hcloses, congrArg (token :: ·) hrest⟩
  | case5 depth token rest hopens hcloses ih =>
    obtain ⟨count, hcount, rfl⟩ := Option.map_eq_some_iff.mp h
    obtain ⟨closing, hcloses, hrest⟩ := ih hcount
    exact ⟨closing, hcloses, congrArg (token :: ·) hrest⟩

-- A group stands between the bracket that opens it and one that closes it.
theorem Token.exists_brackets {tokens : List Token}
    (h : group? bracket tokens = some (inside, behind)) : ∃ opening closing,
      bracket.opens opening ∧ bracket.closes closing ∧
      tokens = opening :: (inside ++ [closing]) ++ behind := by
  cases tokens with
  | nil => cases h
  | cons opening rest =>
    rw [group?] at h
    split at h
    · rename_i hopens
      obtain ⟨count, hcount, heq⟩ := Option.map_eq_some_iff.mp h
      obtain ⟨rfl, rfl⟩ := Prod.mk.inj heq
      obtain ⟨closing, hcloses, hrest⟩ := Bracket.exists_of_untilClose hcount
      refine ⟨opening, closing, hopens, hcloses, ?_⟩
      rw [List.cons_append, List.append_assoc, List.singleton_append, ← hrest]
    · cases h

theorem Token.group?_of_not_opens (h : bracket.opens first = false) :
    group? bracket (first :: behind) = none := by
  rw [group?, h]
  rfl

end EventFlow.Source
