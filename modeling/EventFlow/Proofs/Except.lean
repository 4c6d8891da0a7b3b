import Mathlib.Data.List.Basic

namespace EventFlow

variable {ε α β : Type} {f : α → Except ε β}

-- A computation in two parts gives a value only if both parts do.
theorem bind_eq_ok_iff {first : Except ε α} {value : β} :
    (first >>= f) = .ok value ↔ ∃ a, first = .ok a ∧ f a = .ok value := by
  cases first with
  | error fault => simp [bind, Except.bind]
  | ok a => simp [bind, Except.bind]

theorem bind_eq_error_iff {first : Except ε α} {error : ε} :
    (first >>= f) = .error error ↔
      first = .error error ∨ ∃ a, first = .ok a ∧ f a = .error error := by
  cases first with
  | error fault => simp [bind, Except.bind]
  | ok a => simp [bind, Except.bind]

theorem mapM_eq_ok {items : List α} {g : α → β} (h : ∀ item ∈ items, f item = .ok (g item)) :
    items.mapM f = .ok (items.map g) := by
  induction items with
  | nil => rfl
  | cons head tail ih =>
    rw [List.mapM_cons, h head List.mem_cons_self,
      ih fun item hitem => h item (List.mem_cons_of_mem _ hitem)]
    rfl

theorem mapM_eq_map {γ : Type} {items : List α} {g : α → Except ε γ} {h : γ → β}
    (hsame : ∀ item ∈ items, f item = (g item).map h) :
    items.mapM f = (items.mapM g).map (List.map h) := by
  induction items with
  | nil => rfl
  | cons head tail ih =>
    rw [List.mapM_cons, List.mapM_cons, hsame head List.mem_cons_self,
      ih fun item hitem => hsame item (List.mem_cons_of_mem _ hitem)]
    cases g head with
    | error error => rfl
    | ok value =>
      cases tail.mapM g with
      | error error => rfl
      | ok values => rfl

theorem mapM_eq_error {before after : List α} {item : α} {error : ε}
    (hbefore : ∀ other ∈ before, ∃ value, f other = .ok value) (h : f item = .error error) :
    (before ++ item :: after).mapM f = .error error := by
  induction before with
  | nil =>
    rw [List.nil_append, List.mapM_cons, h]
    rfl
  | cons head tail ih =>
    obtain ⟨value, hvalue⟩ := hbefore head List.mem_cons_self
    rw [List.cons_append, List.mapM_cons, hvalue,
      ih fun other hother => hbefore other (List.mem_cons_of_mem _ hother)]
    rfl

theorem exists_of_mapM_eq_error {items : List α} {error : ε} (h : items.mapM f = .error error) :
    ∃ item ∈ items, f item = .error error := by
  induction items with
  | nil => cases h
  | cons head tail ih =>
    rw [List.mapM_cons] at h
    cases hhead : f head with
    | error other =>
      rw [hhead] at h
      cases h
      exact ⟨head, List.mem_cons_self, hhead⟩
    | ok value =>
      cases htail : tail.mapM f with
      | error other =>
        rw [hhead, htail] at h
        cases h
        obtain ⟨item, hitem, herror⟩ := ih htail
        exact ⟨item, List.mem_cons_of_mem _ hitem, herror⟩
      | ok values =>
        rw [hhead, htail] at h
        cases h

theorem mem_iff_of_mapM_eq_ok {items : List α} {values : List β} (h : items.mapM f = .ok values)
    {value : β} : value ∈ values ↔ ∃ item ∈ items, f item = .ok value := by
  induction items generalizing values with
  | nil =>
    cases h
    simp
  | cons head tail ih =>
    rw [List.mapM_cons] at h
    cases hhead : f head with
    | error error =>
      rw [hhead] at h
      cases h
    | ok first =>
      cases htail : tail.mapM f with
      | error error =>
        rw [hhead, htail] at h
        cases h
      | ok rest =>
        rw [hhead, htail] at h
        cases h
        rw [List.mem_cons, ih htail, List.exists_mem_cons_iff, hhead, Except.ok.injEq,
          @eq_comm _ value]

theorem exists_of_mapM_eq_ok {items : List α} {values : List β} (h : items.mapM f = .ok values) :
    ∀ item ∈ items, ∃ value, f item = .ok value := by
  induction items generalizing values with
  | nil => exact fun item hitem => absurd hitem List.not_mem_nil
  | cons head tail ih =>
    rw [List.mapM_cons] at h
    cases hhead : f head with
    | error error =>
      rw [hhead] at h
      cases h
    | ok first =>
      cases htail : tail.mapM f with
      | error error =>
        rw [hhead, htail] at h
        cases h
      | ok rest => exact List.forall_mem_cons.mpr ⟨⟨first, hhead⟩, ih htail⟩

-- Items for which nothing is found may be left out.
theorem mapM_filter {f : α → Except ε (Option β)} {keep : α → Bool}
    (h : ∀ item, keep item = false → f item = .ok none) (items : List α) :
    ((items.filter keep).mapM f).map (List.filterMap id) =
      (items.mapM f).map (List.filterMap id) := by
  induction items with
  | nil => rfl
  | cons head tail ih =>
    cases hkeep : keep head with
    | false =>
      rw [List.filter_cons_of_neg (by simp [hkeep]), ih, List.mapM_cons, h head hkeep]
      cases tail.mapM f with
      | error error => rfl
      | ok found => rfl
    | true =>
      rw [List.filter_cons_of_pos hkeep, List.mapM_cons, List.mapM_cons]
      cases f head with
      | error error => rfl
      | ok found =>
        have hstep : ∀ rest : Except ε (List (Option β)),
            (rest >>= fun others => pure (found :: others)).map (List.filterMap id) =
              (rest.map (List.filterMap id)).map (found.toList ++ ·) := by
          rintro (error | others)
          · rfl
          · cases found <;> rfl
        exact (hstep _).trans ((congrArg (Except.map (found.toList ++ ·)) ih).trans (hstep _).symm)

theorem exists_first_not {p : α → Prop} {items : List α} (h : ¬ ∀ item ∈ items, p item) :
    ∃ before item after, items = before ++ item :: after ∧ (∀ other ∈ before, p other) ∧
      ¬ p item := by
  induction items with
  | nil => exact absurd (fun item hitem => absurd hitem List.not_mem_nil) h
  | cons head tail ih =>
    by_cases hhead : p head
    · have htail : ¬ ∀ item ∈ tail, p item :=
        fun hall => h (List.forall_mem_cons.mpr ⟨hhead, hall⟩)
      obtain ⟨before, item, after, heq, hbefore, hitem⟩ := ih htail
      exact ⟨head :: before, item, after, by rw [heq, List.cons_append],
        List.forall_mem_cons.mpr ⟨hhead, hbefore⟩, hitem⟩
    · exact ⟨[], head, tail, rfl, fun other hother => absurd hother List.not_mem_nil, hhead⟩

end EventFlow
