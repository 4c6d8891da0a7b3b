import EventFlow.Names.Map
import Mathlib.Data.String.Basic
import Mathlib.Data.List.Sort
import Mathlib.Data.List.Dedup

namespace EventFlow

namespace NameSet

theorem nodup (names : NameSet) : names.toList.Nodup :=
  names.ascending.imp (fun h => String.ne_of_lt h)

-- A set is its members, for there is only one ascending list of them.
theorem ext {left right : NameSet} (h : ∀ name, name ∈ left ↔ name ∈ right) : left = right := by
  have hperm : left.toList.Perm right.toList :=
    (List.perm_ext_iff_of_nodup left.nodup right.nodup).mpr h
  have heq : left.toList = right.toList :=
    hperm.eq_of_pairwise (fun a b _ _ hab hba => absurd hba (lt_asymm hab))
      left.ascending right.ascending
  cases left
  cases right
  simp only at heq
  subst heq
  rfl

theorem ne_empty_iff {names : NameSet} : names ≠ ∅ ↔ ∃ name, name ∈ names := by
  constructor
  · intro h
    by_contra hnone
    exact h (ext (fun name => iff_of_false (fun hn => hnone ⟨name, hn⟩) (not_mem_empty name)))
  · rintro ⟨name, hn⟩ rfl
    exact not_mem_empty name hn

theorem mem_foldl_union {α : Type} {f : α → NameSet} {items : List α} {names : NameSet}
    {name : String} :
    name ∈ items.foldl (fun found item => found.union (f item)) names ↔
      name ∈ names ∨ ∃ item ∈ items, name ∈ f item := by
  induction items generalizing names with
  | nil => simp
  | cons head tail ih =>
    simp only [List.foldl_cons, ih, mem_union, List.exists_mem_cons_iff, or_assoc]

end NameSet

namespace NameMap

variable {α β : Type}

theorem keys_nodup (map : NameMap α) : map.keys.Nodup :=
  map.keys_ascending.imp (fun h => String.ne_of_lt h)

theorem entries_nodup (map : NameMap α) : map.entries.Nodup :=
  List.Nodup.of_map Prod.fst map.keys_nodup

theorem mem_entries_iff {map : NameMap α} {name : String} {value : α} :
    (name, value) ∈ map.entries ↔ map.get? name = some value := by
  constructor
  · intro hmem
    have hfound : (map.entries.find? (fun entry => entry.1 = name)).isSome :=
      List.find?_isSome.mpr ⟨_, hmem, by simp⟩
    obtain ⟨entry, hentry⟩ := Option.isSome_iff_exists.mp hfound
    have hname : entry.1 = name := by simpa using List.find?_some hentry
    have heq : entry = (name, value) :=
      List.inj_on_of_nodup_map map.keys_nodup (List.mem_of_find?_eq_some hentry) hmem hname
    simp [get?, hentry, heq]
  · intro hget
    obtain ⟨entry, hentry, hvalue⟩ := Option.map_eq_some_iff.mp hget
    have hname : entry.1 = name := by simpa using List.find?_some hentry
    have heq : entry = (name, value) := Prod.ext hname hvalue
    exact heq ▸ List.mem_of_find?_eq_some hentry

theorem ext {left right : NameMap α} (h : ∀ name, left.get? name = right.get? name) :
    left = right := by
  have hmem : ∀ entry, entry ∈ left.entries ↔ entry ∈ right.entries := by
    rintro ⟨name, value⟩
    rw [mem_entries_iff, mem_entries_iff, h]
  have hperm := (List.perm_ext_iff_of_nodup left.entries_nodup right.entries_nodup).mpr hmem
  have heq : left.entries = right.entries :=
    hperm.eq_of_pairwise (fun a b _ _ hab hba => absurd hba (lt_asymm hab))
      left.ascending right.ascending
  cases left
  cases right
  simp only at heq
  subst heq
  rfl

theorem mem_keys_iff {map : NameMap α} {name : String} :
    name ∈ map.keys ↔ ∃ value, map.get? name = some value := by
  simp only [keys, List.mem_map, Prod.exists, exists_and_right, exists_eq_right, mem_entries_iff]

theorem mem_values_iff {map : NameMap α} {value : α} :
    value ∈ map.values ↔ ∃ name, map.get? name = some value := by
  simp only [values, List.mem_map, Prod.exists, exists_eq_right, mem_entries_iff]

theorem contains_iff {map : NameMap α} {name : String} :
    map.contains name = true ↔ name ∈ map.keys := by
  simp [contains, keys]

theorem get?_foldl_insert {entries : List (String × α)} {map : NameMap α} {name : String}
    (h : name ∉ entries.map Prod.fst) :
    (entries.foldl (fun map entry => map.insert entry.1 entry.2) map).get? name =
      map.get? name := by
  induction entries generalizing map with
  | nil => rfl
  | cons head tail ih =>
    rw [List.map_cons, List.mem_cons, not_or] at h
    rw [List.foldl_cons, ih h.2, get?_insert, if_neg h.1]

-- Without repeats no entry of a list is overwritten by a later one.
theorem get?_ofList {entries : List (String × α)} (h : (entries.map Prod.fst).Nodup)
    {name : String} {value : α} :
    (ofList entries).get? name = some value ↔ (name, value) ∈ entries := by
  unfold ofList
  generalize hmap : (∅ : NameMap α) = map
  have hempty : map.get? name = none := by rw [← hmap]; rfl
  clear hmap
  induction entries generalizing map with
  | nil => simp [hempty]
  | cons head tail ih =>
    rw [List.map_cons, List.nodup_cons] at h
    rw [List.foldl_cons, List.mem_cons]
    by_cases hname : name = head.1
    · have hnot : name ∉ tail.map Prod.fst := hname ▸ h.1
      rw [get?_foldl_insert hnot, get?_insert, if_pos hname, Option.some_inj]
      constructor
      · rintro rfl
        exact .inl (Prod.ext hname rfl)
      · rintro (rfl | hmem)
        · rfl
        · exact absurd (List.mem_map_of_mem hmem) hnot
    · have hskip : (map.insert head.1 head.2).get? name = none := by
        rw [get?_insert, if_neg hname, hempty]
      refine (ih h.2 (map.insert head.1 head.2) hskip).trans ?_
      constructor
      · exact .inr
      · rintro (rfl | hmem)
        · exact absurd rfl hname
        · exact hmem

-- Taken from the back, the first entry of a name counts.
theorem get?_ofList_reverse (entries : List (String × α)) (name : String) :
    (ofList entries.reverse).get? name =
      (entries.find? fun entry => entry.1 = name).map Prod.snd := by
  induction entries with
  | nil => rfl
  | cons head tail ih =>
    have hlast : ofList (head :: tail).reverse = (ofList tail.reverse).insert head.1 head.2 := by
      rw [ofList, List.reverse_cons, List.foldl_append]
      rfl
    rw [hlast, get?_insert, List.find?_cons]
    by_cases hname : head.1 = name
    · simp [hname]
    · simp [hname, Ne.symm hname, ih]

theorem entries_mapValues (f : α → β) (map : NameMap α) :
    (map.mapValues f).entries = map.entries.map (fun entry => (entry.1, f entry.2)) := rfl

@[simp] theorem get?_mapValues (f : α → β) (map : NameMap α) (name : String) :
    (map.mapValues f).get? name = (map.get? name).map f := by
  simp only [get?, entries_mapValues, List.find?_map, Option.map_map, Function.comp_def]

@[simp] theorem contains_mapValues (f : α → β) (map : NameMap α) (name : String) :
    (map.mapValues f).contains name = map.contains name := by
  rw [contains, entries_mapValues, List.any_map]
  rfl

theorem mapValues_insert (f : α → β) (map : NameMap α) (name : String) (value : α) :
    (map.insert name value).mapValues f = (map.mapValues f).insert name (f value) := by
  refine ext fun other => ?_
  simp only [get?_mapValues, get?_insert]
  split <;> rfl

theorem mapValues_ofList (f : α → β) (entries : List (String × α)) :
    (ofList entries).mapValues f = ofList (entries.map fun entry => (entry.1, f entry.2)) := by
  rw [ofList, ofList, List.foldl_map]
  have hstep : ∀ (map : NameMap α) (entry : String × α),
      (map.mapValues f).insert entry.1 (f entry.2) = (map.insert entry.1 entry.2).mapValues f :=
    fun map entry => (mapValues_insert f map entry.1 entry.2).symm
  exact (List.foldl_hom (mapValues f) hstep).symm

-- A value may be replaced by one that is no different under `f`.
theorem mapValues_insert_of_eq {f : α → β} {map : NameMap α} {name : String} {value other : α}
    (hget : map.get? name = some value) (h : f other = f value) :
    (map.insert name other).mapValues f = map.mapValues f := by
  refine ext fun key => ?_
  rw [get?_mapValues, get?_mapValues, get?_insert]
  split
  · rename_i hkey
    rw [hkey, hget, Option.map_some, Option.map_some, h]
  · rfl

end NameMap

end EventFlow
