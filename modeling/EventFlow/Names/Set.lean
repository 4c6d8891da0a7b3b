namespace EventFlow

-- A finite set of names. It is stored in ascending order of code points and without
-- repeats, so two sets with the same members are the same value.
structure NameSet where
  toList : List String
  ascending : toList.Pairwise (· < ·)
  deriving DecidableEq

namespace NameSet

-- Puts a name in its place in an ascending list. A name that is present stays as it is.
def place (name : String) : List String → List String
  | [] => [name]
  | head :: tail =>
    if name < head then name :: head :: tail
    else if head < name then head :: place name tail
    else head :: tail

theorem mem_place {name other : String} {names : List String} :
    other ∈ place name names ↔ other = name ∨ other ∈ names := by
  induction names with
  | nil => simp [place]
  | cons head tail ih =>
    unfold place
    split
    · simp
    · split
      · simp only [List.mem_cons, ih]
        constructor
        · rintro (h | h | h) <;> simp [h]
        · rintro (h | h | h) <;> simp [h]
      · rename_i hlt hgt
        have : name = head := String.le_antisymm (String.not_lt.mp hgt) (String.not_lt.mp hlt)
        subst this
        simp

theorem place_ascending (name : String) {names : List String} (h : names.Pairwise (· < ·)) :
    (place name names).Pairwise (· < ·) := by
  induction names with
  | nil => simp [place]
  | cons head tail ih =>
    obtain ⟨hhead, htail⟩ := List.pairwise_cons.mp h
    unfold place
    split
    · rename_i hlt
      refine List.pairwise_cons.mpr ⟨?_, h⟩
      intro other hother
      cases List.mem_cons.mp hother with
      | inl heq => exact heq ▸ hlt
      | inr hmem => exact String.lt_trans hlt (hhead other hmem)
    · split
      · rename_i hgt
        refine List.pairwise_cons.mpr ⟨?_, ih htail⟩
        intro other hother
        cases mem_place.mp hother with
        | inl heq => exact heq ▸ hgt
        | inr hmem => exact hhead other hmem
      · exact h

instance : EmptyCollection NameSet := ⟨⟨[], List.Pairwise.nil⟩⟩

instance : Inhabited NameSet := ⟨∅⟩

instance : Membership String NameSet := ⟨fun names name => name ∈ names.toList⟩

instance (name : String) (names : NameSet) : Decidable (name ∈ names) :=
  inferInstanceAs (Decidable (name ∈ names.toList))

def insert (names : NameSet) (name : String) : NameSet :=
  ⟨place name names.toList, place_ascending name names.ascending⟩

-- Repeats and order of the list do not matter.
def ofList (names : List String) : NameSet := names.foldl insert ∅

def union (left right : NameSet) : NameSet := right.toList.foldl insert left

def filter (keep : String → Bool) (names : NameSet) : NameSet :=
  ⟨names.toList.filter keep, names.ascending.filter keep⟩

def size (names : NameSet) : Nat := names.toList.length

theorem mem_iff {names : NameSet} {name : String} : name ∈ names ↔ name ∈ names.toList := Iff.rfl

@[simp] theorem not_mem_empty (name : String) : name ∉ (∅ : NameSet) := List.not_mem_nil

@[simp] theorem mem_insert {names : NameSet} {name other : String} :
    other ∈ names.insert name ↔ other = name ∨ other ∈ names := mem_place

theorem mem_foldl_insert {added : List String} {names : NameSet} {name : String} :
    name ∈ added.foldl insert names ↔ name ∈ added ∨ name ∈ names := by
  induction added generalizing names with
  | nil => simp
  | cons head tail ih =>
    simp only [List.foldl_cons, ih, mem_insert, List.mem_cons]
    constructor
    · rintro (h | h | h) <;> simp [h]
    · rintro ((h | h) | h) <;> simp [h]

@[simp] theorem mem_ofList {names : List String} {name : String} :
    name ∈ ofList names ↔ name ∈ names := by
  simp [ofList, mem_foldl_insert]

@[simp] theorem mem_union {left right : NameSet} {name : String} :
    name ∈ left.union right ↔ name ∈ left ∨ name ∈ right := by
  rw [union, mem_foldl_insert, mem_iff, mem_iff, or_comm]

@[simp] theorem mem_filter {keep : String → Bool} {names : NameSet} {name : String} :
    name ∈ names.filter keep ↔ name ∈ names ∧ keep name = true := List.mem_filter

end NameSet

end EventFlow
