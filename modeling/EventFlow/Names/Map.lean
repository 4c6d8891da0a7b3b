import EventFlow.Names.Set

namespace EventFlow

-- A finite map from names, stored as its entries in ascending order of the names and with
-- one entry for each name, so two maps with the same entries are the same value.
structure NameMap (α : Type) where
  entries : List (String × α)
  ascending : entries.Pairwise (fun a b => a.1 < b.1)

namespace NameMap

variable {α β : Type}

instance [DecidableEq α] : DecidableEq (NameMap α) := fun left right =>
  if h : left.entries = right.entries then
    isTrue (by cases left; cases right; simp only at h; subst h; rfl)
  else isFalse (fun e => h (e ▸ rfl))

-- Sets the value of a name in an ascending list of entries.
def place (name : String) (value : α) : List (String × α) → List (String × α)
  | [] => [(name, value)]
  | head :: tail =>
    if name < head.1 then (name, value) :: head :: tail
    else if head.1 < name then head :: place name value tail
    else (name, value) :: tail

theorem eq_or_mem_of_mem_place {name : String} {value : α} {entry : String × α}
    {entries : List (String × α)} (h : entry ∈ place name value entries) :
    entry = (name, value) ∨ entry ∈ entries := by
  induction entries with
  | nil => simpa [place] using h
  | cons head tail ih =>
    unfold place at h
    split at h
    · simpa using h
    · split at h
      · cases List.mem_cons.mp h with
        | inl heq => simp [heq]
        | inr hmem => cases ih hmem with
          | inl heq => simp [heq]
          | inr hin => simp [hin]
      · cases List.mem_cons.mp h with
        | inl heq => simp [heq]
        | inr hmem => simp [hmem]

theorem place_ascending (name : String) (value : α) {entries : List (String × α)}
    (h : entries.Pairwise (fun a b => a.1 < b.1)) :
    (place name value entries).Pairwise (fun a b => a.1 < b.1) := by
  induction entries with
  | nil => simp [place]
  | cons head tail ih =>
    obtain ⟨hhead, htail⟩ := List.pairwise_cons.mp h
    unfold place
    split
    · rename_i hlt
      refine List.pairwise_cons.mpr ⟨?_, h⟩
      intro other hother
      cases List.mem_cons.mp hother with
      | inl heq => exact heq ▸ hlt
      | inr hmem => exact String.lt_trans hlt (hhead other hmem)
    · split
      · rename_i hgt
        refine List.pairwise_cons.mpr ⟨?_, ih htail⟩
        intro other hother
        cases eq_or_mem_of_mem_place hother with
        | inl heq => exact heq ▸ hgt
        | inr hmem => exact hhead other hmem
      · rename_i hlt hgt
        have heq : name = head.1 :=
          String.le_antisymm (String.not_lt.mp hgt) (String.not_lt.mp hlt)
        exact List.pairwise_cons.mpr ⟨fun other hmem => heq ▸ hhead other hmem, htail⟩

instance : EmptyCollection (NameMap α) := ⟨⟨[], List.Pairwise.nil⟩⟩

instance : Inhabited (NameMap α) := ⟨∅⟩

-- The value of the name becomes `value`, whether the name was present or not.
def insert (map : NameMap α) (name : String) (value : α) : NameMap α :=
  ⟨place name value map.entries, place_ascending name value map.ascending⟩

-- Of two entries with one name, the later one counts.
def ofList (entries : List (String × α)) : NameMap α :=
  entries.foldl (fun map entry => map.insert entry.1 entry.2) ∅

def get? (map : NameMap α) (name : String) : Option α :=
  (map.entries.find? (fun entry => entry.1 = name)).map Prod.snd

def contains (map : NameMap α) (name : String) : Bool :=
  map.entries.any (fun entry => entry.1 = name)

def filter (keep : String → α → Bool) (map : NameMap α) : NameMap α :=
  ⟨map.entries.filter (fun entry => keep entry.1 entry.2), map.ascending.filter _⟩

def erase (map : NameMap α) (name : String) : NameMap α :=
  map.filter (fun other _ => other ≠ name)

-- Lays `upper` over `map`: a name of both has the value it has in `upper`.
def overlay (map upper : NameMap α) : NameMap α :=
  upper.entries.foldl (fun lower entry => lower.insert entry.1 entry.2) map

def mapValues (f : α → β) (map : NameMap α) : NameMap β :=
  ⟨map.entries.map (fun entry => (entry.1, f entry.2)), List.pairwise_map.mpr map.ascending⟩

def keys (map : NameMap α) : List String := map.entries.map Prod.fst

def values (map : NameMap α) : List α := map.entries.map Prod.snd

def size (map : NameMap α) : Nat := map.entries.length

def isEmpty (map : NameMap α) : Bool := map.entries.isEmpty

theorem find?_place (name other : String) (value : α) (entries : List (String × α)) :
    (place name value entries).find? (fun entry => entry.1 = other) =
      if other = name then some (name, value)
      else entries.find? (fun entry => entry.1 = other) := by
  induction entries with
  | nil =>
    by_cases h : other = name
    · simp [place, h]
    · simp [place, h, Ne.symm h]
  | cons head tail ih =>
    unfold place
    split
    · by_cases h : other = name
      · simp [h]
      · simp [h, Ne.symm h]
    · split
      · rename_i hgt
        by_cases h : other = name
        · have hne : head.1 ≠ name := fun heq => String.lt_irrefl name (heq ▸ hgt)
          subst h
          rw [List.find?_cons_of_neg (by simpa using hne), ih, if_pos rfl, if_pos rfl]
        · by_cases hhead : head.1 = other
          · simp [hhead, h]
          · rw [List.find?_cons_of_neg (by simpa using hhead), ih,
              List.find?_cons_of_neg (by simpa using hhead)]
      · rename_i hlt hgt
        have heq : name = head.1 :=
          String.le_antisymm (String.not_lt.mp hgt) (String.not_lt.mp hlt)
        by_cases h : other = name
        · simp [h]
        · have hhead : head.1 ≠ other := fun e => h (heq.trans e).symm
          rw [List.find?_cons_of_neg (by simpa using Ne.symm h),
            List.find?_cons_of_neg (by simpa using hhead), if_neg h]

-- Only the value of the inserted name changes.
@[simp] theorem get?_insert (map : NameMap α) (name other : String) (value : α) :
    (map.insert name value).get? other = if other = name then some value else map.get? other := by
  simp only [get?, insert, find?_place]
  split <;> rfl

@[simp] theorem get?_empty (name : String) : (∅ : NameMap α).get? name = none := rfl

theorem keys_ascending (map : NameMap α) : map.keys.Pairwise (· < ·) :=
  List.pairwise_map.mpr map.ascending

-- The names of a map.
def nameSet (map : NameMap α) : NameSet := ⟨map.keys, map.keys_ascending⟩

end NameMap

end EventFlow
