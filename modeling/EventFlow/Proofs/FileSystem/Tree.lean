import EventFlow.Proofs.FileSystem.Follow
import Mathlib.Data.List.Induction
import Mathlib.Data.List.Nodup

namespace EventFlow.FileSystem

variable {files other : FileSystem} {place location : Location} {name : String}
  {names : List String} {entry : Entry}

-- Everything lies once in a directory, under a name that the system allows.
@[mk_iff]
structure IsTree (files : FileSystem) : Prop where
  distinct : (files.entries.map Prod.fst).Nodup
  placed : ∀ entry ∈ files.entries, files.lookup? entry.1.dropLast = some .directory ∧
    ∃ name ∈ entry.1.getLast?, Path.IsName name ∧ name.utf8ByteSize ≤ maxName

instance (files : FileSystem) : Decidable files.IsTree := decidable_of_iff _ (isTree_iff files).symm

theorem mem_entries_iff (hdistinct : (files.entries.map Prod.fst).Nodup) (hne : location ≠ []) :
    (location, entry) ∈ files.entries ↔ files.lookup? location = some entry := by
  rw [lookup?, if_neg hne]
  constructor
  · intro hmem
    cases hfind : files.entries.find? (fun entry => entry.1 = location) with
    | none =>
      have hnone := List.find?_eq_none.mp hfind (location, entry) hmem
      simp at hnone
    | some found =>
      have hlocation : found.1 = location := by simpa using List.find?_some hfind
      have hsame : found = (location, entry) :=
        List.inj_on_of_nodup_map hdistinct (List.mem_of_find?_eq_some hfind) hmem hlocation
      rw [hsame]
      rfl
  · intro hlookup
    obtain ⟨⟨found, present⟩, hfind, rfl⟩ := Option.map_eq_some_iff.mp hlookup
    have hlocation : found = location := by simpa using List.find?_some hfind
    exact hlocation ▸ List.mem_of_find?_eq_some hfind

-- The order in which a tree lists what it has does not matter.
theorem lookup?_perm (hdistinct : (files.entries.map Prod.fst).Nodup)
    (hperm : other.entries.Perm files.entries) (location : Location) :
    other.lookup? location = files.lookup? location := by
  have hdistinct' : (other.entries.map Prod.fst).Nodup :=
    (hperm.map Prod.fst).nodup_iff.mpr hdistinct
  by_cases hne : location = []
  · rw [hne, lookup?_root, lookup?_root]
  · refine Option.ext fun entry => ?_
    rw [← mem_entries_iff hdistinct' hne, ← mem_entries_iff hdistinct hne, hperm.mem_iff]

namespace IsTree

-- What has a name lies in a directory.
theorem around (h : files.IsTree) (hlookup : files.lookup? (place ++ [name]) = some entry) :
    files.lookup? place = some .directory ∧ Path.IsName name ∧ name.utf8ByteSize ≤ maxName := by
  have hmem := (mem_entries_iff h.distinct (by simp)).mpr hlookup
  obtain ⟨hplace, last, hlast, hname, hshort⟩ := h.placed _ hmem
  rw [List.dropLast_concat] at hplace
  rw [List.getLast?_concat, Option.mem_some_iff] at hlast
  exact ⟨hplace, hlast ▸ hname, hlast ▸ hshort⟩

-- The names on the way to something lead there.
theorem follow_names (h : files.IsTree) (hlookup : files.lookup? (place ++ names) = some entry) :
    files.follow place names = .ok (place ++ names) := by
  induction names using List.reverseRecOn generalizing entry with
  | nil => rw [follow, List.append_nil]
  | append_singleton names name ih =>
    rw [← List.append_assoc] at hlookup
    obtain ⟨hplace, hname, hshort⟩ := h.around hlookup
    rw [follow_append, ih hplace]
    simp only [Except.bind]
    rw [follow_cons name [] hplace, next_name hname hshort, List.append_assoc]
    rfl

theorem isName (h : files.IsTree) (hlookup : files.lookup? (place ++ names) = some entry) :
    ∀ name ∈ names, Path.IsName name := by
  induction names using List.reverseRecOn generalizing entry with
  | nil => exact fun _ hmem => absurd hmem List.not_mem_nil
  | append_singleton names name ih =>
    rw [← List.append_assoc] at hlookup
    obtain ⟨hplace, hname, _⟩ := h.around hlookup
    intro other hother
    rcases List.mem_append.mp hother with hmem | hmem
    · exact ih hplace other hmem
    · exact List.mem_singleton.mp hmem ▸ hname

end IsTree

def Entry.isDirectory (entry : Entry) : Bool := entry = .directory

-- Both trees have their directories and files in the same places.
structure SameShape (files other : FileSystem) : Prop where
  current_eq : other.current = files.current
  shape_eq : ∀ location, (other.lookup? location).map Entry.isDirectory =
    (files.lookup? location).map Entry.isDirectory

namespace SameShape

theorem symm (h : files.SameShape other) : other.SameShape files :=
  ⟨h.current_eq.symm, fun location => (h.shape_eq location).symm⟩

theorem lookup?_directory (h : files.SameShape other)
    (hlookup : files.lookup? location = some .directory) :
    other.lookup? location = some .directory := by
  have hshape := h.shape_eq location
  rw [hlookup] at hshape
  obtain ⟨entry, hentry, hdirectory⟩ := Option.map_eq_some_iff.mp hshape
  rw [hentry, of_decide_eq_true hdirectory]

theorem lookup?_file (h : files.SameShape other) {octets : List UInt8}
    (hlookup : files.lookup? location = some (.file octets)) :
    ∃ octets, other.lookup? location = some (.file octets) := by
  have hshape := h.shape_eq location
  rw [hlookup] at hshape
  obtain ⟨entry, hentry, hfile⟩ := Option.map_eq_some_iff.mp hshape
  cases entry with
  | directory => cases hfile
  | file octets => exact ⟨octets, hentry⟩

theorem lookup?_none (h : files.SameShape other) (hlookup : files.lookup? location = none) :
    other.lookup? location = none := by
  have hshape := h.shape_eq location
  rw [hlookup] at hshape
  exact Option.map_eq_none_iff.mp hshape

theorem follow_eq (h : files.SameShape other) (first : Location) (segments : List String) :
    other.follow first segments = files.follow first segments := by
  induction segments generalizing first with
  | nil => rfl
  | cons segment rest ih =>
    cases hfirst : files.lookup? first with
    | none => rw [follow, follow, hfirst, h.lookup?_none hfirst]
    | some entry =>
      cases entry with
      | file _ =>
        obtain ⟨_, hfile⟩ := h.lookup?_file hfirst
        rw [follow, follow, hfirst, hfile]
      | directory =>
        rw [follow_cons segment rest hfirst, follow_cons segment rest (h.lookup?_directory hfirst)]
        cases next first segment with
        | error fault => rfl
        | ok place => exact ih place

theorem resolve_directory (h : files.SameShape other) {path : Path}
    (hresolve : files.resolve path = .ok (place, .directory)) :
    other.resolve path = .ok (place, .directory) := by
  obtain ⟨first, hstart, hfollow, hlookup⟩ := resolve_eq_ok_iff.mp hresolve
  refine resolve_eq_ok_iff.mpr ⟨first, ?_, ?_, h.lookup?_directory hlookup⟩
  · rw [← hstart]
    simp only [start, origin, h.current_eq]
  · rw [h.follow_eq, hfollow]

theorem nameOf?_eq (h : files.SameShape other) (path : Path) :
    other.nameOf? path = files.nameOf? path := by
  have horigin : other.origin path = files.origin path := by simp only [origin, h.current_eq]
  have hthere : ∀ place, (other.lookup? place).isSome = (files.lookup? place).isSome := by
    intro place
    rw [← Option.isSome_map, h.shape_eq, Option.isSome_map]
  simp only [nameOf?, horigin, h.follow_eq, hthere]

end SameShape

-- Other octets in a file leave every directory and file in its place.
theorem sameShape_put {octets octets' : List UInt8}
    (hlookup : files.lookup? location = some (.file octets)) :
    files.SameShape (files.put location (.file octets')) := by
  refine ⟨current_put _ _, fun other => ?_⟩
  by_cases hroot : other = []
  · rw [hroot, lookup?_root, lookup?_root]
  · rw [lookup?_put _ _ _ _ hroot]
    split
    · rename_i heq
      rw [heq, hlookup]
      rfl
    · rfl

end EventFlow.FileSystem
