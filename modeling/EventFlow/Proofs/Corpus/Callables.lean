import EventFlow.Proofs.Corpus.Files
import Mathlib.Data.List.Perm.Basic

namespace EventFlow

open Source

namespace Callable

theorem repeated?_eq_none_iff {names : List String} : repeated? names = none ↔ names.Nodup := by
  simp only [repeated?, List.find?_eq_none, decide_eq_true_eq, not_lt, List.nodup_iff_count_le_one,
    ← NameSet.mem_iff, NameSet.mem_ofList]
  constructor
  · intro h name
    by_cases hname : name ∈ names
    · exact h name hname
    · rw [List.count_eq_zero_of_not_mem hname]
      exact Nat.zero_le 1
  · intro h name _
    exact h name

-- The least of the names that a list repeats.
structure LeastRepeated (names : List String) (name : String) : Prop where
  repeated : 1 < names.count name
  least : ∀ other, 1 < names.count other → name ≤ other

theorem LeastRepeated.unique {names : List String} {first second : String}
    (hfirst : LeastRepeated names first) (hsecond : LeastRepeated names second) :
    first = second :=
  le_antisymm (hfirst.least second hsecond.repeated) (hsecond.least first hfirst.repeated)

theorem LeastRepeated.perm {names others : List String} {name : String}
    (h : LeastRepeated names name) (hperm : names.Perm others) : LeastRepeated others name := by
  refine ⟨hperm.count_eq name ▸ h.repeated, fun other hother => h.least other ?_⟩
  rwa [hperm.count_eq other]

theorem leastRepeated_of_repeated? {names : List String} {name : String}
    (h : repeated? names = some name) : LeastRepeated names name := by
  obtain ⟨hname, before, after, hsplit, hbefore⟩ := List.find?_eq_some_iff_append.mp h
  have hascending := (NameSet.ofList names).ascending
  rw [hsplit] at hascending
  refine ⟨by simpa using hname, fun other hother => ?_⟩
  have hmem : other ∈ (NameSet.ofList names).toList :=
    NameSet.mem_ofList.mpr (List.count_pos_iff.mp (Nat.zero_lt_of_lt hother))
  rw [hsplit] at hmem
  rcases List.mem_append.mp hmem with hin | hin
  · exact absurd hother (by simpa using hbefore other hin)
  · rcases List.mem_cons.mp hin with rfl | hin
    · exact le_refl other
    · exact ((List.pairwise_cons.mp (List.pairwise_append.mp hascending).2.1).1 other hin).le

theorem exists_leastRepeated {names : List String} (h : ¬ names.Nodup) :
    ∃ name, LeastRepeated names name := by
  rw [← repeated?_eq_none_iff] at h
  obtain ⟨name, hname⟩ := Option.ne_none_iff_exists'.mp h
  exact ⟨name, leastRepeated_of_repeated? hname⟩

theorem LeastRepeated.not_nodup {names : List String} {name : String}
    (h : LeastRepeated names name) : ¬ names.Nodup :=
  fun hnodup => absurd (List.nodup_iff_count_le_one.mp hnodup name) (not_le.mpr h.repeated)

theorem repeated?_eq_some {names : List String} {name : String} (h : LeastRepeated names name) :
    repeated? names = some name := by
  have hsome : repeated? names ≠ none := mt repeated?_eq_none_iff.mp h.not_nodup
  obtain ⟨other, hother⟩ := Option.ne_none_iff_exists'.mp hsome
  rw [hother, (leastRepeated_of_repeated? hother).unique h]

-- Definitions with different names all find a place in the table of their file.
theorem values_ofList_perm {definitions : List Definition}
    (h : (definitions.map Definition.name).Nodup) :
    (NameMap.ofList (definitions.map fun d => (d.name, d))).values.Perm definitions := by
  have hnames : ((definitions.map fun d => (d.name, d)).map Prod.fst).Nodup := by
    rwa [List.map_map]
  have hentries : (NameMap.ofList (definitions.map fun d => (d.name, d))).entries.Perm
      (definitions.map fun d => (d.name, d)) := by
    refine (List.perm_ext_iff_of_nodup (NameMap.entries_nodup _) hnames.of_map).mpr ?_
    rintro ⟨name, definition⟩
    rw [NameMap.mem_entries_iff, NameMap.get?_ofList hnames]
  have hvalues := hentries.map Prod.snd
  rw [List.map_map] at hvalues
  exact hvalues.trans (List.Perm.of_eq (List.map_id _))

theorem inFile_eq_ok {file : String} {stream : Stream}
    (h : ((definitions stream).map Definition.name).Nodup) :
    inFile file stream = .ok (NameMap.ofList ((definitions stream).map fun d => (d.name, d))) := by
  rw [inFile, repeated?_eq_none_iff.mpr h]

theorem inFile_eq_error {file name : String} {stream : Stream}
    (h : LeastRepeated ((definitions stream).map Definition.name) name) :
    inFile file stream = .error (.duplicateCallable name (NameSet.ofList [file])) := by
  rw [inFile, repeated?_eq_some h]

end Callable

namespace Corpus

-- Every definition of a file that creates an event, with the name of the file. Listener files
-- define nothing for others.
def definedIn (file : File) : List (String × Callable.Definition) :=
  if Listener.SourceFile.isCandidate file.stream then []
  else (Callable.definitions file.stream).map fun definition => (file.name, definition)

theorem filter_flatMap_eq {files : List File} :
    (files.filter fun file => !Listener.SourceFile.isCandidate file.stream).flatMap (fun file =>
      (Callable.definitions file.stream).map fun definition => (file.name, definition)) =
      files.flatMap definedIn := by
  induction files with
  | nil => rfl
  | cons file files ih =>
    rw [List.flatMap_cons, ← ih, definedIn]
    cases h : Listener.SourceFile.isCandidate file.stream with
    | true => simp [h]
    | false => simp [h]

-- Where no file has a name twice, the definitions of all files are found, in some order.
theorem definitions_eq_ok {files : List File}
    (h : ∀ file ∈ files, ((definedIn file).map fun d => d.2.name).Nodup) :
    ∃ found, definitions files = .ok found ∧ found.Perm (files.flatMap definedIn) := by
  let inTable (file : File) : List (String × Callable.Definition) :=
    (NameMap.ofList ((Callable.definitions file.stream).map fun d => (d.name, d))).values.map
      fun definition => (file.name, definition)
  have hnames : ∀ file ∈ files.filter fun file => !Listener.SourceFile.isCandidate file.stream,
      ((Callable.definitions file.stream).map Callable.Definition.name).Nodup := by
    intro file hfile
    obtain ⟨hmem, hquiet⟩ := List.mem_filter.mp hfile
    have hfile := h file hmem
    rw [Bool.not_eq_true'] at hquiet
    simpa [definedIn, hquiet, Function.comp_def] using hfile
  refine ⟨((files.filter fun file => !Listener.SourceFile.isCandidate file.stream).map
    inTable).flatten, ?_, ?_⟩
  · rw [definitions, mapM_eq_ok (g := inTable)]
    · rfl
    · intro file hfile
      rw [Callable.inFile_eq_ok (hnames file hfile)]
      rfl
  · rw [← filter_flatMap_eq, ← List.flatMap_def]
    refine List.Perm.flatMap_left _ fun file hfile => ?_
    exact (Callable.values_ofList_perm (hnames file hfile)).map _

-- The names that the definitions of a file give events to, each as often as it is defined.
def namesIn (file : File) : List String := (definedIn file).map fun d => d.2.name

theorem namesIn_of_not_candidate {file : File}
    (h : Listener.SourceFile.isCandidate file.stream = false) :
    namesIn file = (Callable.definitions file.stream).map Callable.Definition.name := by
  simp [namesIn, definedIn, h, Function.comp_def]

theorem not_candidate_of_mem_namesIn {file : File} {name : String} (h : name ∈ namesIn file) :
    Listener.SourceFile.isCandidate file.stream = false := by
  by_contra hcandidate
  simp [namesIn, definedIn, hcandidate] at h

theorem definitions_eq_error {before after : List File} {file : File} {name : String}
    (hbefore : ∀ other ∈ before, (namesIn other).Nodup)
    (hname : Callable.LeastRepeated (namesIn file) name) :
    definitions (before ++ file :: after) =
      .error (.duplicateCallable name (NameSet.ofList [file.name])) := by
  have hquiet := not_candidate_of_mem_namesIn
    (List.count_pos_iff.mp (Nat.zero_lt_of_lt hname.repeated))
  rw [namesIn_of_not_candidate hquiet] at hname
  rw [definitions, List.filter_append, List.filter_cons_of_pos (by rw [hquiet]; rfl),
    mapM_eq_error]
  · rfl
  · intro other hother
    obtain ⟨hmem, hother⟩ := List.mem_filter.mp hother
    have hnames := hbefore other hmem
    rw [namesIn_of_not_candidate (by simpa using hother)] at hnames
    exact ⟨_, by rw [Callable.inFile_eq_ok hnames]; rfl⟩
  · rw [Callable.inFile_eq_error hname]
    rfl

def callableOf (found : String × Callable.Definition) : Callable :=
  ⟨found.2.name, found.2.kind, found.1, found.2.emits⟩

theorem callables_eq_ok {files : List File}
    (h : ((files.flatMap definedIn).map fun d => d.2.name).Nodup) :
    ∃ table, callables files = .ok table ∧ ∀ name callable,
      table.get? name = some callable ↔
        ∃ found ∈ files.flatMap definedIn, name = found.2.name ∧ callable = callableOf found := by
  have hfiles : ∀ file ∈ files, ((definedIn file).map fun d => d.2.name).Nodup := by
    intro file hfile
    rw [List.map_flatMap] at h
    exact (List.nodup_flatMap.mp h).1 file hfile
  obtain ⟨found, hok, hperm⟩ := definitions_eq_ok hfiles
  have hnodup : (found.map fun d => d.2.name).Nodup := (hperm.map _).nodup_iff.mpr h
  refine ⟨NameMap.ofList (found.map fun d => (d.2.name, callableOf d)), ?_, ?_⟩
  · simp only [callables, hok, bind, Except.bind, Callable.repeated?_eq_none_iff.mpr hnodup]
    rfl
  · intro name callable
    rw [NameMap.get?_ofList (by rwa [List.map_map]), List.mem_map]
    constructor
    · rintro ⟨⟨file, definition⟩, hmem, heq⟩
      cases heq
      exact ⟨_, hperm.mem_iff.mp hmem, rfl, rfl⟩
    · rintro ⟨d, hmem, rfl, rfl⟩
      exact ⟨d, hperm.mem_iff.mpr hmem, rfl⟩

-- How names with several definitions are reported.
inductive Collision (files : List File) : String → NameSet → Prop where
  -- the first file that repeats a name is reported alone
  | within {before after : List File} {file : File} {name : String}
      (hsplit : files = before ++ file :: after)
      (hbefore : ∀ other ∈ before, (namesIn other).Nodup)
      (hname : Callable.LeastRepeated (namesIn file) name) :
    Collision files name (NameSet.ofList [file.name])
  -- only where no file does, all files that define the name are reported
  | across {name : String} {places : NameSet}
      (hfiles : ∀ file ∈ files, (namesIn file).Nodup)
      (hname : Callable.LeastRepeated ((files.flatMap definedIn).map fun d => d.2.name) name)
      (hplaces : ∀ place, place ∈ places ↔
        ∃ found ∈ files.flatMap definedIn, found.1 = place ∧ found.2.name = name) :
    Collision files name places

theorem callables_of_collision {files : List File} {name : String} {places : NameSet}
    (h : Collision files name places) :
    callables files = .error (.duplicateCallable name places) := by
  cases h with
  | within hsplit hbefore hname =>
    rw [callables, hsplit, definitions_eq_error hbefore hname]
    rfl
  | across hfiles hname hplaces =>
    obtain ⟨found, hok, hperm⟩ := definitions_eq_ok hfiles
    have hrepeated := Callable.repeated?_eq_some (hname.perm (hperm.map _).symm)
    have hfound : NameSet.ofList ((found.filter (fun d => d.2.name = name)).map Prod.fst) =
        places := by
      refine NameSet.ext fun place => ?_
      simp only [NameSet.mem_ofList, List.mem_map, List.mem_filter, decide_eq_true_eq,
        hperm.mem_iff, hplaces, and_assoc, and_comm]
    simp only [callables, hok, bind, Except.bind, hrepeated, hfound]
    rfl

theorem exists_collision {files : List File}
    (h : ¬ ((files.flatMap definedIn).map fun d => d.2.name).Nodup) :
    ∃ name places, Collision files name places := by
  by_cases hfiles : ∀ file ∈ files, (namesIn file).Nodup
  · obtain ⟨name, hname⟩ := Callable.exists_leastRepeated h
    refine ⟨name, NameSet.ofList (((files.flatMap definedIn).filter
      (fun d => d.2.name = name)).map Prod.fst), .across hfiles hname fun place => ?_⟩
    simp only [NameSet.mem_ofList, List.mem_map, List.mem_filter, decide_eq_true_eq, and_assoc,
      and_comm]
  · obtain ⟨before, file, after, hsplit, hbefore, hfile⟩ := exists_first_not hfiles
    obtain ⟨name, hname⟩ := Callable.exists_leastRepeated hfile
    exact ⟨name, _, .within hsplit hbefore hname⟩

end Corpus

end EventFlow
