import EventFlow.FileSystem.Search
import EventFlow.Proofs.Except
import EventFlow.Proofs.FileSystem.Tree
import EventFlow.Proofs.Names
import Mathlib.Data.List.Find

namespace EventFlow.FileSystem

variable {files : FileSystem} {root : Path} {place first : Location} {name extension : String}
  {names others : List String} {entry : Entry}

@[simp] theorem pathBelow_concat (root : Path) (names : List String) (name : String) :
    pathBelow root (names ++ [name]) = (pathBelow root names).join ⟨name⟩ := by
  simp [pathBelow]

theorem lead_pathBelow (h : ∀ name ∈ names, Path.IsName name) :
    (pathBelow root names).lead = root.lead ++ names := by
  induction names using List.reverseRecOn with
  | nil => simp [pathBelow]
  | append_singleton names name ih =>
    rw [List.forall_mem_append, List.forall_mem_singleton] at h
    rw [pathBelow_concat, Path.lead_join h.2, ih h.1, List.append_assoc]

theorem origin_join {path : Path} (h : files.origin path = .ok first)
    (hname : Path.IsName name) : files.origin (path.join ⟨name⟩) = .ok first := by
  obtain ⟨hnul, _, hfirst⟩ := origin_eq_ok_iff.mp h
  rw [origin_eq_ok_iff, Path.isAbsolute_join hname]
  exact ⟨Path.nul_join hname hnul, fun hempty => Path.not_isOpen_join hname (.inl hempty), hfirst⟩

theorem origin_pathBelow (h : files.origin root = .ok first)
    (hnames : ∀ name ∈ names, Path.IsName name) :
    files.origin (pathBelow root names) = .ok first := by
  induction names using List.reverseRecOn with
  | nil => exact h
  | append_singleton names name ih =>
    rw [List.forall_mem_append, List.forall_mem_singleton] at hnames
    rw [pathBelow_concat]
    exact origin_join (ih hnames.1) hnames.2

-- What lies below a directory is found there by its path, unless that is too long.
theorem resolve_pathBelow (h : files.IsTree) (hroot : files.resolve root = .ok (place, .directory))
    (hlookup : files.lookup? (place ++ names) = some entry)
    (hshort : (pathBelow root names).text.utf8ByteSize ≤ maxPath) :
    files.resolve (pathBelow root names) = .ok (place ++ names, entry) := by
  obtain ⟨first, hstart, hfollow, hplace⟩ := resolve_eq_ok_iff.mp hroot
  have horigin := (start_eq_ok_iff.mp hstart).1
  have hnames := h.isName hlookup
  cases names using List.reverseRecOn with
  | nil =>
    rw [List.append_nil] at hlookup ⊢
    exact resolve_eq_ok_iff.mpr ⟨first, hstart, hfollow, hlookup⟩
  | append_singleton names name =>
    have hbelow := origin_pathBelow horigin hnames
    refine resolve_eq_ok_iff.mpr ⟨first, start_eq_ok_iff.mpr ⟨hbelow, hshort⟩, ?_, hlookup⟩
    rw [List.forall_mem_append, List.forall_mem_singleton] at hnames
    have hlead := follow_lead hfollow (origin_eq_ok_iff.mp horigin).2.1
    rw [pathBelow_concat, Path.segments_join hnames.2, lead_pathBelow hnames.1,
      List.append_assoc, follow_append, hlead]
    exact h.follow_names hlookup

theorem mem_below (h : files.IsTree) :
    (names, entry) ∈ files.below place ↔
      names ≠ [] ∧ files.lookup? (place ++ names) = some entry := by
  rw [below, List.mem_filterMap]
  constructor
  · rintro ⟨⟨location, present⟩, hmem, hbelow⟩
    obtain ⟨rest, hrest, hsome⟩ := Option.bind_eq_some_iff.mp hbelow
    rw [List.isPrefixOf?_eq_some_iff_append_eq] at hrest
    by_cases hempty : rest = []
    · rw [if_pos hempty] at hsome
      cases hsome
    · rw [if_neg hempty] at hsome
      cases hsome
      subst hrest
      exact ⟨hempty, (mem_entries_iff h.distinct (by simp [hempty])).mp hmem⟩
  · rintro ⟨hne, hlookup⟩
    refine ⟨(place ++ names, entry), (mem_entries_iff h.distinct (by simp [hne])).mpr hlookup, ?_⟩
    have hrest : place.isPrefixOf? (place ++ names) = some names :=
      List.isPrefixOf?_eq_some_iff_append_eq.mpr rfl
    simp only [hrest, Option.bind_some, if_neg hne]

theorem mem_namesBelow (h : files.IsTree) {isWanted : List String → Entry → Bool} :
    names ∈ files.namesBelow place isWanted ↔ names ≠ [] ∧
      ∃ entry, files.lookup? (place ++ names) = some entry ∧ isWanted names entry = true := by
  simp only [namesBelow, List.mem_mergeSort, List.mem_map, List.mem_filter, Prod.exists,
    exists_and_right, exists_eq_right, mem_below h]
  constructor
  · rintro ⟨entry, ⟨hne, hlookup⟩, hwanted⟩
    exact ⟨hne, entry, hlookup, hwanted⟩
  · rintro ⟨hne, entry, hlookup, hwanted⟩
    exact ⟨entry, ⟨hne, hlookup⟩, hwanted⟩

-- The names stand in their order, name by name.
theorem namesBelow_sorted (files : FileSystem) (place : Location)
    (isWanted : List String → Entry → Bool) :
    (files.namesBelow place isWanted).Pairwise fun a b => ¬ b < a := by
  have hle : ∀ a b : List String, (!decide (b < a)) = true ↔ ¬ b < a := by
    intro a b
    rw [Bool.not_eq_true', decide_eq_false_iff_not]
  have hsorted := @List.pairwise_mergeSort _ (fun a b : List String => !decide (b < a))
    (fun a b c hab hbc => by
      rw [hle, List.not_lt] at hab hbc ⊢
      exact List.le_trans hab hbc)
    (fun a b => by
      rw [Bool.or_eq_true, hle, hle, List.not_lt, List.not_lt]
      exact List.le_total a b)
  exact (hsorted _).imp fun h => (hle _ _).mp h

-- A file that a search from a path comes upon, by the names on the way to it.
structure Found (files : FileSystem) (root : Path) (extension : String) (place : Location)
    (names : List String) : Prop where
  root_eq : files.resolve root = .ok (place, .directory)
  isFile : ∃ octets, files.lookup? (place ++ names) = some (.file octets)
  extension_eq : names.getLast?.bind Path.extension? = some extension
  entered : isEntered (root.fileName?.toList ++ names.dropLast) = true

-- The first file of a name that a search comes upon, by the names on the way one after the other.
structure First (files : FileSystem) (root : Path) (extension name : String) (place : Location)
    (names : List String) : Prop where
  found : files.Found root extension place names
  named : names.getLast? = some name
  least : ∀ others, files.Found root extension place others → others.getLast? = some name →
    ¬ others < names

-- Neither a directory that a search enters nor a file that it comes upon has too long a path.
structure InReach (files : FileSystem) (root : Path) (extension : String) : Prop where
  directories : ∀ place names, files.resolve root = .ok (place, .directory) →
    files.lookup? (place ++ names) = some .directory →
    isEntered (root.fileName?.toList ++ names) = true →
    (pathBelow root names).text.utf8ByteSize ≤ maxPath
  found : ∀ place names, files.Found root extension place names →
    (pathBelow root names).text.utf8ByteSize ≤ maxPath

-- The names on the way to all files that a search comes upon.
def searched (files : FileSystem) (root : Path) (extension : String) (place : Location) :
    List (List String) :=
  if isEntered root.fileName?.toList then files.namesBelow place (isWantedFile [extension]) else []

theorem isWantedFile_iff {octets : List UInt8} :
    isWantedFile [extension] names (.file octets) = true ↔ isEntered names.dropLast = true ∧
      names.getLast?.bind Path.extension? = some extension := by
  have hextension : names.getLast?.any (hasExtension [extension]) = true ↔
      names.getLast?.bind Path.extension? = some extension := by
    cases names.getLast? with
    | none => simp
    | some name =>
      cases hname : Path.extension? name with
      | none => simp [hasExtension, hname]
      | some found => simp [hasExtension, hname]
  rw [isWantedFile, Bool.and_eq_true, Bool.and_eq_true, hextension, and_assoc]
  exact and_iff_right (decide_eq_true (by simp))

theorem mem_searched (h : files.IsTree) (hroot : files.resolve root = .ok (place, .directory)) :
    names ∈ files.searched root extension place ↔ files.Found root extension place names := by
  have hentered : isEntered (root.fileName?.toList ++ names.dropLast) =
      (isEntered root.fileName?.toList && isEntered names.dropLast) := List.all_append
  rw [searched]
  split
  · rename_i hentry
    rw [mem_namesBelow h]
    constructor
    · rintro ⟨_, _ | octets, hlookup, hwanted⟩
      · simp [isWantedFile] at hwanted
      · obtain ⟨hway, hextension⟩ := isWantedFile_iff.mp hwanted
        exact ⟨hroot, ⟨octets, hlookup⟩, hextension, by rw [hentered, hentry, hway]; rfl⟩
    · intro hfound
      obtain ⟨octets, hlookup⟩ := hfound.isFile
      have hway := hfound.entered
      rw [hentered, Bool.and_eq_true] at hway
      have hwanted : isWantedFile [extension] names (.file octets) = true :=
        isWantedFile_iff.mpr ⟨hway.2, hfound.extension_eq⟩
      refine ⟨?_, .file octets, hlookup, hwanted⟩
      rintro rfl
      cases hfound.extension_eq
  · rename_i hskipped
    refine iff_of_false List.not_mem_nil fun hfound => hskipped ?_
    have hway := hfound.entered
    rw [hentered, Bool.and_eq_true] at hway
    exact hway.1

theorem searched_sorted (files : FileSystem) (root : Path) (extension : String)
    (place : Location) : (files.searched root extension place).Pairwise fun a b => ¬ b < a := by
  unfold searched
  split
  · exact namesBelow_sorted ..
  · exact .nil

-- A path without a name at its end is not one of the skipped names.
theorem isEntered_fileName? (root : Path) :
    isEntered root.fileName?.toList = true ↔
      root.fileName?.getD root.text ∉ skippedDirectories := by
  cases hname : root.fileName? with
  | some name => simp [isEntered]
  | none =>
    have hskipped : ∀ name ∈ skippedDirectories, (Path.mk name).fileName? ≠ none := by
      decide
    refine iff_of_true rfl fun hmem => ?_
    exact hskipped _ hmem hname

theorem search_eq (h : files.IsTree) (hroot : files.resolve root = .ok (place, .directory))
    (hreach : files.InReach root extension) :
    files.search root [extension] =
      .ok ((files.searched root extension place).map (pathBelow root)) := by
  unfold search searched
  rw [hroot]
  by_cases hskipped : root.fileName?.getD root.text ∈ skippedDirectories
  · have hnot : ¬ isEntered root.fileName?.toList = true := fun hentered =>
      (isEntered_fileName? root).mp hentered hskipped
    simp only [if_pos hskipped, if_neg hnot, List.map_nil]
  · have hentered := (isEntered_fileName? root).mpr hskipped
    have hopened : files.unopened? root place = none := by
      refine List.findSome?_eq_none_iff.mpr fun names hnames => ?_
      obtain ⟨_, entry, hlookup, hdirectory⟩ := (mem_namesBelow h).mp hnames
      rw [isEnteredDirectory, Bool.and_eq_true, decide_eq_true_eq] at hdirectory
      obtain ⟨rfl, hway⟩ := hdirectory
      have hshort := hreach.directories place names hroot hlookup (by
        rw [isEntered, List.all_append, Bool.and_eq_true]
        exact ⟨hentered, hway⟩)
      simp only [resolve_pathBelow h hroot hlookup hshort]
    simp only [if_neg hskipped, hopened, if_pos hentered]

-- The name of a file below a place, and its text.
def textAt (files : FileSystem) (place : Location) (names : List String) : String × String :=
  (names.getLast?.getD "",
    match files.lookup? (place ++ names) with
    | some (.file octets) => Text.Utf8.decodeLossy octets
    | _ => "")

theorem readText_found (h : files.IsTree) (hreach : files.InReach root extension)
    (hfound : files.Found root extension place names) :
    files.readText (pathBelow root names) = .ok (files.textAt place names).2 := by
  obtain ⟨octets, hlookup⟩ := hfound.isFile
  have hresolve := resolve_pathBelow h hfound.root_eq hlookup (hreach.found place names hfound)
  have hread : files.read (pathBelow root names) = .ok octets := by
    rw [read, hresolve]
    rfl
  rw [readText, hread, textAt, hlookup]

theorem readText_of_long {path : Path} (horigin : files.origin path = .ok first)
    (hlong : maxPath < path.text.utf8ByteSize) :
    files.readText path = .error (.unreadable path.text Fault.nameTooLong.message) := by
  have hread : files.read path = .error .nameTooLong := by
    simp only [read, resolve, start, horigin, bind, Except.bind, if_pos hlong]
    rfl
  rw [readText, hread]

theorem readTexts_cons_error {path : Path} {paths : List Path} {error : Error}
    (h : files.readText path = .error error) : files.readTexts (path :: paths) = .error error := by
  simp only [readTexts, List.mapM_cons, h]
  rfl

theorem fileName?_found (h : files.IsTree) (hfound : files.Found root extension place names) :
    (pathBelow root names).fileName? = some (files.textAt place names).1 := by
  obtain ⟨octets, hlookup⟩ := hfound.isFile
  have hnames := h.isName hlookup
  obtain ⟨name, hlast, _⟩ := Option.bind_eq_some_iff.mp hfound.extension_eq
  obtain ⟨front, rfl⟩ := List.getLast?_eq_some_iff.mp hlast
  rw [pathBelow_concat, Path.fileName?_join (hnames name (by simp)), textAt, hlast]
  rfl

theorem readTexts_searched (h : files.IsTree)
    (hroot : files.resolve root = .ok (place, .directory))
    (hreach : files.InReach root extension) :
    files.readTexts ((files.searched root extension place).map (pathBelow root)) =
      .ok (NameMap.ofList ((files.searched root extension place).map (files.textAt place)).reverse) := by
  rw [readTexts, List.mapM_map]
  have hread : (files.searched root extension place).mapM ((fun path => do
        let text ← files.readText path
        return path.fileName?.map fun name => (name, text)) ∘ pathBelow root) =
      .ok ((files.searched root extension place).map fun names =>
        some (files.textAt place names)) := by
    refine mapM_eq_ok fun names hnames => ?_
    have hfound := (mem_searched h hroot).mp hnames
    rw [Function.comp, readText_found h hreach hfound, fileName?_found h hfound]
    rfl
  rw [hread]
  have hsome : ((files.searched root extension place).map fun names =>
      some (files.textAt place names)).filterMap id =
        (files.searched root extension place).map (files.textAt place) := by
    rw [List.filterMap_map]
    exact congrFun List.filterMap_eq_map _
  exact congrArg (fun entries => Except.ok (NameMap.ofList entries.reverse)) hsome

-- In a sorted list, the first item with a property is the least one that has it.
theorem least_of_find? {lists : List (List String)} {p : List String → Bool}
    (hsorted : lists.Pairwise fun a b => ¬ b < a) (hfind : lists.find? p = some names) :
    names ∈ lists ∧ p names = true ∧ ∀ others ∈ lists, p others = true → ¬ others < names := by
  obtain ⟨hp, before, after, rfl, hbefore⟩ := List.find?_eq_some_iff_append.mp hfind
  refine ⟨by simp, hp, fun others hothers hpothers => ?_⟩
  rcases List.mem_append.mp hothers with hmem | hmem
  · have hnot := hbefore others hmem
    rw [hpothers] at hnot
    cases hnot
  · rcases List.mem_cons.mp hmem with rfl | hafter
    · exact List.lt_irrefl others
    · exact (List.pairwise_cons.mp (List.pairwise_append.mp hsorted).2.1).1 others hafter

theorem find?_eq_some_iff_least {lists : List (List String)} {p : List String → Bool}
    (hsorted : lists.Pairwise fun a b => ¬ b < a) :
    lists.find? p = some names ↔
      names ∈ lists ∧ p names = true ∧ ∀ others ∈ lists, p others = true → ¬ others < names := by
  refine ⟨least_of_find? hsorted, fun ⟨hmem, hp, hleast⟩ => ?_⟩
  obtain ⟨found, hfound⟩ := Option.isSome_iff_exists.mp (List.find?_isSome.mpr ⟨names, hmem, hp⟩)
  obtain ⟨hmem', hp', hleast'⟩ := least_of_find? hsorted hfound
  have hge := hleast found hmem' hp'
  have hle := hleast' names hmem hp
  have hsame : names = found := List.le_antisymm (List.not_lt.mp hge) (List.not_lt.mp hle)
  rw [hfound, hsame]

theorem find?_searched (h : files.IsTree) (hroot : files.resolve root = .ok (place, .directory)) :
    (files.searched root extension place).find? (fun names => names.getLast? = some name) =
      some names ↔ files.First root extension name place names := by
  rw [find?_eq_some_iff_least (searched_sorted ..)]
  simp only [mem_searched h hroot, decide_eq_true_eq]
  constructor
  · rintro ⟨hfound, hnamed, hleast⟩
    exact ⟨hfound, hnamed, hleast⟩
  · rintro ⟨hfound, hnamed, hleast⟩
    exact ⟨hfound, hnamed, hleast⟩

-- Where the first file of a name lies that a search comes upon.
def FirstAt (files : FileSystem) (root : Path) (extension name : String) (location : Location) :
    Prop :=
  ∃ place names, files.First root extension name place names ∧ location = place ++ names

theorem FirstAt.isFile {location : Location} (h : files.FirstAt root extension name location) :
    ∃ octets, files.lookup? location = some (.file octets) := by
  obtain ⟨place, names, hfirst, rfl⟩ := h
  exact hfirst.found.isFile

theorem FirstAt.extension_eq {location : Location}
    (h : files.FirstAt root extension name location) :
    location.getLast?.bind Path.extension? = some extension := by
  obtain ⟨place, names, hfirst, rfl⟩ := h
  have hextension := hfirst.found.extension_eq
  rw [hfirst.named] at hextension
  rw [List.getLast?_append, hfirst.named]
  exact hextension

theorem exists_firstAt (h : files.IsTree) (hfound : files.Found root extension place names)
    (hnamed : names.getLast? = some name) : ∃ location, files.FirstAt root extension name location := by
  have hmem := (mem_searched h hfound.root_eq).mpr hfound
  cases hfind : (files.searched root extension place).find?
      (fun names => names.getLast? = some name) with
  | none => exact absurd (decide_eq_true hnamed) (List.find?_eq_none.mp hfind names hmem)
  | some first => exact ⟨_, place, first, (find?_searched h hfound.root_eq).mp hfind, rfl⟩

-- Each name has the text of the first file of that name.
def Gathers (files : FileSystem) (root : Path) (extension : String) (texts : NameMap String) :
    Prop :=
  ∀ name text, texts.get? name = some text ↔ ∃ location octets,
    files.FirstAt root extension name location ∧
      files.lookup? location = some (.file octets) ∧ text = Text.Utf8.decodeLossy octets

theorem get?_ofList_searched (h : files.IsTree)
    (hroot : files.resolve root = .ok (place, .directory)) (name : String) :
    (NameMap.ofList ((files.searched root extension place).map (files.textAt place)).reverse).get?
        name =
      ((files.searched root extension place).find? fun names => names.getLast? = some name).map
        fun names => (files.textAt place names).2 := by
  have hnamed : ∀ names ∈ files.searched root extension place,
      ((files.textAt place names).1 = name ↔ names.getLast? = some name) := by
    intro names hnames
    obtain ⟨last, hlast, _⟩ :=
      Option.bind_eq_some_iff.mp ((mem_searched h hroot).mp hnames).extension_eq
    rw [textAt, hlast, Option.getD_some, Option.some_inj]
  have hfind : (files.searched root extension place).find?
        (fun names => (files.textAt place names).1 = name) =
      (files.searched root extension place).find? fun names => names.getLast? = some name :=
    List.find?_congr fun names hnames => decide_eq_decide.mpr (hnamed names hnames)
  rw [NameMap.get?_ofList_reverse, List.find?_map, Option.map_map, ← hfind]
  rfl

theorem gathers_searched (h : files.IsTree)
    (hroot : files.resolve root = .ok (place, .directory)) :
    files.Gathers root extension
      (NameMap.ofList ((files.searched root extension place).map (files.textAt place)).reverse) := by
  intro name text
  rw [get?_ofList_searched h hroot, Option.map_eq_some_iff]
  constructor
  · rintro ⟨names, hfind, rfl⟩
    have hfirst := (find?_searched h hroot).mp hfind
    obtain ⟨octets, hlookup⟩ := hfirst.found.isFile
    exact ⟨_, octets, ⟨place, names, hfirst, rfl⟩, hlookup, by rw [textAt, hlookup]⟩
  · rintro ⟨_, octets, ⟨place', names, hfirst, rfl⟩, hlookup, rfl⟩
    obtain rfl : place' = place := by
      have hsame := hfirst.found.root_eq
      rw [hroot] at hsame
      cases hsame
      rfl
    exact ⟨names, (find?_searched h hroot).mpr hfirst, by rw [textAt, hlookup]⟩

-- The octets that names take in a path, each with a slash.
def width : List String → Nat
  | [] => 0
  | name :: names => name.utf8ByteSize + 1 + width names

theorem width_append (names others : List String) :
    width (names ++ others) = width names + width others := by
  induction names with
  | nil => simp [width]
  | cons name names ih =>
    rw [List.cons_append, width, width, ih]
    omega

theorem size_pathBelow (root : Path) (h : ∀ name ∈ names, Path.IsName name) :
    (pathBelow root names).text.utf8ByteSize ≤ root.text.utf8ByteSize + width names := by
  induction names using List.reverseRecOn with
  | nil => simp [pathBelow, width]
  | append_singleton names name ih =>
    rw [List.forall_mem_append, List.forall_mem_singleton] at h
    have hfront := ih h.1
    have hjoin := Path.size_join_le (pathBelow root names) h.2
    have hwidth : width (names ++ [name]) = width names + (name.utf8ByteSize + 1) := by
      rw [width_append, width, width, Nat.add_zero]
    rw [pathBelow_concat, hwidth]
    omega

-- Nothing is out of reach in a tree of short ways.
theorem inReach_of_width (h : files.IsTree)
    (hwidth : ∀ entry ∈ files.entries, root.text.utf8ByteSize + width entry.1 ≤ maxPath)
    (hroot : root.text.utf8ByteSize ≤ maxPath) : files.InReach root extension := by
  have hbelow : ∀ place names entry, files.lookup? (place ++ names) = some entry →
      (pathBelow root names).text.utf8ByteSize ≤ maxPath := by
    intro place names entry hlookup
    have hsize := size_pathBelow root (h.isName hlookup)
    by_cases hempty : place ++ names = []
    · obtain ⟨_, rfl⟩ := List.append_eq_nil_iff.mp hempty
      exact hroot
    · have hentry := hwidth _ ((mem_entries_iff h.distinct hempty).mpr hlookup)
      simp only [width_append] at hentry
      omega
  refine ⟨fun place names _ hlookup _ => hbelow place names _ hlookup, fun place names hfound => ?_⟩
  obtain ⟨octets, hlookup⟩ := hfound.isFile
  exact hbelow place names _ hlookup

namespace SameShape

variable {other : FileSystem}

-- Which files are found, and which of them go first, does not depend on what is in them.
theorem found (h : files.SameShape other) (hfound : files.Found root extension place names) :
    other.Found root extension place names := by
  obtain ⟨octets, hlookup⟩ := hfound.isFile
  exact ⟨h.resolve_directory hfound.root_eq, h.lookup?_file hlookup, hfound.extension_eq,
    hfound.entered⟩

theorem firstAt (h : files.SameShape other) {location : Location}
    (hfirst : files.FirstAt root extension name location) :
    other.FirstAt root extension name location := by
  obtain ⟨place, names, hfirst, rfl⟩ := hfirst
  refine ⟨place, names, ⟨h.found hfirst.found, hfirst.named, ?_⟩, rfl⟩
  exact fun others hothers => hfirst.least others (h.symm.found hothers)

theorem firstAt_iff (h : files.SameShape other) {location : Location} :
    other.FirstAt root extension name location ↔ files.FirstAt root extension name location :=
  ⟨h.symm.firstAt, h.firstAt⟩

theorem isDirectory (h : files.SameShape other) {path : Path}
    (hdirectory : files.isDirectory path = true) : other.isDirectory path = true := by
  obtain ⟨place, hplace⟩ := isDirectory_iff.mp hdirectory
  exact isDirectory_iff.mpr ⟨place, h.resolve_directory hplace⟩

theorem inReach (h : files.SameShape other) (hreach : files.InReach root extension) :
    other.InReach root extension := by
  refine ⟨fun place names hroot hlookup => ?_, fun place names hfound => ?_⟩
  · exact hreach.directories place names (h.symm.resolve_directory hroot)
      (h.symm.lookup?_directory hlookup)
  · exact hreach.found place names (h.symm.found hfound)

end SameShape

end EventFlow.FileSystem
