import EventFlow.Corpus.Gather
import EventFlow.Proofs.FileSystem.Search

namespace EventFlow

open FileSystem

namespace NameMap

variable {α : Type} {left right : NameMap α}

@[simp] theorem get?_filter (keep : String → Bool) (map : NameMap α) (name : String) :
    (map.filter fun other _ => keep other).get? name =
      if keep name then map.get? name else none := by
  refine Option.ext fun value => ?_
  rw [← mem_entries_iff, filter, List.mem_filter, mem_entries_iff]
  split
  · rename_i hkeep
    exact and_iff_left hkeep
  · rename_i hdrop
    exact iff_of_false (fun h => hdrop h.2) (by simp)

theorem get?_foldl_insert_of_nodup {entries : List (String × α)}
    (h : (entries.map Prod.fst).Nodup) (map : NameMap α) (name : String) :
    (entries.foldl (fun map entry => map.insert entry.1 entry.2) map).get? name =
      ((entries.find? fun entry => entry.1 = name).map Prod.snd).or (map.get? name) := by
  induction entries generalizing map with
  | nil => rfl
  | cons head tail ih =>
    rw [List.map_cons, List.nodup_cons] at h
    rw [List.foldl_cons]
    by_cases hname : head.1 = name
    · rw [get?_foldl_insert (hname ▸ h.1), get?_insert, if_pos hname.symm,
        List.find?_cons_of_pos (by simpa using hname)]
      rfl
    · rw [ih h.2, get?_insert, if_neg (Ne.symm hname),
        List.find?_cons_of_neg (by simpa using hname)]

-- Of two maps laid over one another, the upper one goes first.
@[simp] theorem get?_overlay (map upper : NameMap α) (name : String) :
    (map.overlay upper).get? name = (upper.get? name).or (map.get? name) :=
  get?_foldl_insert_of_nodup upper.keys_nodup map name

theorem size_eq_of_keys (h : ∀ name, name ∈ left.keys ↔ name ∈ right.keys) :
    left.size = right.size := by
  have hnames : left.nameSet = right.nameSet := NameSet.ext h
  have hkeys : left.keys = right.keys := congrArg NameSet.toList hnames
  rw [size, size, ← List.length_map (f := Prod.fst), ← List.length_map (f := Prod.fst)]
  exact congrArg List.length hkeys

end NameMap

namespace Corpus

-- The two halves of a corpus.
inductive Part where
  | sources
  | headers
  deriving DecidableEq

def Part.extension : Part → String
  | sources => sourceExtension
  | headers => headerExtension

def Part.texts (part : Part) (corpus : Corpus) : NameMap String :=
  match part with
  | sources => corpus.sources
  | headers => corpus.headers

@[simp] theorem Part.texts_overlay (part : Part) (lower upper : Corpus) :
    part.texts (lower.overlay upper) = (part.texts lower).overlay (part.texts upper) := by
  cases part <;> rfl

variable {files other : FileSystem} {corpus lower upper : Corpus}
  {chosen above : Part → String → Location → Prop}

-- The corpus has the texts of files that are chosen, each for a half and a name.
def Holds (corpus : Corpus) (files : FileSystem) (chosen : Part → String → Location → Prop) :
    Prop :=
  ∀ part name text, (part.texts corpus).get? name = some text ↔
    ∃ location octets, chosen part name location ∧
      files.lookup? location = some (.file octets) ∧ text = Text.Utf8.decodeLossy octets

def AreFiles (files : FileSystem) (chosen : Part → String → Location → Prop) : Prop :=
  ∀ part name location, chosen part name location →
    ∃ octets, files.lookup? location = some (.file octets)

namespace Holds

theorem mem_keys_iff (h : corpus.Holds files chosen) (hfiles : AreFiles files chosen)
    (part : Part) (name : String) :
    name ∈ (part.texts corpus).keys ↔ ∃ location, chosen part name location := by
  rw [NameMap.mem_keys_iff]
  constructor
  · rintro ⟨text, htext⟩
    obtain ⟨location, _, hchosen, _⟩ := (h part name text).mp htext
    exact ⟨location, hchosen⟩
  · rintro ⟨location, hchosen⟩
    obtain ⟨octets, hlookup⟩ := hfiles part name location hchosen
    exact ⟨_, (h part name _).mpr ⟨location, octets, hchosen, hlookup, rfl⟩⟩

-- The upper corpus goes first, name by name.
theorem overlay (hlower : lower.Holds files chosen) (hupper : upper.Holds files above)
    (hfiles : AreFiles files above) :
    (lower.overlay upper).Holds files fun part name location =>
      above part name location ∨
        (∀ location, ¬ above part name location) ∧ chosen part name location := by
  intro part name text
  have hnone : (part.texts upper).get? name = none ↔ ∀ location, ¬ above part name location := by
    rw [← not_exists, ← hupper.mem_keys_iff hfiles, NameMap.mem_keys_iff, not_exists,
      Option.eq_none_iff_forall_ne_some]
  rw [Part.texts_overlay, NameMap.get?_overlay, Option.or_eq_some_iff]
  constructor
  · rintro (htop | ⟨hmissing, hlow⟩)
    · obtain ⟨location, octets, habove, hrest⟩ := (hupper part name text).mp htop
      exact ⟨location, octets, .inl habove, hrest⟩
    · obtain ⟨location, octets, hchosen, hrest⟩ := (hlower part name text).mp hlow
      exact ⟨location, octets, .inr ⟨hnone.mp hmissing, hchosen⟩, hrest⟩
  · rintro ⟨location, octets, habove | ⟨hmissing, hchosen⟩, hrest⟩
    · exact .inl ((hupper part name text).mpr ⟨location, octets, habove, hrest⟩)
    · exact .inr ⟨hnone.mpr hmissing,
        (hlower part name text).mpr ⟨location, octets, hchosen, hrest⟩⟩

theorem size_eq (h : corpus.Holds files chosen) (h' : upper.Holds other chosen)
    (hfiles : AreFiles files chosen) (hfiles' : AreFiles other chosen) :
    upper.size = corpus.size := by
  have hkeys : ∀ part : Part, (part.texts upper).size = (part.texts corpus).size := by
    intro part
    refine NameMap.size_eq_of_keys fun name => ?_
    rw [h.mem_keys_iff hfiles, h'.mem_keys_iff hfiles']
  exact congrArg₂ (· + ·) (hkeys .sources) (hkeys .headers)

-- Files with the same octets give the same corpus.
theorem eq_of_lookup? (h : corpus.Holds files chosen) (h' : upper.Holds other chosen)
    (hsame : ∀ part name location, chosen part name location →
      other.lookup? location = files.lookup? location) : upper = corpus := by
  have hparts : ∀ part : Part, part.texts upper = part.texts corpus := by
    intro part
    refine NameMap.ext fun name => Option.ext fun text => ?_
    rw [h part name text, h' part name text]
    refine exists_congr fun location => exists_congr fun octets => and_congr_right fun hchosen => ?_
    rw [hsame part name location hchosen]
  cases upper
  cases corpus
  exact congrArg₂ Corpus.mk (hparts .sources) (hparts .headers)

end Holds

variable {directory : Path} {framework : Framework} {selected : List String}

theorem exists_textsBelow {extension : String} (h : files.IsTree)
    (hdirectory : files.isDirectory directory = true)
    (hreach : files.InReach directory extension) :
    ∃ texts, textsBelow files directory extension = .ok texts ∧
      files.Gathers directory extension texts := by
  obtain ⟨place, hplace⟩ := isDirectory_iff.mp hdirectory
  refine ⟨_, ?_, gathers_searched h hplace⟩
  rw [textsBelow, search_eq h hplace hreach]
  exact readTexts_searched h hplace hreach

-- An application is gathered from its directory.
theorem exists_ofApplication (h : files.IsTree) (hdirectory : files.isDirectory directory = true)
    (hreach : ∀ part : Part, files.InReach directory part.extension) :
    ∃ corpus, ofApplication files directory = .ok corpus ∧
      corpus.Holds files fun part name location =>
        files.FirstAt directory part.extension name location := by
  obtain ⟨sources, hsources, hgathered⟩ := exists_textsBelow h hdirectory (hreach .sources)
  obtain ⟨headers, hheaders, hgathered'⟩ := exists_textsBelow h hdirectory (hreach .headers)
  refine ⟨⟨sources, headers⟩, ?_, fun part => ?_⟩
  · simp only [Part.extension] at hsources hheaders
    rw [ofApplication, requireDirectory, if_pos hdirectory, hsources, hheaders]
    rfl
  · cases part with
    | sources => exact hgathered
    | headers => exact hgathered'

-- Where the files of a framework lie, and which of them go into a corpus.
def Part.directoryOf (part : Part) (framework : Framework) : Path :=
  match part with
  | sources => framework.sourceDirectory
  | headers => framework.headerDirectory

def Part.Admits (part : Part) (selected : List String) (name : String) : Prop :=
  match part with
  | sources => "event".toList <:+: name.toList ∨ name ∈ selected
  | headers => True

theorem occurs_iff (word text : List Char) : Framework.occurs word text = true ↔ word <:+: text := by
  induction text with
  | nil => simp [Framework.occurs]
  | cons c rest ih => simp [Framework.occurs, ih, List.infix_cons_iff]

theorem select_eq {sources : NameMap String} (h : ∀ name ∈ selected, name ∈ sources.keys) :
    Framework.select sources selected = .ok (sources.filter fun name _ =>
      Framework.definesEvents name || decide (name ∈ selected)) := by
  have hfound : selected.find? (fun name => !sources.contains name) = none := by
    refine List.find?_eq_none.mpr fun name hname => ?_
    rw [Bool.not_eq_true', Bool.not_eq_false]
    exact NameMap.contains_iff.mpr (h name hname)
  rw [Framework.select, hfound]

-- The sources of a framework are sifted.
theorem get?_sifted_iff {sources : NameMap String} {name text : String} :
    (sources.filter fun name _ =>
        Framework.definesEvents name || decide (name ∈ selected)).get? name = some text ↔
      Part.sources.Admits selected name ∧ sources.get? name = some text := by
  have hadmits : (Framework.definesEvents name || decide (name ∈ selected)) = true ↔
      Part.sources.Admits selected name := by
    rw [Bool.or_eq_true, decide_eq_true_eq, Framework.definesEvents, occurs_iff]
    rfl
  rw [NameMap.get?_filter, ← hadmits]
  split
  · rename_i hkept
    exact (and_iff_right hkept).symm
  · rename_i hdropped
    exact iff_of_false (Option.some_ne_none text ∘ Eq.symm) fun hkept => hdropped hkept.1

theorem mem_keys_of_found {extension name : String} {texts : NameMap String} {place : Location}
    {names : List String} (h : files.IsTree) (hgathered : files.Gathers directory extension texts)
    (hfound : files.Found directory extension place names) (hname : names.getLast? = some name) :
    name ∈ texts.keys := by
  obtain ⟨location, hfirst⟩ := exists_firstAt h hfound hname
  obtain ⟨octets, hlookup⟩ := hfirst.isFile
  exact NameMap.mem_keys_iff.mpr ⟨_, (hgathered name _).mpr ⟨location, octets, hfirst, hlookup, rfl⟩⟩

-- A framework is gathered from its two directories.
theorem exists_ofFramework (h : files.IsTree)
    (hdirectory : ∀ part : Part, files.isDirectory (part.directoryOf framework) = true)
    (hreach : ∀ part : Part, files.InReach (part.directoryOf framework) part.extension)
    (hselected : ∀ name ∈ selected, ∃ place names,
      files.Found framework.sourceDirectory sourceExtension place names ∧
        names.getLast? = some name) :
    ∃ corpus, ofFramework files framework selected = .ok corpus ∧
      corpus.Holds files fun part name location => part.Admits selected name ∧
        files.FirstAt (part.directoryOf framework) part.extension name location := by
  obtain ⟨sources, hsources, hgathered⟩ :=
    exists_textsBelow h (hdirectory .sources) (hreach .sources)
  obtain ⟨headers, hheaders, hgathered'⟩ :=
    exists_textsBelow h (hdirectory .headers) (hreach .headers)
  have hkeys : ∀ name ∈ selected, name ∈ sources.keys := by
    intro name hname
    obtain ⟨place, names, hfound, hnamed⟩ := hselected name hname
    exact mem_keys_of_found h hgathered hfound hnamed
  refine ⟨⟨sources.filter fun name _ => Framework.definesEvents name || decide (name ∈ selected),
    headers⟩, ?_, fun part name text => ?_⟩
  · have hsourceDirectory : requireDirectory files framework.sourceDirectory = .ok () :=
      if_pos (hdirectory .sources)
    have hheaderDirectory : requireDirectory files framework.headerDirectory = .ok () :=
      if_pos (hdirectory .headers)
    simp only [Part.extension, Part.directoryOf] at hsources hheaders
    rw [ofFramework, hsourceDirectory, hheaderDirectory, hsources, hheaders]
    simp only [bind, Except.bind, select_eq hkeys]
    rfl
  · cases part with
    | sources =>
      rw [Part.texts, get?_sifted_iff, hgathered name text]
      simp only [and_assoc, exists_and_left]
    | headers =>
      simp only [Part.Admits, true_and]
      exact hgathered' name text

end Corpus

end EventFlow
