import EventFlow.Proofs.System.Reading

namespace EventFlow.System

open Source Listener

variable {system : System} {suffix : String}

theorem mem_listenerFiles_iff {entry : String × ListenerFile} :
    entry ∈ system.listenerFiles ↔ (entry.1, .registers entry.2) ∈ system.sources.entries := by
  simp only [listenerFiles, List.mem_filterMap, Prod.exists]
  constructor
  · rintro ⟨file, content, hmem, hsome⟩
    cases content with
    | defines helpers => cases hsome
    | registers listener =>
      cases hsome
      exact hmem
  · intro hmem
    exact ⟨entry.1, .registers entry.2, hmem, rfl⟩

theorem mem_helpers_iff {helper : Helper} :
    helper ∈ system.helpers ↔ ∃ entry ∈ system.helperFiles, helper ∈ entry.2 := List.mem_flatMap

section Described

variable (h : system.Described) (hu : system.Unmistakable)

include h hu

theorem isCandidate_of_mem_helperFiles {entry : String × List Helper}
    (hentry : entry ∈ system.helperFiles) : Corpus.isCandidate (helpersText entry.2) = false := by
  have hmem : ∀ helper ∈ entry.2, helper ∈ system.helpers :=
    fun helper hin => mem_helpers_iff.mpr ⟨entry, hentry, hin⟩
  exact isCandidate_helpersText (fun helper hin => h.helpers_sound helper (hmem helper hin))
    fun helper hin => hu.helpers helper (hmem helper hin)

theorem quietHeaders : system.corpus.QuietHeaders := by
  intro entry hentry _
  obtain ⟨origin, horigin, rfl⟩ := List.mem_map.mp hentry
  exact isCandidate_of_mem_helperFiles h hu (List.mem_append_right _ horigin)

-- A source that is a candidate is a listener file.
theorem exists_listenerFile {entry : String × String}
    (hentry : entry ∈ system.corpus.sources.entries) (hcandidate : Corpus.isCandidate entry.2) :
    ∃ file, (entry.1, file) ∈ system.listenerFiles ∧ entry.2 = file.text := by
  obtain ⟨⟨name, content⟩, horigin, rfl⟩ := List.mem_map.mp hentry
  cases content with
  | defines helpers =>
    have hfile : (name, helpers) ∈ system.helperFiles :=
      List.mem_append_left _ (List.mem_map_of_mem (f := fun entry => (entry.1, entry.2.helpers))
        horigin)
    cases (isCandidate_of_mem_helperFiles h hu hfile).symm.trans hcandidate
  | registers file => exact ⟨file, mem_listenerFiles_iff.mpr horigin, rfl⟩

theorem registered : system.corpus.Registered := by
  intro entry hentry hcandidate
  obtain ⟨file, hfile, htext⟩ := exists_listenerFile h hu hentry hcandidate
  have hwell := h.wellRegistered hfile
  rw [← htext] at hwell
  exact hwell

omit hu in
theorem definitions_perm {entry : String × List Helper} (hentry : entry ∈ system.helperFiles) :
    ((Callable.definitions (Stream.ofText (helpersText entry.2))).map
      Callable.Definition.unplaced).Perm (entry.2.map Helper.definition) := by
  have hsound : ∀ helper ∈ entry.2, helper.Sound :=
    fun helper hin => h.helpers_sound helper (mem_helpers_iff.mpr ⟨entry, hentry, hin⟩)
  rw [definitions_helpersText hsound]
  refine List.Perm.map _ ?_
  simpa using List.filter_append_perm (fun helper : Helper => helper.kind = .function) entry.2

-- Of the definitions of the corpus, those of helpers are all.
theorem eventDefinitions_perm :
    (system.corpus.eventDefinitions.map fun found => (found.1, found.2.unplaced)).Perm
      (system.helperFiles.flatMap fun entry =>
        entry.2.map fun helper => (entry.1, helper.definition)) := by
  let found (entry : String × String) : List (String × Callable.Definition) :=
    (if Corpus.isCandidate entry.2 then []
      else (Callable.definitions (Stream.ofText entry.2)).map fun definition =>
        (entry.1, definition)).map fun found => (found.1, found.2.unplaced)
  have hfile : ∀ entry ∈ system.helperFiles, (found (entry.1, helpersText entry.2)).Perm
      (entry.2.map fun helper => (entry.1, helper.definition)) := by
    intro entry hentry
    have hperm := (definitions_perm h hentry).map fun definition => (entry.1, definition)
    have hquiet := isCandidate_of_mem_helperFiles h hu hentry
    simp only [found]
    rw [hquiet, if_neg Bool.false_ne_true, List.map_map]
    rw [List.map_map, List.map_map] at hperm
    exact hperm
  have hlistener : ∀ entry ∈ system.listenerFiles, found (entry.1, entry.2.text) = [] := by
    intro entry hentry
    have hcandidate := h.isCandidate_text hentry
    simp only [found]
    rw [if_pos hcandidate, List.map_nil]
  have hdefinitions : system.corpus.eventDefinitions.map (fun found =>
      (found.1, found.2.unplaced)) =
      system.sources.entries.flatMap (fun entry => found (entry.1, entry.2.text)) ++
        system.headers.entries.flatMap (fun entry => found (entry.1, helpersText entry.2)) := by
    rw [Corpus.eventDefinitions, List.map_flatMap, Corpus.files, List.flatMap_append, corpus,
      NameMap.entries_mapValues, NameMap.entries_mapValues, List.flatMap_map, List.flatMap_map]
  rw [hdefinitions, helperFiles, List.flatMap_append, List.flatMap_map]
  refine List.Perm.append (List.Perm.flatMap_left _ fun entry hentry => ?_)
    (List.Perm.flatMap_left _ fun entry hentry => ?_)
  · obtain ⟨name, content⟩ := entry
    cases content with
    | defines helpers =>
      exact hfile (name, helpers) (List.mem_append_left _ (List.mem_map.mpr ⟨_, hentry, rfl⟩))
    | registers file =>
      exact List.Perm.of_eq (hlistener (name, file) (mem_listenerFiles_iff.mpr hentry))
  · exact hfile entry (List.mem_append_right _ hentry)

-- The two kinds of definitions differ in their lines only.
theorem mem_eventDefinitions {name : String} {callable : Callable} :
    (∃ found ∈ system.corpus.eventDefinitions, name = found.2.name ∧
        callable = Corpus.callableOf found) ↔
      ∃ entry ∈ system.helperFiles, ∃ helper ∈ entry.2, name = helper.name ∧
        callable = ⟨helper.name, helper.kind, entry.1, NameSet.ofList helper.events⟩ := by
  have hunplaced : (∃ found ∈ system.corpus.eventDefinitions, name = found.2.name ∧
        callable = Corpus.callableOf found) ↔
      ∃ found ∈ system.corpus.eventDefinitions.map (fun found => (found.1, found.2.unplaced)),
        name = found.2.name ∧ callable = Corpus.callableOf found := by
    simp only [List.mem_map, exists_exists_and_eq_and]
    rfl
  rw [hunplaced]
  simp only [(eventDefinitions_perm h hu).mem_iff, List.mem_flatMap, List.mem_map]
  constructor
  · rintro ⟨found, ⟨entry, hentry, helper, hhelper, rfl⟩, hname, hcallable⟩
    exact ⟨entry, hentry, helper, hhelper, hname, hcallable⟩
  · rintro ⟨entry, hentry, helper, hhelper, hname, hcallable⟩
    exact ⟨_, ⟨entry, hentry, helper, hhelper, rfl⟩, hname, hcallable⟩

theorem unambiguous : system.corpus.Unambiguous := by
  have hnames := (eventDefinitions_perm h hu).map fun found => found.2.name
  have hhelpers : (system.helperFiles.flatMap fun entry =>
      entry.2.map fun helper => (entry.1, helper.definition)).map (fun found => found.2.name) =
        system.helpers.map Helper.name := by
    rw [helpers, List.map_flatMap, List.map_flatMap]
    refine List.flatMap_congr fun entry _ => ?_
    rw [List.map_map]
    rfl
  rw [hhelpers, List.map_map] at hnames
  exact hnames.nodup_iff.mpr h.helpers_distinct

theorem mem_fragments {source : SourceFile} (hsource : source ∈ system.corpus.fragments suffix) :
    ∃ entry ∈ system.listenerFiles, source.file = entry.1 ∧ entry.2.ReadAs system source := by
  obtain ⟨text, hget, hok⟩ := Corpus.mem_fragments_iff.mp hsource
  obtain ⟨text', hget', hcandidate⟩ := Corpus.candidate_of_mem_fragments hsource
  obtain rfl := Option.some.inj (hget.symm.trans hget')
  obtain ⟨file, hfile, htext⟩ := exists_listenerFile h hu (NameMap.mem_entries_iff.mpr hget) hcandidate
  obtain ⟨source', hread, hreadAs, _⟩ := h.exists_source hu hfile suffix
  rw [← htext, hok] at hread
  obtain rfl := Option.some.inj (Except.ok.inj hread)
  exact ⟨_, hfile, rfl, hreadAs⟩

theorem exists_fragment {entry : String × ListenerFile} (hentry : entry ∈ system.listenerFiles) :
    ∃ source ∈ system.corpus.fragments suffix, source.file = entry.1 ∧
      entry.2.ReadAs system source := by
  obtain ⟨source, hread, hreadAs, hfile⟩ := h.exists_source hu hentry suffix
  have hget : system.corpus.sources.get? entry.1 = some entry.2.text := by
    refine NameMap.mem_entries_iff.mp ?_
    exact List.mem_map_of_mem (f := fun entry => (entry.1, entry.2.text))
      (mem_listenerFiles_iff.mp hentry)
  exact ⟨source, Corpus.mem_fragments_iff.mpr ⟨_, hfile ▸ hget, hfile ▸ hread⟩, hfile, hreadAs⟩

theorem exists_fragmentsOf_iff {name : String} {p : SourceFile → Prop}
    {q : String × ListenerFile → Prop}
    (hpq : ∀ entry ∈ system.listenerFiles, ∀ source, entry.2.ReadAs system source →
      source.file = entry.1 → (p source ↔ q entry)) :
    (∃ source ∈ system.corpus.fragmentsOf suffix name, p source) ↔
      ∃ entry ∈ system.listenerFiles, entry.2.name = name ∧ q entry := by
  constructor
  · rintro ⟨source, hsource, hp⟩
    obtain ⟨hin, hname⟩ := Corpus.mem_fragmentsOf_iff.mp hsource
    obtain ⟨entry, hentry, hfile, hread⟩ := mem_fragments h hu hin
    exact ⟨entry, hentry, hread.name_eq.symm.trans hname, (hpq entry hentry source hread hfile).mp hp⟩
  · rintro ⟨entry, hentry, hname, hq⟩
    obtain ⟨source, hsource, hfile, hread⟩ := @exists_fragment system suffix h hu entry hentry
    exact ⟨source, Corpus.mem_fragmentsOf_iff.mpr ⟨hsource, hread.name_eq.trans hname⟩,
      (hpq entry hentry source hread hfile).mpr hq⟩

end Described

end EventFlow.System
