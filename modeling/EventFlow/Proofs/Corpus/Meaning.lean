import EventFlow.Proofs.Corpus.Outcome
import EventFlow.Proofs.Listener.Pool

namespace EventFlow.Corpus

open Source Listener

variable {corpus : Corpus} {project suffix : String}

-- What the sources say about the listener of a name, in the order of their names.
def fragmentsOf (corpus : Corpus) (suffix name : String) : List SourceFile :=
  (corpus.fragments suffix).filter (fun source => source.name = name)

theorem mem_fragmentsOf_iff {name : String} {source : SourceFile} :
    source ∈ corpus.fragmentsOf suffix name ↔
      source ∈ corpus.fragments suffix ∧ source.name = name := by
  simp [fragmentsOf]

theorem mem_fragments_iff {source : SourceFile} :
    source ∈ corpus.fragments suffix ↔ ∃ text, corpus.sources.get? source.file = some text ∧
      SourceFile.ofStream? suffix source.file (Stream.ofText text) = .ok (some source) := by
  simp only [fragments, List.mem_filterMap, Prod.exists, NameMap.mem_entries_iff]
  constructor
  · rintro ⟨file, text, hget, hread⟩
    unfold readEntry at hread
    split at hread
    · rename_i found hok
      subst hread
      obtain rfl := SourceFile.file_of_ofStream? hok
      exact ⟨text, hget, hok⟩
    · cases hread
  · rintro ⟨text, hget, hok⟩
    exact ⟨source.file, text, hget, by simp [readEntry, hok]⟩

-- A source says something about a listener only if it mentions the registration macro.
theorem candidate_of_mem_fragments {source : SourceFile}
    (h : source ∈ corpus.fragments suffix) :
    ∃ text, corpus.sources.get? source.file = some text ∧ isCandidate text := by
  obtain ⟨text, hget, hok⟩ := mem_fragments_iff.mp h
  refine ⟨text, hget, ?_⟩
  by_contra hnot
  rw [SourceFile.ofStream?_of_not_candidate (by simpa [isCandidate] using hnot)] at hok
  cases hok

theorem exists_fragment (h : corpus.Registered) {file text : String}
    (hget : corpus.sources.get? file = some text) (hcandidate : isCandidate text) :
    ∃ source ∈ corpus.fragments suffix, source.file = file := by
  have hentry : (file, text) ∈ corpus.sources.entries := NameMap.mem_entries_iff.mpr hget
  obtain ⟨source, hok⟩ := @SourceFile.ofStream?_eq_ok suffix file (Stream.ofText text) hcandidate
    (h (file, text) hentry hcandidate)
  have hfile : source.file = file := SourceFile.file_of_ofStream? hok
  subst hfile
  exact ⟨source, mem_fragments_iff.mpr ⟨text, hget, hok⟩, rfl⟩

theorem candidate_iff_exists_fragment (h : corpus.Registered) {file text : String}
    (hget : corpus.sources.get? file = some text) :
    isCandidate text ↔ ∃ source ∈ corpus.fragments suffix, source.file = file := by
  constructor
  · exact exists_fragment h hget
  · rintro ⟨source, hsource, rfl⟩
    obtain ⟨text', hget', hcandidate⟩ := candidate_of_mem_fragments hsource
    obtain rfl := Option.some.inj (hget.symm.trans hget')
    exact hcandidate

theorem fragment_unique {first second : SourceFile} (hfirst : first ∈ corpus.fragments suffix)
    (hsecond : second ∈ corpus.fragments suffix) (h : first.file = second.file) :
    first = second := by
  obtain ⟨text, hget, hok⟩ := mem_fragments_iff.mp hfirst
  obtain ⟨text', hget', hok'⟩ := mem_fragments_iff.mp hsecond
  rw [h] at hget hok
  obtain rfl := Option.some.inj (hget.symm.trans hget')
  exact Option.some.inj (Except.ok.inj (hok.symm.trans hok'))

-- The records of the listeners, put together from those of all files.
def listenersOf (corpus : Corpus) (suffix : String) (callables : List Callable) :
    NameMap Listener :=
  ((corpus.fragments suffix).map fun source => source.listener callables).foldl addListener ∅

theorem filter_listeners {callables : List Callable} {name : String} :
    ((corpus.fragments suffix).map fun source => source.listener callables).filter
      (fun part => part.name = name) =
      (corpus.fragmentsOf suffix name).map fun source => source.listener callables :=
  List.filter_map

theorem fragmentsOf_eq_nil {callables : List Callable} {name : String}
    (h : (corpus.listenersOf suffix callables).get? name = none) :
    corpus.fragmentsOf suffix name = [] := by
  have hcollects := collects_foldl
    ((corpus.fragments suffix).map fun source => source.listener callables) name
  rw [listenersOf] at h
  rw [h] at hcollects
  refine List.filter_eq_nil_iff.mpr fun source hsource hname => ?_
  exact hcollects _ (List.mem_map_of_mem hsource) (of_decide_eq_true hname)

-- The record of a listener is the union of what its files show.
theorem isUnion_of_get? {callables : List Callable} {name : String} {listener : Listener}
    (h : (corpus.listenersOf suffix callables).get? name = some listener) :
    listener.name = name ∧ corpus.fragmentsOf suffix name ≠ [] ∧
      IsUnion ((corpus.fragmentsOf suffix name).map fun source => source.listener callables)
        listener := by
  have hcollects := collects_foldl
    ((corpus.fragments suffix).map fun source => source.listener callables) name
  rw [listenersOf] at h
  rw [h] at hcollects
  obtain ⟨hname, ⟨part, hpart, hsame⟩, hunion⟩ := hcollects
  obtain ⟨source, hsource, rfl⟩ := List.mem_map.mp hpart
  refine ⟨hname, ?_, filter_listeners ▸ hunion⟩
  exact List.ne_nil_of_mem (mem_fragmentsOf_iff.mpr ⟨hsource, hsame⟩)

-- The record of a listener says what its files say.
structure Gathers (corpus : Corpus) (suffix : String) (callables : List Callable)
    (name : String) (listener : Listener) : Prop where
  name_eq : listener.name = name
  mem_files_iff : ∀ file, file ∈ listener.files ↔
    ∃ source ∈ corpus.fragmentsOf suffix name, source.file = file
  inEvents_eq : ∀ tier, ∃ events, listener.inEvents.get tier = some events ∧
    ∀ event, event ∈ events ↔
      ∃ source ∈ corpus.fragmentsOf suffix name, event ∈ source.inEvents.get tier
  mem_definitionFiles_iff : ∀ file, file ∈ listener.definitionFiles ↔
    ∃ source ∈ corpus.fragmentsOf suffix name, file ∈ source.definitionFiles
  -- the events created in the files, and those of the callables invoked there
  mem_outEvents_iff : ∀ event, event ∈ listener.outEvents ↔
    ∃ source ∈ corpus.fragmentsOf suffix name, event ∈ source.created ∨
      ∃ callable ∈ callables, (if callable.kind = .objectMacro then
        callable.name ∈ source.mentions else callable.name ∈ source.calls) ∧
        event ∈ callable.emits
  -- in whatever order and nesting the records of the files are merged
  merged_eq : ∀ grouping : Grouping, grouping.parts.Perm
    ((corpus.fragmentsOf suffix name).map fun source => source.listener callables) →
    grouping.merged = listener
  -- and also if the invocations are followed only after the files are taken together
  pool_eq : (Pool.ofFiles (corpus.fragmentsOf suffix name)).listener name callables = listener

theorem gathers_of_isUnion {callables : List Callable} {name : String} {listener : Listener}
    (hname : listener.name = name) (hne : corpus.fragmentsOf suffix name ≠ [])
    (h : IsUnion ((corpus.fragmentsOf suffix name).map fun source => source.listener callables)
      listener) : Gathers corpus suffix callables name listener where
  name_eq := hname
  mem_files_iff file := by
    simp only [h.mem_files_iff, List.mem_map, exists_exists_and_eq_and,
      SourceFile.mem_files_listener]
  inEvents_eq tier := by
    obtain ⟨source, hsource⟩ := List.exists_mem_of_ne_nil _ hne
    obtain ⟨events, hevents⟩ := (h.hasTier_iff tier).mpr
      ⟨_, List.mem_map_of_mem hsource, SourceFile.hasTier_listener⟩
    refine ⟨events, hevents, fun event => ?_⟩
    have hdeclares : listener.Declares tier event ↔ event ∈ events := by
      simp [Declares, hevents]
    rw [← hdeclares, h.declares_iff]
    simp only [List.mem_map, exists_exists_and_eq_and, SourceFile.declares_listener]
  mem_definitionFiles_iff file := by
    simp only [h.mem_definitionFiles_iff, List.mem_map, exists_exists_and_eq_and]
    rfl
  mem_outEvents_iff event := by
    simp only [h.mem_outEvents_iff, List.mem_map, exists_exists_and_eq_and,
      SourceFile.mem_outEvents_listener, SourceFile.Creates, SourceFile.invokes_iff]
  merged_eq grouping hperm := by
    have hnames : ∀ part ∈ grouping.parts, part.name = name := by
      intro part hpart
      rw [h.name_eq part (hperm.mem_iff.mp hpart), hname]
    have hmerged := (grouping.isUnion_merged hnames).congr fun part => hperm.mem_iff
    exact hmerged.unique h (by simpa using hne)
  pool_eq := by
    have hnames : ∀ source ∈ corpus.fragmentsOf suffix name, source.name = name :=
      fun source hsource => (mem_fragmentsOf_iff.mp hsource).2
    exact (Pool.isUnion_listener callables hnames hne).unique h (by simpa using hne)

-- What the model of a corpus says, told from the files alone.
structure Meaning (corpus : Corpus) (suffix : String) (model : Model) : Prop where
  -- the callables are the definitions that create events, in files that are no listeners
  callable_iff : ∀ name callable, model.callables.get? name = some callable ↔
    ∃ file text, (file, text) ∈ corpus.files ∧ isCandidate text = false ∧
      ∃ definition ∈ Callable.definitions (Stream.ofText text), name = definition.name ∧
        callable = ⟨definition.name, definition.kind, file, definition.emits⟩
  -- which these are, and which events they create, is told by the identifiers in the files
  found_in : ∀ file text, (file, text) ∈ corpus.files →
    Callable.FoundIn (Stream.ofText text) (Callable.definitions (Stream.ofText text))
  -- every source with the registration macro is read, and nothing else is
  fragment_iff : ∀ source, source ∈ corpus.fragments suffix ↔
    ∃ text, corpus.sources.get? source.file = some text ∧
      SourceFile.ofStream? suffix source.file (Stream.ofText text) = .ok (some source)
  read_from : ∀ source ∈ corpus.fragments suffix, ∃ text,
    corpus.sources.get? source.file = some text ∧ source.ReadFrom (Stream.ofText text)
  candidate_iff : ∀ file text, corpus.sources.get? file = some text →
    (isCandidate text ↔ ∃ source ∈ corpus.fragments suffix, source.file = file)
  listener_iff : ∀ name, (∃ listener, model.listeners.get? name = some listener) ↔
    ∃ source ∈ corpus.fragments suffix, source.name = name
  gathers : ∀ name listener, model.listeners.get? name = some listener →
    Gathers corpus suffix model.callables.values name listener
  -- every such source belongs to one listener, and none defines callables
  one_listener : ∀ file text, corpus.sources.get? file = some text → isCandidate text →
    ∃! name, ∃ listener, model.listeners.get? name = some listener ∧ file ∈ listener.files
  listener_files : ∀ name listener file, model.listeners.get? name = some listener →
    file ∈ listener.files → ∃ text, corpus.sources.get? file = some text ∧ isCandidate text
  apart : ∀ name listener other callable, model.listeners.get? name = some listener →
    model.callables.get? other = some callable → callable.file ∉ listener.files

theorem mem_eventDefinitions_iff {found : String × Callable.Definition} :
    found ∈ corpus.eventDefinitions ↔ ∃ text, (found.1, text) ∈ corpus.files ∧
      isCandidate text = false ∧ found.2 ∈ Callable.definitions (Stream.ofText text) := by
  simp only [eventDefinitions, List.mem_flatMap, Prod.exists]
  constructor
  · rintro ⟨file, text, hfile, hfound⟩
    split at hfound
    · cases hfound
    · rename_i hquiet
      obtain ⟨definition, hdefinition, rfl⟩ := List.mem_map.mp hfound
      exact ⟨text, hfile, by simpa using hquiet, hdefinition⟩
  · rintro ⟨text, hfile, hquiet, hdefinition⟩
    refine ⟨found.1, text, hfile, ?_⟩
    rw [if_neg (by simpa using hquiet)]
    exact List.mem_map.mpr ⟨found.2, hdefinition, rfl⟩

-- No callable comes from a source that mentions the registration macro, nor from a header that
-- shares the name of one.
theorem isCandidate_of_mem_eventDefinitions (hdisjoint : corpus.Disjoint)
    {found : String × Callable.Definition} (hfound : found ∈ corpus.eventDefinitions)
    {text : String} (hget : corpus.sources.get? found.1 = some text) :
    isCandidate text = false := by
  obtain ⟨text', hfile, hquiet, _⟩ := mem_eventDefinitions_iff.mp hfound
  rcases List.mem_append.mp hfile with hsource | hheader
  · have hget' := NameMap.mem_entries_iff.mp hsource
    obtain rfl := Option.some.inj (hget.symm.trans hget')
    exact hquiet
  · have hkey : found.1 ∈ corpus.sources.keys := NameMap.mem_keys_iff.mpr ⟨text, hget⟩
    exact absurd hkey (hdisjoint found.1 (List.mem_map_of_mem hheader))

theorem listenersOf_eq_some_iff {callables : List Callable} {name : String} :
    (∃ listener, (corpus.listenersOf suffix callables).get? name = some listener) ↔
      ∃ source ∈ corpus.fragments suffix, source.name = name := by
  constructor
  · rintro ⟨listener, hget⟩
    obtain ⟨source, hsource⟩ := List.exists_mem_of_ne_nil _ (isUnion_of_get? hget).2.1
    exact ⟨source, mem_fragmentsOf_iff.mp hsource⟩
  · rintro ⟨source, hsource, hname⟩
    by_contra hnone
    have hnil := fragmentsOf_eq_nil
      (Option.eq_none_iff_forall_ne_some.mpr fun listener hget => hnone ⟨listener, hget⟩)
    exact List.ne_nil_of_mem (mem_fragmentsOf_iff.mpr ⟨hsource, hname⟩) hnil

theorem gathers_of_get? {callables : List Callable} {name : String} {listener : Listener}
    (h : (corpus.listenersOf suffix callables).get? name = some listener) :
    Gathers corpus suffix callables name listener := by
  obtain ⟨hname, hne, hunion⟩ := isUnion_of_get? h
  exact gathers_of_isUnion hname hne hunion

theorem existsUnique_listener {callables : List Callable} {source : SourceFile}
    (h : source ∈ corpus.fragments suffix) :
    ∃! name, ∃ listener, (corpus.listenersOf suffix callables).get? name = some listener ∧
      source.file ∈ listener.files := by
  obtain ⟨listener, hget⟩ :=
    (@listenersOf_eq_some_iff corpus suffix callables source.name).mpr ⟨source, h, rfl⟩
  refine ⟨source.name, ⟨listener, hget, ?_⟩, ?_⟩
  · exact ((gathers_of_get? hget).mem_files_iff source.file).mpr
      ⟨source, mem_fragmentsOf_iff.mpr ⟨h, rfl⟩, rfl⟩
  · rintro name ⟨other, hother, hfile⟩
    obtain ⟨source', hsource', hsame⟩ := ((gathers_of_get? hother).mem_files_iff _).mp hfile
    obtain ⟨hin, hname⟩ := mem_fragmentsOf_iff.mp hsource'
    rw [← hname, fragment_unique hin h hsame]

-- The listeners are made from listener files only, and all of those count.
theorem model_meaning (hdisjoint : corpus.Disjoint) {model : Model}
    (hmodel : corpus.model project suffix = .ok model) : Meaning corpus suffix model := by
  obtain ⟨hunambiguous, hregistered⟩ :=
    (model_eq_ok_iff project suffix hdisjoint).mp ⟨model, hmodel⟩
  obtain ⟨table, htable, hok⟩ :=
    @exists_model corpus project suffix hdisjoint.quietHeaders hunambiguous hregistered
  obtain rfl := Except.ok.inj (hmodel.symm.trans hok)
  exact
    { callable_iff := fun name callable => by
        rw [htable]
        constructor
        · rintro ⟨found, hfound, rfl, rfl⟩
          obtain ⟨text, hfile, hquiet, hdefinition⟩ := mem_eventDefinitions_iff.mp hfound
          exact ⟨found.1, text, hfile, hquiet, found.2, hdefinition, rfl, rfl⟩
        · rintro ⟨file, text, hfile, hquiet, definition, hdefinition, rfl, rfl⟩
          exact ⟨(file, definition),
            mem_eventDefinitions_iff.mpr ⟨text, hfile, hquiet, hdefinition⟩, rfl, rfl⟩
      found_in := fun _ text _ => Callable.definitions_foundIn (Stream.ofText text)
      fragment_iff := fun source => mem_fragments_iff
      read_from := fun source hsource => by
        obtain ⟨text, hget, hok⟩ := mem_fragments_iff.mp hsource
        exact ⟨text, hget, (SourceFile.readFrom_of_ofStream? hok).2⟩
      candidate_iff := fun file text hget => candidate_iff_exists_fragment hregistered hget
      listener_iff := fun name => listenersOf_eq_some_iff
      gathers := fun name listener hget => gathers_of_get? hget
      one_listener := fun file text hget hcandidate => by
        obtain ⟨source, hsource, rfl⟩ := exists_fragment hregistered hget hcandidate
        exact existsUnique_listener hsource
      listener_files := fun name listener file hget hfile => by
        obtain ⟨source, hsource, rfl⟩ := ((gathers_of_get? hget).mem_files_iff file).mp hfile
        exact candidate_of_mem_fragments (mem_fragmentsOf_iff.mp hsource).1
      apart := fun name listener other callable hget hcallable hfile => by
        obtain ⟨found, hfound, rfl, rfl⟩ := (htable other callable).mp hcallable
        obtain ⟨source, hsource, hsame⟩ := ((gathers_of_get? hget).mem_files_iff _).mp hfile
        obtain ⟨text, hget', hcandidate⟩ :=
          candidate_of_mem_fragments (mem_fragmentsOf_iff.mp hsource).1
        rw [hsame] at hget'
        have hquiet := isCandidate_of_mem_eventDefinitions hdisjoint hfound hget'
        exact Bool.false_ne_true (hquiet.symm.trans hcandidate) }

-- Two files register one listener, the second by another name for it.
def shared : Corpus :=
  ⟨NameMap.ofList
    [("m1.c", "EVENT_LISTENER(m, h);\nvoid f(void) { send(); }\n"),
     ("m2.c", "#define MODULE m\nEVENT_LISTENER(MODULE, h);\nEVENT_SUBSCRIBE(MODULE, e);\n"),
     ("util.c", "void send(void) { new_x_event(); }\n")],
   NameMap.ofList [("util.h", "#define SEND_Y new_y_event()\n")]⟩

theorem model_meaning_shared :
    shared.Disjoint ∧ ∃ model listener, shared.model "p" "_def.h" = .ok model ∧
      Meaning shared "_def.h" model ∧ model.listeners.get? "m" = some listener ∧
      "m1.c" ∈ listener.files ∧ "m2.c" ∈ listener.files := by
  have hdisjoint : shared.Disjoint := by decide +kernel
  obtain ⟨model, hok⟩ := (model_eq_ok_iff "p" "_def.h" hdisjoint).mpr
    ⟨by decide +kernel, by decide +kernel⟩
  have hmeaning := model_meaning hdisjoint hok
  obtain ⟨listener, hget⟩ := (hmeaning.listener_iff "m").mpr (by decide +kernel)
  have hfiles := (hmeaning.gathers "m" listener hget).mem_files_iff
  exact ⟨hdisjoint, model, listener, hok, hmeaning, hget, (hfiles "m1.c").mpr (by decide +kernel),
    (hfiles "m2.c").mpr (by decide +kernel)⟩

end EventFlow.Corpus
