import EventFlow.Proofs.Callable.Definitions
import EventFlow.Proofs.Corpus.Callables
import EventFlow.Proofs.Listener.Registration

namespace EventFlow.Corpus

open Source Listener.SourceFile

variable {corpus : Corpus} {project suffix : String}

-- What an entry of the sources says about its listener, if it is a sound listener file.
def readEntry (suffix : String) (entry : String × String) : Option Listener.SourceFile :=
  match ofStream? suffix entry.1 (Stream.ofText entry.2) with
  | .ok found => found
  | .error _ => none

-- What all sources say about listeners, in the order of their names.
def fragments (corpus : Corpus) (suffix : String) : List Listener.SourceFile :=
  corpus.sources.entries.filterMap (readEntry suffix)

-- Every source that mentions the registration macro registers one listener.
def Registered (corpus : Corpus) : Prop :=
  ∀ entry ∈ corpus.sources.entries, isCandidate entry.2 → WellRegistered (Stream.ofText entry.2)

-- Every definition that creates an event, in the files that do not mention the registration
-- macro. `Callable.FoundIn` tells by the identifiers of a file which these are.
def eventDefinitions (corpus : Corpus) : List (String × Callable.Definition) :=
  corpus.files.flatMap fun entry =>
    if isCandidate entry.2 then []
    else (Callable.definitions (Stream.ofText entry.2)).map fun definition =>
      (entry.1, definition)

-- No name has two of these definitions, be it in one file or in two.
def Unambiguous (corpus : Corpus) : Prop :=
  (corpus.eventDefinitions.map fun found => found.2.name).Nodup

instance (corpus : Corpus) : Decidable corpus.Unambiguous :=
  inferInstanceAs (Decidable (List.Nodup _))

instance (corpus : Corpus) : Decidable corpus.Registered :=
  inferInstanceAs (Decidable (∀ entry ∈ corpus.sources.entries, _))

theorem scanned_flatMap_perm (corpus : Corpus) :
    (corpus.scanned.flatMap definedIn).Perm corpus.eventDefinitions := by
  refine (corpus.scanned_perm.flatMap_right definedIn).trans (List.Perm.of_eq ?_)
  rw [List.flatMap_map]
  rfl

theorem unambiguous_iff :
    corpus.Unambiguous ↔ ((corpus.scanned.flatMap definedIn).map fun d => d.2.name).Nodup :=
  ((corpus.scanned_flatMap_perm.map _).nodup_iff).symm

theorem mem_candidates_iff {entry : String × String} :
    entry ∈ corpus.candidates ↔ entry ∈ corpus.sources.entries ∧ isCandidate entry.2 :=
  List.mem_filter

-- A candidate among the files that count as sources is a source, and each such source is there.
theorem exists_entry (hquiet : corpus.QuietHeaders) {file : File}
    (hfile : file ∈ corpus.scanned.filter File.isSource)
    (hcandidate : Listener.SourceFile.isCandidate file.stream) :
    ∃ entry ∈ corpus.sources.entries, isCandidate entry.2 ∧ file = corpus.fileOf entry := by
  have hmem : file ∈ (corpus.scanned.filter File.isSource).filter
      (fun file => Listener.SourceFile.isCandidate file.stream) :=
    List.mem_filter.mpr ⟨hfile, hcandidate⟩
  rw [filter_scanned hquiet, List.mem_map] at hmem
  obtain ⟨entry, hentry, rfl⟩ := hmem
  obtain ⟨hsource, hmention⟩ := mem_candidates_iff.mp hentry
  exact ⟨entry, hsource, hmention, rfl⟩

theorem fileOf_mem {entry : String × String} (hentry : entry ∈ corpus.sources.entries) :
    corpus.fileOf entry ∈ corpus.scanned.filter File.isSource := by
  refine List.mem_filter.mpr ⟨mem_scanned_iff.mpr ⟨entry, List.mem_append_left _ hentry, rfl⟩, ?_⟩
  exact NameMap.contains_iff.mpr (List.mem_map_of_mem hentry)

theorem readEntry_of_not_candidate {entry : String × String}
    (h : isCandidate entry.2 = false) : readEntry suffix entry = none := by
  rw [readEntry, ofStream?_of_not_candidate h]

theorem listenerFiles_eq_ok (hquiet : corpus.QuietHeaders) (h : corpus.Registered) :
    listenerFiles suffix corpus.scanned = .ok (corpus.fragments suffix) := by
  let read (file : File) : Option Listener.SourceFile :=
    match ofStream? suffix file.name file.stream with
    | .ok found => found
    | .error _ => none
  have hread : ∀ file ∈ corpus.scanned.filter File.isSource,
      ofStream? suffix file.name file.stream = .ok (read file) := by
    intro file hfile
    cases hcandidate : Listener.SourceFile.isCandidate file.stream with
    | false => simp only [read, ofStream?_of_not_candidate hcandidate]
    | true =>
      obtain ⟨entry, hsource, hmention, rfl⟩ := exists_entry hquiet hfile hcandidate
      obtain ⟨source, hok⟩ := @ofStream?_eq_ok suffix (corpus.fileOf entry).name _ hcandidate
        (h entry hsource hmention)
      simp only [read, hok]
  have hfragments : ((corpus.scanned.filter File.isSource).map read).filterMap id =
      corpus.fragments suffix := by
    have hskip : ∀ files : List File, files.filterMap read =
        (files.filter fun file => Listener.SourceFile.isCandidate file.stream).filterMap read := by
      intro files
      rw [List.filterMap_filter]
      refine List.filterMap_congr fun file _ => ?_
      cases hcandidate : Listener.SourceFile.isCandidate file.stream with
      | false => simp [read, ofStream?_of_not_candidate hcandidate]
      | true => simp
    rw [List.filterMap_map, Function.id_comp, hskip, filter_scanned hquiet, List.filterMap_map,
      candidates, List.filterMap_filter, fragments]
    refine List.filterMap_congr fun entry _ => ?_
    cases hcandidate : isCandidate entry.2 with
    | false => simp [readEntry_of_not_candidate hcandidate]
    | true => rfl
  rw [listenerFiles, mapM_eq_ok (g := read) hread, ← hfragments]
  rfl

-- A source with a fault, of which there is none with a lesser name.
structure LeastFaulty (corpus : Corpus) (entry : String × String) : Prop where
  mem : entry ∈ corpus.sources.entries
  candidate : isCandidate entry.2
  faulty : ¬ WellRegistered (Stream.ofText entry.2)
  least : ∀ other ∈ corpus.sources.entries, isCandidate other.2 →
    ¬ WellRegistered (Stream.ofText other.2) → entry.1 ≤ other.1

theorem listenerFiles_eq_error (hquiet : corpus.QuietHeaders) (h : ¬ corpus.Registered) :
    ∃ entry error, corpus.LeastFaulty entry ∧ Fault entry.1 (Stream.ofText entry.2) error ∧
      listenerFiles suffix corpus.scanned = .error error := by
  have hfirst : ¬ ∀ file ∈ corpus.scanned.filter File.isSource,
      Listener.SourceFile.isCandidate file.stream → WellRegistered file.stream := by
    intro hall
    exact h fun entry hentry hcandidate => hall _ (fileOf_mem hentry) hcandidate
  obtain ⟨before, file, after, hsplit, hbefore, hfile⟩ := exists_first_not hfirst
  obtain ⟨hcandidate, hfault⟩ := Classical.not_imp.mp hfile
  have hfile : file ∈ corpus.scanned.filter File.isSource := by
    rw [hsplit]
    exact List.mem_append_right _ List.mem_cons_self
  obtain ⟨entry, hsource, hmention, rfl⟩ := exists_entry hquiet hfile hcandidate
  obtain ⟨error, herror, hread⟩ := @ofStream?_eq_error suffix entry.1 _ hmention hfault
  refine ⟨entry, error, ⟨hsource, hmention, hfault, ?_⟩, herror, ?_⟩
  · intro other hother hcandidate' hfault'
    have hin := fileOf_mem hother
    have hascending := corpus.scanned_pairwise.filter File.isSource
    rw [hsplit] at hin hascending
    rcases List.mem_append.mp hin with hin | hin
    · exact absurd (hbefore _ hin hcandidate') hfault'
    · rcases List.mem_cons.mp hin with heq | hin
      · exact (congrArg File.name heq).ge
      · exact (List.pairwise_cons.mp (List.pairwise_append.mp hascending).2.1).1 _ hin
  · let read (file : File) := ofStream? suffix file.name file.stream
    rw [listenerFiles, hsplit, mapM_eq_error (f := read) ?_ hread]
    · rfl
    · intro file hin
      cases hcandidate : Listener.SourceFile.isCandidate file.stream with
      | false => exact ⟨none, ofStream?_of_not_candidate hcandidate⟩
      | true =>
        obtain ⟨source, hok⟩ := @ofStream?_eq_ok suffix file.name _ hcandidate
          (hbefore file hin hcandidate)
        exact ⟨some source, hok⟩

section Model

variable {files : List File} {table : NameMap Callable} {sources : List Listener.SourceFile}
  {error : Error}

theorem model_eq_ok (hcallables : callables corpus.scanned = .ok table)
    (hsources : listenerFiles suffix corpus.scanned = .ok sources) :
    corpus.model project suffix = .ok ⟨project, table,
      (sources.map fun source => source.listener table.values).foldl addListener ∅⟩ := by
  rw [model, hcallables]
  change (listenerFiles suffix corpus.scanned >>= fun sources => _) = _
  rw [hsources]
  rfl

theorem model_eq_error_of_callables (h : callables corpus.scanned = .error error) :
    corpus.model project suffix = .error error := by
  rw [model, h]
  rfl

theorem model_eq_error_of_listenerFiles (hcallables : callables corpus.scanned = .ok table)
    (h : listenerFiles suffix corpus.scanned = .error error) :
    corpus.model project suffix = .error error := by
  rw [model, hcallables]
  change (listenerFiles suffix corpus.scanned >>= fun sources => _) = _
  rw [h]
  rfl

end Model

-- How the reading of a corpus ends.
inductive Ends (corpus : Corpus) (project suffix : String) : Except Error Model → Prop where
  | noCallables {error : Error} (h : callables corpus.scanned = .error error) :
    Ends corpus project suffix (.error error)
  | noListeners {table : NameMap Callable} {error : Error}
      (hcallables : callables corpus.scanned = .ok table)
      (h : listenerFiles suffix corpus.scanned = .error error) :
    Ends corpus project suffix (.error error)
  | model {table : NameMap Callable} {sources : List Listener.SourceFile}
      (hcallables : callables corpus.scanned = .ok table)
      (hsources : listenerFiles suffix corpus.scanned = .ok sources) :
    Ends corpus project suffix (.ok ⟨project, table,
      (sources.map fun source => source.listener table.values).foldl addListener ∅⟩)

theorem ends (corpus : Corpus) (project suffix : String) :
    Ends corpus project suffix (corpus.model project suffix) := by
  cases hcallables : callables corpus.scanned with
  | error error =>
    rw [model_eq_error_of_callables hcallables]
    exact .noCallables hcallables
  | ok table =>
    cases hsources : listenerFiles suffix corpus.scanned with
    | error error =>
      rw [model_eq_error_of_listenerFiles hcallables hsources]
      exact .noListeners hcallables hsources
    | ok sources =>
      rw [model_eq_ok hcallables hsources]
      exact .model hcallables hsources

theorem isIntegrity_of_callables {files : List File} {error : Error}
    (h : callables files = .error error) : error.isIntegrity = true := by
  rcases bind_eq_error_iff.mp h with hdefinitions | ⟨found, _, hrepeated⟩
  · rcases bind_eq_error_iff.mp hdefinitions with hfiles | ⟨_, _, hflatten⟩
    · obtain ⟨file, _, hfile⟩ := exists_of_mapM_eq_error hfiles
      rcases bind_eq_error_iff.mp hfile with hinFile | ⟨_, _, hpairs⟩
      · rw [Callable.inFile] at hinFile
        split at hinFile
        · cases hinFile
          rfl
        · cases hinFile
      · cases hpairs
    · cases hflatten
  · split at hrepeated
    · cases hrepeated
      rfl
    · cases hrepeated

theorem isIntegrity_of_listenerFiles {files : List File} {error : Error}
    (h : listenerFiles suffix files = .error error) : error.isIntegrity = true := by
  rcases bind_eq_error_iff.mp h with hfiles | ⟨_, _, hfound⟩
  · obtain ⟨file, _, hfile⟩ := exists_of_mapM_eq_error hfiles
    rw [Listener.SourceFile.ofStream?] at hfile
    split at hfile
    · split at hfile
      · rcases bind_eq_error_iff.mp hfile with hresolve | ⟨_, _, hrecord⟩
        · rw [Listener.SourceFile.resolve] at hresolve
          split at hresolve
          · cases hresolve
          · cases hresolve
          · cases hresolve
            rfl
        · cases hrecord
      · cases hfile
        rfl
    · cases hfile
  · cases hfound

-- What goes wrong with a corpus is a fault of the corpus itself.
theorem isIntegrity_of_model {error : Error} (h : corpus.model project suffix = .error error) :
    error.isIntegrity = true := by
  have hends := ends corpus project suffix
  rw [h] at hends
  cases hends with
  | noCallables hcallables => exact isIntegrity_of_callables hcallables
  | noListeners _ hlisteners => exact isIntegrity_of_listenerFiles hlisteners

-- The table of the callables and the record of each listener, for a corpus without faults.
theorem exists_model (hquiet : corpus.QuietHeaders) (hunambiguous : corpus.Unambiguous)
    (hregistered : corpus.Registered) :
    ∃ table, (∀ name callable, table.get? name = some callable ↔
        ∃ found ∈ corpus.eventDefinitions,
          name = found.2.name ∧ callable = callableOf found) ∧
      corpus.model project suffix = .ok ⟨project, table,
        ((corpus.fragments suffix).map fun source =>
          source.listener table.values).foldl addListener ∅⟩ := by
  obtain ⟨table, hok, htable⟩ := callables_eq_ok (unambiguous_iff.mp hunambiguous)
  refine ⟨table, fun name callable => ?_,
    model_eq_ok hok (listenerFiles_eq_ok hquiet hregistered)⟩
  rw [htable]
  exact exists_congr fun found => and_congr_left' corpus.scanned_flatMap_perm.mem_iff

theorem model_eq_duplicate (h : ¬ corpus.Unambiguous) :
    ∃ name places, corpus.model project suffix = .error (.duplicateCallable name places) := by
  rw [unambiguous_iff] at h
  obtain ⟨name, places, hcollision⟩ := exists_collision h
  exact ⟨name, places, model_eq_error_of_callables (callables_of_collision hcollision)⟩

theorem model_eq_fault (hquiet : corpus.QuietHeaders) (hunambiguous : corpus.Unambiguous)
    (h : ¬ corpus.Registered) :
    ∃ entry error, corpus.LeastFaulty entry ∧ Fault entry.1 (Stream.ofText entry.2) error ∧
      corpus.model project suffix = .error error := by
  obtain ⟨table, hok, _⟩ := callables_eq_ok (unambiguous_iff.mp hunambiguous)
  obtain ⟨entry, error, hleast, hfault, herror⟩ :=
    @listenerFiles_eq_error corpus suffix hquiet h
  exact ⟨entry, error, hleast, hfault, model_eq_error_of_listenerFiles hok herror⟩

theorem model_eq_ok_iff (project suffix : String) (h : corpus.Disjoint) :
    (∃ model, corpus.model project suffix = .ok model) ↔
      corpus.Unambiguous ∧ corpus.Registered := by
  constructor
  · rintro ⟨model, hok⟩
    have hunambiguous : corpus.Unambiguous := by
      by_contra hnot
      obtain ⟨name, places, herror⟩ := @model_eq_duplicate corpus project suffix hnot
      rw [hok] at herror
      cases herror
    refine ⟨hunambiguous, ?_⟩
    by_contra hnot
    obtain ⟨entry, error, _, _, herror⟩ :=
      @model_eq_fault corpus project suffix h.quietHeaders hunambiguous hnot
    rw [hok] at herror
    cases herror
  · rintro ⟨hunambiguous, hregistered⟩
    obtain ⟨table, _, hok⟩ :=
      @exists_model corpus project suffix h.quietHeaders hunambiguous hregistered
    exact ⟨_, hok⟩

-- The definitions that create events are those that the tokens of the files show. Repeated ones
-- are reported first, then the fault of the least source that has one.
theorem model_outcome (project suffix : String) (h : corpus.Disjoint) :
    (∀ entry ∈ corpus.files,
      Callable.FoundIn (Stream.ofText entry.2) (Callable.definitions (Stream.ofText entry.2))) ∧
    ((∃ model, corpus.model project suffix = .ok model) ↔
      corpus.Unambiguous ∧ corpus.Registered) ∧
    (¬ corpus.Unambiguous → ∃ name places,
      corpus.model project suffix = .error (.duplicateCallable name places)) ∧
    (corpus.Unambiguous → ¬ corpus.Registered → ∃ entry error, corpus.LeastFaulty entry ∧
      Fault entry.1 (Stream.ofText entry.2) error ∧
      corpus.model project suffix = .error error) :=
  ⟨fun entry _ => Callable.definitions_foundIn (Stream.ofText entry.2),
    model_eq_ok_iff project suffix h, model_eq_duplicate, model_eq_fault h.quietHeaders⟩

-- Both sources have a fault. A third registration macro in `b.c` has too few arguments to count.
def twoFaulty : Corpus :=
  ⟨NameMap.ofList
    [("c.c", "#define X APP_EVENT_LISTENER\n"),
     ("b.c", "EVENT_LISTENER(a, h);\nEVENT_LISTENER((b), h);\nEVENT_LISTENER(c);\n")],
   NameMap.ofList [("k.h", "#define SEND new_x_event()\n")]⟩

theorem model_outcome_twoFaulty :
    twoFaulty.Disjoint ∧
      twoFaulty.model "p" "_def.h" = .error (.registrationCount "b.c" 2) := by
  have hdisjoint : twoFaulty.Disjoint := by decide +kernel
  refine ⟨hdisjoint, ?_⟩
  obtain ⟨entry, error, hleast, hfault, herror⟩ :=
    (model_outcome "p" "_def.h" hdisjoint).2.2.2 (by decide +kernel) (by decide +kernel)
  have hsources : twoFaulty.sources.entries =
      [("b.c", "EVENT_LISTENER(a, h);\nEVENT_LISTENER((b), h);\nEVENT_LISTENER(c);\n"),
       ("c.c", "#define X APP_EVENT_LISTENER\n")] := by decide +kernel
  have hentry : entry =
      ("b.c", "EVENT_LISTENER(a, h);\nEVENT_LISTENER((b), h);\nEVENT_LISTENER(c);\n") := by
    have hmem := hleast.mem
    have hle := hleast.least
    rw [hsources] at hmem hle
    rcases List.mem_cons.mp hmem with heq | hmem
    · exact heq
    · obtain rfl := List.mem_singleton.mp hmem
      exact absurd (hle _ List.mem_cons_self (by decide +kernel) (by decide +kernel))
        (by decide +kernel)
  subst hentry
  have hcount : (registeredArguments (Stream.ofText
      "EVENT_LISTENER(a, h);\nEVENT_LISTENER((b), h);\nEVENT_LISTENER(c);\n").code).length = 2 := by
    decide +kernel
  cases hfault with
  | count => rw [herror, hcount]
  | replaced argument hargument =>
    rw [hargument] at hcount
    cases hcount

end EventFlow.Corpus
