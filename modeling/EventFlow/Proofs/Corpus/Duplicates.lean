import EventFlow.Proofs.Corpus.Outcome

namespace EventFlow.Corpus

open Source Callable

variable {corpus : Corpus} {project suffix name : String} {places : NameSet}

theorem listenerFiles_ne_duplicate {files : List File} :
    listenerFiles suffix files ≠ .error (.duplicateCallable name places) := by
  intro h
  unfold listenerFiles at h
  cases hread : (files.filter File.isSource).mapM fun file =>
      Listener.SourceFile.ofStream? suffix file.name file.stream with
  | ok perFile =>
    rw [hread] at h
    cases h
  | error error =>
    rw [hread] at h
    cases h
    obtain ⟨file, _, herror⟩ := exists_of_mapM_eq_error hread
    cases Listener.SourceFile.fault_of_ofStream? herror

theorem model_eq_duplicate_iff :
    corpus.model project suffix = .error (.duplicateCallable name places) ↔
      Collision corpus.scanned name places := by
  constructor
  · intro h
    by_cases hnames : ((corpus.scanned.flatMap definedIn).map fun d => d.2.name).Nodup
    · obtain ⟨table, hok, _⟩ := callables_eq_ok hnames
      cases hsources : listenerFiles suffix corpus.scanned with
      | ok sources =>
        rw [model_eq_ok hok hsources] at h
        cases h
      | error error =>
        rw [model_eq_error_of_listenerFiles hok hsources] at h
        cases h
        exact absurd hsources listenerFiles_ne_duplicate
    · obtain ⟨name', places', hcollision⟩ := exists_collision hnames
      rw [model_eq_error_of_callables (callables_of_collision hcollision)] at h
      cases h
      exact hcollision
  · intro h
    exact model_eq_error_of_callables (callables_of_collision h)

-- A report of the least name that has two definitions in the corpus, be it in one file or in
-- two, with all the files that define it.
structure Canonical (corpus : Corpus) (name : String) (places : NameSet) : Prop where
  least : LeastRepeated (corpus.eventDefinitions.map fun found => found.2.name) name
  complete : ∀ place, place ∈ places ↔
    ∃ found ∈ corpus.eventDefinitions, found.1 = place ∧ found.2.name = name

theorem collision_iff :
    Collision corpus.scanned name places ↔
      (∃ before file after, corpus.scanned = before ++ file :: after ∧
        (∀ other ∈ before, (namesIn other).Nodup) ∧ LeastRepeated (namesIn file) name ∧
        places = NameSet.ofList [file.name]) ∨
      ((∀ file ∈ corpus.scanned, (namesIn file).Nodup) ∧ corpus.Canonical name places) := by
  have hperm := corpus.scanned_flatMap_perm
  constructor
  · intro h
    cases h with
    | within hsplit hbefore hname => exact .inl ⟨_, _, _, hsplit, hbefore, hname, rfl⟩
    | across hfiles hname hplaces =>
      refine .inr ⟨hfiles, hname.perm (hperm.map _), fun place => (hplaces place).trans ?_⟩
      exact exists_congr fun found => and_congr_left' hperm.mem_iff
  · rintro (⟨before, file, after, hsplit, hbefore, hname, rfl⟩ | ⟨hfiles, hleast, hcomplete⟩)
    · exact .within hsplit hbefore hname
    · refine .across hfiles (hleast.perm (hperm.map _).symm) fun place =>
        (hcomplete place).trans ?_
      exact exists_congr fun found => and_congr_left' hperm.mem_iff.symm

-- Of the definitions that the tokens of the files show, the first file that repeats a name by
-- itself is reported alone, with the least name that it repeats. Only where no file does so the
-- report is the canonical one.
theorem duplicate_report (corpus : Corpus) (project suffix name : String) (places : NameSet) :
    (∀ entry ∈ corpus.files,
      Callable.FoundIn (Stream.ofText entry.2) (Callable.definitions (Stream.ofText entry.2))) ∧
    (corpus.model project suffix = .error (.duplicateCallable name places) ↔
      (∃ before file after, corpus.scanned = before ++ file :: after ∧
        (∀ other ∈ before, (namesIn other).Nodup) ∧ LeastRepeated (namesIn file) name ∧
        places = NameSet.ofList [file.name]) ∨
      ((∀ file ∈ corpus.scanned, (namesIn file).Nodup) ∧ corpus.Canonical name places)) :=
  ⟨fun entry _ => Callable.definitions_foundIn (Stream.ofText entry.2),
    model_eq_duplicate_iff.trans collision_iff⟩

-- Both headers define the macro, the second one twice.
def sentTwice : Corpus :=
  ⟨∅, NameMap.ofList
    [("a.h", "#define SEND new_x_event()\n"),
     ("b.h", "#define SEND new_y_event()\n#define SEND new_z_event()\n")]⟩

theorem scanned_sentTwice : sentTwice.scanned =
    [⟨"a.h", false, Stream.ofText "#define SEND new_x_event()\n"⟩,
     ⟨"b.h", false, Stream.ofText "#define SEND new_y_event()\n#define SEND new_z_event()\n"⟩] := by
  have hsources : sentTwice.sources.entries = [] := rfl
  have hheaders : sentTwice.headers.entries =
      [("a.h", "#define SEND new_x_event()\n"),
       ("b.h", "#define SEND new_y_event()\n#define SEND new_z_event()\n")] := by decide +kernel
  rw [scanned, hsources, hheaders, List.nil_merge]
  rfl

theorem not_canonical_sentTwice :
    ¬ ∀ (corpus : Corpus) (project suffix name : String) (places : NameSet),
      corpus.model project suffix = .error (.duplicateCallable name places) →
        corpus.Canonical name places := by
  intro h
  have hcollision : Collision sentTwice.scanned "SEND" (NameSet.ofList ["b.h"]) := by
    refine @Collision.within _ [_] [] _ _ scanned_sentTwice (fun other hother => ?_) ?_
    · obtain rfl := List.mem_singleton.mp hother
      decide +kernel
    · exact leastRepeated_of_repeated? (by decide +kernel)
  have hreport := (@model_eq_duplicate_iff _ "p" "_def.h" _ _).mpr hcollision
  have hdefined : ∃ found ∈ sentTwice.eventDefinitions,
      found.1 = "a.h" ∧ found.2.name = "SEND" := by decide +kernel
  have hlisted := ((h _ _ _ _ _ hreport).complete "a.h").mpr hdefined
  exact absurd hlisted (by decide +kernel)

end EventFlow.Corpus
