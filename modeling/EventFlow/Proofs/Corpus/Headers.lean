import EventFlow.Proofs.Corpus.Outcome

namespace EventFlow

section Merge

variable {α : Type} {le : α → α → Bool} {first second : List α} {item : α}

theorem merge_cons_left (h : ∀ other ∈ second, le item other) :
    (item :: first).merge second le = item :: first.merge second le := by
  cases second with
  | nil => rw [List.merge_right, List.merge_right]
  | cons other second => exact List.cons_merge_cons_pos le first second (h other List.mem_cons_self)

theorem merge_cons_right (h : ∀ other ∈ first, ¬ le other item) :
    first.merge (item :: second) le = item :: first.merge second le := by
  cases first with
  | nil => rw [List.nil_merge, List.nil_merge]
  | cons other first => exact List.cons_merge_cons_neg le first second (h other List.mem_cons_self)

-- What is kept of two ascending lists stands in the order in which it is merged.
theorem filter_merge (keep : α → Bool) (htrans : ∀ a b c, le a b → le b c → le a c)
    (hfirst : first.Pairwise (fun a b => le a b)) (hsecond : second.Pairwise (fun a b => le a b)) :
    (first.merge second le).filter keep = (first.filter keep).merge (second.filter keep) le := by
  induction first, second using List.merge.induct le with
  | case1 second => rw [List.nil_merge, List.filter_nil, List.nil_merge]
  | case2 first hne => rw [List.merge_right, List.filter_nil, List.merge_right]
  | case3 a first b second hle ih =>
    obtain ⟨_, htail⟩ := List.pairwise_cons.mp hfirst
    have hleast : ∀ other ∈ (b :: second).filter keep, le a other := by
      intro other hother
      rcases List.mem_cons.mp (List.mem_of_mem_filter hother) with rfl | hother
      · exact hle
      · exact htrans a b other hle ((List.pairwise_cons.mp hsecond).1 other hother)
    rw [List.cons_merge_cons_pos le first second hle]
    cases hkeep : keep a with
    | true =>
      rw [List.filter_cons_of_pos hkeep, List.filter_cons_of_pos hkeep, ih htail hsecond,
        merge_cons_left hleast]
    | false =>
      have hdrop : ¬ keep a := by simp [hkeep]
      rw [List.filter_cons_of_neg hdrop, List.filter_cons_of_neg hdrop, ih htail hsecond]
  | case4 a first b second hle ih =>
    obtain ⟨_, htail⟩ := List.pairwise_cons.mp hsecond
    have hgreater : ∀ other ∈ (a :: first).filter keep, ¬ le other b := by
      intro other hother hother'
      rcases List.mem_cons.mp (List.mem_of_mem_filter hother) with rfl | hmem
      · exact hle hother'
      · exact hle (htrans a other b ((List.pairwise_cons.mp hfirst).1 other hmem) hother')
    rw [List.cons_merge_cons_neg le first second hle]
    cases hkeep : keep b with
    | true =>
      rw [List.filter_cons_of_pos hkeep, @List.filter_cons_of_pos _ _ b _ hkeep, ih hfirst htail,
        merge_cons_right hgreater]
    | false =>
      have hdrop : ¬ keep b := by simp [hkeep]
      rw [List.filter_cons_of_neg hdrop, @List.filter_cons_of_neg _ _ b _ hdrop, ih hfirst htail]

end Merge

namespace Corpus

open Source Listener.SourceFile

variable {corpus : Corpus} {suffix : String}

-- The headers that are taken for sources, because a source has their name, and that mention the
-- registration macro.
def posing (corpus : Corpus) : List (String × String) :=
  corpus.headers.entries.filter fun entry =>
    isCandidate entry.2 && corpus.sources.contains entry.1

-- The texts that are read for listeners, in this order.
def listened (corpus : Corpus) : List (String × String) :=
  corpus.candidates.merge corpus.posing (fun a b => !decide (b.1 < a.1))

def readListener (suffix : String) (entry : String × String) :
    Except Error (Option Listener.SourceFile) :=
  ofStream? suffix entry.1 (Stream.ofText entry.2)

theorem filter_merged (corpus : Corpus) :
    (corpus.sources.entries.merge corpus.headers.entries (fun a b => !decide (b.1 < a.1))).filter
        (fun entry => isCandidate entry.2 && corpus.sources.contains entry.1) =
      corpus.listened := by
  have hsources : corpus.sources.entries.filter
      (fun entry => isCandidate entry.2 && corpus.sources.contains entry.1) =
      corpus.candidates := by
    refine List.filter_congr fun entry hentry => ?_
    rw [NameMap.contains_iff.mpr (List.mem_map_of_mem hentry), Bool.and_true]
  have hmerge := @filter_merge _ (fun a b => !decide (b.1 < a.1)) corpus.sources.entries
    corpus.headers.entries (fun entry => isCandidate entry.2 && corpus.sources.contains entry.1)
    (fun a b c => merges_trans) (pairwise_merges corpus.sources) (pairwise_merges corpus.headers)
  rw [hmerge, hsources]
  rfl

theorem listenerFiles_eq (corpus : Corpus) (suffix : String) :
    listenerFiles suffix corpus.scanned =
      (corpus.listened.mapM (readListener suffix)).map (List.filterMap id) := by
  have hnone : ∀ entry : String × String, isCandidate entry.2 = false →
      readListener suffix entry = .ok none :=
    fun entry hentry => ofStream?_of_not_candidate hentry
  rw [← filter_merged, ← List.filter_filter, mapM_filter hnone]
  have hfiles : corpus.scanned.filter File.isSource =
      ((corpus.sources.entries.merge corpus.headers.entries
        (fun a b => !decide (b.1 < a.1))).filter fun entry =>
          corpus.sources.contains entry.1).map corpus.fileOf :=
    List.filter_map
  rw [listenerFiles, hfiles, List.mapM_map]
  rfl

theorem mem_listened_iff {entry : String × String} :
    entry ∈ corpus.listened ↔ entry ∈ corpus.candidates ∨ entry ∈ corpus.posing :=
  List.mem_merge

-- Only sources are read for listeners, and headers that pose as such.
theorem mem_of_mem_listened {entry : String × String} (h : entry ∈ corpus.listened) :
    entry ∈ corpus.sources.entries ++ corpus.posing := by
  rcases mem_listened_iff.mp h with hsource | hheader
  · exact List.mem_append_left _ (List.mem_of_mem_filter hsource)
  · exact List.mem_append_right _ hheader

theorem mem_listened_of_ok {entry : String × String} {source : Listener.SourceFile}
    (hentry : entry ∈ corpus.sources.entries ++ corpus.posing)
    (h : readListener suffix entry = .ok (some source)) : entry ∈ corpus.listened := by
  rcases List.mem_append.mp hentry with hsource | hheader
  · refine mem_listened_iff.mpr (.inl (mem_candidates_iff.mpr ⟨hsource, ?_⟩))
    by_contra hquiet
    have hnone : readListener suffix entry = .ok none :=
      ofStream?_of_not_candidate (by simpa [isCandidate] using hquiet)
    rw [hnone] at h
    cases h
  · exact mem_listened_iff.mpr (.inr hheader)

theorem mem_iff_of_listenerFiles_eq_ok {found : List Listener.SourceFile}
    (h : listenerFiles suffix corpus.scanned = .ok found) {source : Listener.SourceFile} :
    source ∈ found ↔ ∃ entry ∈ corpus.sources.entries ++ corpus.posing,
      readListener suffix entry = .ok (some source) := by
  rw [listenerFiles_eq] at h
  cases hread : corpus.listened.mapM (readListener suffix) with
  | error error =>
    rw [hread] at h
    cases h
  | ok perFile =>
    rw [hread] at h
    cases h
    simp only [List.mem_filterMap, id, exists_eq_right, mem_iff_of_mapM_eq_ok hread]
    constructor
    · rintro ⟨entry, hentry, hok⟩
      exact ⟨entry, mem_of_mem_listened hentry, hok⟩
    · rintro ⟨entry, hentry, hok⟩
      exact ⟨entry, mem_listened_of_ok hentry hok, hok⟩

theorem fault_of_listenerFiles_eq_error {error : Error}
    (h : listenerFiles suffix corpus.scanned = .error error) :
    ∃ entry ∈ corpus.sources.entries ++ corpus.posing,
      Fault entry.1 (Stream.ofText entry.2) error := by
  rw [listenerFiles_eq] at h
  cases hread : corpus.listened.mapM (readListener suffix) with
  | error other =>
    rw [hread] at h
    cases h
    obtain ⟨entry, hentry, herror⟩ := exists_of_mapM_eq_error hread
    exact ⟨entry, mem_of_mem_listened hentry, fault_of_ofStream? herror⟩
  | ok perFile =>
    rw [hread] at h
    cases h

theorem duplicate_of_callables_eq_error {files : List File} {error : Error}
    (h : callables files = .error error) :
    ∃ name places, error = .duplicateCallable name places := by
  by_cases hnames : ((files.flatMap definedIn).map fun d => d.2.name).Nodup
  · obtain ⟨table, hok, _⟩ := callables_eq_ok hnames
    rw [hok] at h
    cases h
  · obtain ⟨name, places, hcollision⟩ := exists_collision hnames
    rw [callables_of_collision hcollision] at h
    cases h
    exact ⟨name, places, rfl⟩

theorem Disjoint.posing_eq_nil (h : corpus.Disjoint) : corpus.posing = [] := by
  refine List.filter_eq_nil_iff.mpr fun entry hentry hboth => ?_
  obtain ⟨_, hsource⟩ := (Bool.and_eq_true _ _).mp hboth
  exact h entry.1 (List.mem_map_of_mem hentry) (NameMap.contains_iff.mp hsource)

-- Headers that pose as sources are read for listeners as sources are, and all other headers count
-- for nothing but the callables. Where no header has the name of a source, none does pose as one.
theorem model_listened (corpus : Corpus) (project suffix : String) :
    (∀ model, corpus.model project suffix = .ok model → ∃ found : List Listener.SourceFile,
      (∀ source, source ∈ found ↔ ∃ entry ∈ corpus.sources.entries ++ corpus.posing,
        ofStream? suffix entry.1 (Stream.ofText entry.2) = .ok (some source)) ∧
      model.listeners = (found.map fun source =>
        source.listener model.callables.values).foldl addListener ∅) ∧
    (∀ error, corpus.model project suffix = .error error →
      (∃ name places, error = .duplicateCallable name places) ∨
      ∃ entry ∈ corpus.sources.entries ++ corpus.posing,
        Fault entry.1 (Stream.ofText entry.2) error) ∧
    (∀ other : Corpus, other.sources = corpus.sources → other.posing = corpus.posing →
      callables other.scanned = callables corpus.scanned →
      other.model project suffix = corpus.model project suffix) ∧
    (corpus.Disjoint → corpus.posing = []) := by
  refine ⟨fun model hmodel => ?_, fun error hmodel => ?_, fun other hsources hposing hsame => ?_,
    Disjoint.posing_eq_nil⟩
  · have hends := ends corpus project suffix
    rw [hmodel] at hends
    cases hends with
    | model hcallables hfound =>
      exact ⟨_, fun source => mem_iff_of_listenerFiles_eq_ok hfound, rfl⟩
  · have hends := ends corpus project suffix
    rw [hmodel] at hends
    cases hends with
    | noCallables h => exact .inl (duplicate_of_callables_eq_error h)
    | noListeners hcallables h => exact .inr (fault_of_listenerFiles_eq_error h)
  · have hlistened : other.listened = corpus.listened := by
      rw [listened, candidates, hsources, hposing]
      rfl
    have hfound : listenerFiles suffix other.scanned = listenerFiles suffix corpus.scanned := by
      rw [listenerFiles_eq, hlistened, listenerFiles_eq]
    rw [model, hsame, hfound, model]

-- A source that says nothing, and a header of the same name.
def doubled (text : String) : Corpus :=
  ⟨NameMap.ofList [("m.c", "")], NameMap.ofList [("m.c", text)]⟩

theorem scanned_doubled (text : String) : (doubled text).scanned =
    [⟨"m.c", true, Stream.ofText ""⟩, ⟨"m.c", true, Stream.ofText text⟩] := by
  have hsources : (doubled text).sources.entries = [("m.c", "")] := rfl
  have hheaders : (doubled text).headers.entries = [("m.c", text)] := rfl
  have hmerge : [("m.c", "")].merge [("m.c", text)] (fun a b => !decide (b.1 < a.1)) =
      [("m.c", ""), ("m.c", text)] := by
    refine (merge_cons_left fun other hother => ?_).trans ?_
    · rw [List.mem_singleton.mp hother]
      exact merges_iff.mpr le_rfl
    · rw [List.nil_merge]
  rw [scanned, hsources, hheaders, hmerge]
  rfl

theorem model_doubled : (doubled "EVENT_LISTENER(m, h);\n").model "p" "_def.h" = .ok ⟨"p", ∅,
    NameMap.ofList [("m", { Listener.blank "m" with files := NameSet.ofList ["m.c"] })]⟩ := by
  rw [model, scanned_doubled]
  decide +kernel

-- Neither do all listeners and faults come from sources, nor may headers say what they want.
theorem not_sources_only :
    ¬ (∀ (corpus : Corpus) (project suffix : String) (model : Model),
      corpus.model project suffix = .ok model → ∀ name listener,
        model.listeners.get? name = some listener → ∀ file ∈ listener.files,
          ∃ text source, corpus.sources.get? file = some text ∧
            ofStream? suffix file (Stream.ofText text) = .ok (some source)) ∧
    ¬ (∀ (corpus other : Corpus) (project suffix : String), other.sources = corpus.sources →
      other.headers.keys = corpus.headers.keys →
      callables other.scanned = callables corpus.scanned →
      (other.model project suffix).map Model.listeners =
        (corpus.model project suffix).map Model.listeners) := by
  constructor
  · intro h
    obtain ⟨text, source, htext, hread⟩ :=
      h _ _ _ _ model_doubled "m" { Listener.blank "m" with files := NameSet.ofList ["m.c"] }
        (by decide +kernel) "m.c" (by decide +kernel)
    have hempty : (doubled "EVENT_LISTENER(m, h);\n").sources.get? "m.c" = some "" := rfl
    obtain rfl := Option.some.inj (htext.symm.trans hempty)
    rw [ofStream?_of_not_candidate (by decide +kernel)] at hread
    cases hread
  · intro h
    have hcallables : callables (doubled "").scanned =
        callables (doubled "EVENT_LISTENER(m, h);\n").scanned := by
      rw [scanned_doubled, scanned_doubled]
      decide +kernel
    have hquiet : (doubled "").model "p" "_def.h" = .ok ⟨"p", ∅, ∅⟩ := by
      rw [model, scanned_doubled]
      decide +kernel
    have hsame := h (doubled "EVENT_LISTENER(m, h);\n") (doubled "") "p" "_def.h" rfl rfl hcallables
    rw [hquiet, model_doubled] at hsame
    exact absurd hsame (by decide +kernel)

end Corpus

end EventFlow
