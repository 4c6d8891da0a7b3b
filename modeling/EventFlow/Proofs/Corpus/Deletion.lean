import EventFlow.Proofs.Corpus.Headers
import EventFlow.Proofs.Graph.Inclusion
import Mathlib.Data.List.Flatten

namespace EventFlow.Corpus

open Source Listener.SourceFile

variable {part corpus : Corpus} {project suffix : String}

-- The first corpus is left of the second when files are deleted.
structure Within (part corpus : Corpus) : Prop where
  sources : part.sources.entries.Sublist corpus.sources.entries
  headers : part.headers.entries.Sublist corpus.headers.entries

theorem callables_of_eq_ok {table : NameMap Callable}
    (h : callables corpus.scanned = .ok table) :
    corpus.Unambiguous ∧ ∀ name callable, table.get? name = some callable ↔
      ∃ found ∈ corpus.eventDefinitions, name = found.2.name ∧ callable = callableOf found := by
  have hunambiguous : corpus.Unambiguous := by
    by_contra hnot
    obtain ⟨name, places, hcollision⟩ := exists_collision (mt unambiguous_iff.mpr hnot)
    rw [callables_of_collision hcollision] at h
    cases h
  obtain ⟨table', hok, htable⟩ := callables_eq_ok (unambiguous_iff.mp hunambiguous)
  obtain rfl := Except.ok.inj (h.symm.trans hok)
  refine ⟨hunambiguous, fun name callable => ?_⟩
  rw [htable]
  exact exists_congr fun found => and_congr_left' corpus.scanned_flatMap_perm.mem_iff

namespace Within

variable (h : Within part corpus)

include h

theorem eventDefinitions : part.eventDefinitions.Sublist corpus.eventDefinitions :=
  (h.sources.append h.headers).flatMap _

theorem unambiguous (hcorpus : corpus.Unambiguous) : part.Unambiguous :=
  hcorpus.sublist (h.eventDefinitions.map _)

theorem exists_callables {table : NameMap Callable}
    (hcallables : callables corpus.scanned = .ok table) :
    ∃ less, callables part.scanned = .ok less ∧ ∀ name callable,
      less.get? name = some callable → table.get? name = some callable := by
  obtain ⟨hunambiguous, htable⟩ := callables_of_eq_ok hcallables
  obtain ⟨less, hok, _⟩ := callables_eq_ok (unambiguous_iff.mp (h.unambiguous hunambiguous))
  refine ⟨less, hok, fun name callable hget => ?_⟩
  obtain ⟨found, hfound, hcallable⟩ := ((callables_of_eq_ok hok).2 name callable).mp hget
  exact (htable name callable).mpr ⟨found, h.eventDefinitions.subset hfound, hcallable⟩

-- A header that poses as a source needs that source, so it may cease to do so but not begin.
theorem posing {entry : String × String} (hentry : entry ∈ part.posing) :
    entry ∈ corpus.posing := by
  obtain ⟨hheader, hposes⟩ := List.mem_filter.mp hentry
  obtain ⟨hcandidate, hsource⟩ := (Bool.and_eq_true _ _).mp hposes
  have hkey : entry.1 ∈ corpus.sources.keys :=
    (h.sources.map Prod.fst).subset (NameMap.contains_iff.mp hsource)
  refine List.mem_filter.mpr ⟨h.headers.subset hheader, ?_⟩
  rw [hcandidate, NameMap.contains_iff.mpr hkey]
  rfl

theorem listened {entry : String × String} (hentry : entry ∈ part.listened) :
    entry ∈ corpus.listened := by
  rcases mem_listened_iff.mp hentry with hsource | hheader
  · obtain ⟨hsource, hcandidate⟩ := mem_candidates_iff.mp hsource
    exact mem_listened_iff.mpr
      (.inl (mem_candidates_iff.mpr ⟨h.sources.subset hsource, hcandidate⟩))
  · exact mem_listened_iff.mpr (.inr (h.posing hheader))

theorem exists_listenerFiles {found : List Listener.SourceFile}
    (hfound : listenerFiles suffix corpus.scanned = .ok found) :
    ∃ less, listenerFiles suffix part.scanned = .ok less ∧ ∀ source ∈ less, source ∈ found := by
  have hread : ∃ values, part.listened.mapM (readListener suffix) = .ok values := by
    cases hpart : part.listened.mapM (readListener suffix) with
    | ok values => exact ⟨values, rfl⟩
    | error error =>
      obtain ⟨entry, hentry, herror⟩ := exists_of_mapM_eq_error hpart
      rw [listenerFiles_eq] at hfound
      cases hall : corpus.listened.mapM (readListener suffix) with
      | error other =>
        rw [hall] at hfound
        cases hfound
      | ok values =>
        obtain ⟨value, hvalue⟩ := exists_of_mapM_eq_ok hall entry (h.listened hentry)
        rw [herror] at hvalue
        cases hvalue
  obtain ⟨values, hvalues⟩ := hread
  have hless : listenerFiles suffix part.scanned = .ok (values.filterMap id) := by
    rw [listenerFiles_eq, hvalues]
    rfl
  refine ⟨_, hless, fun source hsource => ?_⟩
  obtain ⟨entry, hentry, hok⟩ := (mem_iff_of_listenerFiles_eq_ok hless).mp hsource
  refine (mem_iff_of_listenerFiles_eq_ok hfound).mpr ⟨entry, ?_, hok⟩
  rcases List.mem_append.mp hentry with hsource | hheader
  · exact List.mem_append_left _ (h.sources.subset hsource)
  · exact List.mem_append_right _ (h.posing hheader)

end Within

-- Listeners are within those of a larger corpus, whose callables are more.
theorem listeners_within {less found : List Listener.SourceFile} {callables others : List Callable}
    (hfound : ∀ source ∈ less, source ∈ found)
    (hcallables : ∀ callable ∈ callables, callable ∈ others) {name : String} {listener : Listener}
    (hget : ((less.map fun source => source.listener callables).foldl addListener ∅).get? name =
      some listener) :
    ∃ larger, ((found.map fun source => source.listener others).foldl addListener ∅).get? name =
      some larger ∧ listener.Within larger := by
  have hpart := collects_foldl (less.map fun source => source.listener callables) name
  rw [hget] at hpart
  obtain ⟨hname, ⟨item, hitem, hitemName⟩, hunion⟩ := hpart
  obtain ⟨source, hsource, rfl⟩ := List.mem_map.mp hitem
  have hlarger : source.listener others ∈ found.map fun source => source.listener others :=
    List.mem_map_of_mem (hfound source hsource)
  have hwhole := collects_foldl (found.map fun source => source.listener others) name
  cases hvalue : ((found.map fun source =>
      source.listener others).foldl addListener ∅).get? name with
  | none =>
    rw [hvalue] at hwhole
    have hlargerName : (source.listener others).name = name := hitemName
    exact absurd hlargerName (hwhole _ hlarger)
  | some larger =>
    rw [hvalue] at hwhole
    obtain ⟨hlargerName, _, hlargerUnion⟩ := hwhole
    refine ⟨larger, rfl, hunion.within hlargerUnion (hname.trans hlargerName.symm) ?_⟩
    intro item hitem
    obtain ⟨hitem, hsame⟩ := List.mem_filter.mp hitem
    obtain ⟨source, hsource, rfl⟩ := List.mem_map.mp hitem
    refine ⟨source.listener others, List.mem_filter.mpr ⟨?_, hsame⟩,
      source.listener_within hcallables⟩
    exact List.mem_map_of_mem (hfound source hsource)

theorem Within.exists_model (h : Within part corpus) {whole : Model}
    (hmodel : corpus.model project suffix = .ok whole) :
    ∃ found, part.model project suffix = .ok found ∧ found.Within whole := by
  have hends := ends corpus project suffix
  rw [hmodel] at hends
  cases hends with
  | @model table sources hcallables hsources =>
    obtain ⟨less, hless, htable⟩ := h.exists_callables hcallables
    obtain ⟨found, hfound, hmem⟩ := h.exists_listenerFiles hsources
    refine ⟨_, model_eq_ok hless hfound, htable, fun name listener hget => ?_⟩
    refine listeners_within hmem (fun callable hcallable => ?_) hget
    obtain ⟨name, hget⟩ := NameMap.mem_values_iff.mp hcallable
    exact NameMap.mem_values_iff.mpr ⟨name, htable name callable hget⟩

-- When files are deleted from a corpus that has a model, a model remains. It says nothing that
-- the whole model does not say, and neither does its graph, but an event that is heard early in
-- the whole may be heard later in what is left.
theorem deletion_outcome (h : Within part corpus) {whole : Model}
    (hmodel : corpus.model project suffix = .ok whole) :
    ∃ found, part.model project suffix = .ok found ∧ found.Within whole ∧
      (∀ name event, .emits name event ∈ (Graph.ofModel found).edges →
        .emits name event ∈ (Graph.ofModel whole).edges) ∧
      (∀ event name tier, .subscribes event name tier ∈ (Graph.ofModel found).edges →
        ∃ earlier : Tier, earlier.rank ≤ tier.rank ∧
          .subscribes event name earlier ∈ (Graph.ofModel whole).edges) := by
  obtain ⟨found, hfound, hwithin⟩ := h.exists_model hmodel
  exact ⟨found, hfound, hwithin, fun name event => Graph.emits_of_within hwithin,
    fun event name tier => Graph.subscribes_of_within hwithin⟩

-- The file left subscribes later than the first of those deleted, and invokes what the other one
-- defines. The header that is left no longer poses as a source.
namespace Remains

def before : Corpus :=
  ⟨NameMap.ofList
    [("a.c", "EVENT_LISTENER(m, h);\nEVENT_SUBSCRIBE_EARLY(m, e);\n"),
     ("b.c", "EVENT_LISTENER(m, h);\nEVENT_SUBSCRIBE(m, e);\nvoid f(void) { send(); }\n"),
     ("u.c", "void send(void) { new_x_event(); }\n")],
   NameMap.ofList [("u.c", "#define SEND_Y new_y_event()\n")]⟩

def after : Corpus :=
  ⟨NameMap.ofList
    [("b.c", "EVENT_LISTENER(m, h);\nEVENT_SUBSCRIBE(m, e);\nvoid f(void) { send(); }\n")],
   NameMap.ofList [("u.c", "#define SEND_Y new_y_event()\n")]⟩

end Remains

open Remains in
theorem deletion_outcome_remains :
    Within after before ∧ ∃ whole found, before.model "p" "_def.h" = .ok whole ∧
      after.model "p" "_def.h" = .ok found ∧ found.Within whole := by
  have hwithin : Within after before := ⟨by decide +kernel, by decide +kernel⟩
  have hquiet : before.QuietHeaders := by
    unfold QuietHeaders
    decide +kernel
  obtain ⟨table, _, hmodel⟩ :=
    @exists_model before "p" "_def.h" hquiet (by decide +kernel) (by decide +kernel)
  obtain ⟨found, hfound, hless, _⟩ := deletion_outcome hwithin hmodel
  exact ⟨hwithin, _, found, hmodel, hfound, hless⟩

end EventFlow.Corpus
