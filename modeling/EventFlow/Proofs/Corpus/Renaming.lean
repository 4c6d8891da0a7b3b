import EventFlow.Proofs.Corpus.Duplicates
import EventFlow.Proofs.Listener.Merge

namespace EventFlow

open Source

variable (rename : String → String)

def Callable.renamed (callable : Callable) : Callable :=
  { callable with file := rename callable.file }

def Listener.renamed (listener : Listener) : Listener :=
  { listener with files := NameSet.ofList (listener.files.toList.map rename) }

-- The model with other names of the files it mentions.
def Model.renamed (model : Model) : Model :=
  { model with
    callables := model.callables.mapValues (Callable.renamed rename)
    listeners := model.listeners.mapValues (Listener.renamed rename) }

namespace Listener

theorem mem_files_renamed {listener : Listener} {file : String} :
    file ∈ (listener.renamed rename).files ↔ ∃ old ∈ listener.files, rename old = file := by
  rw [renamed, NameSet.mem_ofList, List.mem_map]
  rfl

theorem merge_renamed (first second : Listener) :
    (first.renamed rename).merge (second.renamed rename) =
      (first.merge second).renamed rename := by
  have hfiles : ((first.renamed rename).merge (second.renamed rename)).files =
      ((first.merge second).renamed rename).files := by
    refine NameSet.ext fun file => ?_
    simp only [merge, NameSet.mem_union, mem_files_renamed, or_and_right, exists_or]
  exact congrArg (fun files => { first.merge second with files := files }) hfiles

namespace SourceFile

def renamed (source : SourceFile) : SourceFile := { source with file := rename source.file }

theorem listener_renamed (source : SourceFile) (callables : List Callable) :
    (source.renamed rename).listener (callables.map (Callable.renamed rename)) =
      (source.listener callables).renamed rename := by
  have hevents : ((source.renamed rename).listener
      (callables.map (Callable.renamed rename))).outEvents =
      (source.listener callables).outEvents := by
    rw [listener, List.filter_map, List.foldl_map]
    rfl
  exact congrArg (fun events =>
    { (source.listener callables).renamed rename with outEvents := events }) hevents

theorem resolve_congr {file name resolved : String} {stream : Stream}
    (h : resolve file stream name = .ok resolved) (other : String) :
    resolve other stream name = .ok resolved := by
  rw [resolve_eq] at h ⊢
  generalize replacements stream name = texts at h
  rcases texts with _ | ⟨replacement, _ | ⟨second, more⟩⟩
  · exact h
  · exact h
  · cases h

-- A text says the same of its listener in whichever file it stands.
theorem ofStream?_congr {suffix file : String} {stream : Stream} {found : Option SourceFile}
    (h : ofStream? suffix file stream = .ok found) (other : String) :
    ofStream? suffix other stream =
      .ok (found.map fun source => { source with file := other }) := by
  unfold ofStream? at h ⊢
  split
  · rename_i hcandidate
    rw [if_pos hcandidate] at h
    split at h
    · rename_i registered _
      cases hresolve : resolve file stream registered with
      | error error =>
        rw [hresolve] at h
        cases h
      | ok name =>
        rw [hresolve] at h
        cases h
        rw [resolve_congr hresolve other]
        rfl
    · cases h
  · rename_i hquiet
    rw [if_neg hquiet] at h
    cases h
    rfl

end SourceFile

end Listener

namespace Corpus

variable {rename} {corpus other : Corpus} {suffix project : String}

-- The other corpus has the same texts under other names, sources as sources and headers as
-- headers. Since it holds no name twice, no two files are given one name.
structure Renames (rename : String → String) (corpus other : Corpus) : Prop where
  sources : other.sources.entries.Perm
    (corpus.sources.entries.map fun entry => (rename entry.1, entry.2))
  headers : other.headers.entries.Perm
    (corpus.headers.entries.map fun entry => (rename entry.1, entry.2))

theorem readEntry_rename (entry : String × String) :
    readEntry suffix (rename entry.1, entry.2) =
      (readEntry suffix entry).map (Listener.SourceFile.renamed rename) := by
  unfold readEntry
  dsimp only
  cases hread : Listener.SourceFile.ofStream? suffix entry.1 (Stream.ofText entry.2) with
  | ok found =>
    rw [Listener.SourceFile.ofStream?_congr hread]
    cases found with
    | none => rfl
    | some source =>
      have hfile : source.file = entry.1 := Listener.SourceFile.file_of_ofStream? hread
      rw [← hfile]
      rfl
  | error error =>
    cases hother : Listener.SourceFile.ofStream? suffix (rename entry.1)
        (Stream.ofText entry.2) with
    | ok found =>
      rw [Listener.SourceFile.ofStream?_congr hother] at hread
      cases hread
    | error other => rfl

theorem foldl_addListener_renamed (parts : List Listener) :
    (parts.map (Listener.renamed rename)).foldl addListener ∅ =
      (parts.foldl addListener ∅).mapValues (Listener.renamed rename) := by
  have hstep : ∀ (listeners : NameMap Listener) (listener : Listener),
      addListener (listeners.mapValues (Listener.renamed rename)) (listener.renamed rename) =
        (addListener listeners listener).mapValues (Listener.renamed rename) := by
    intro listeners listener
    have hname : (listener.renamed rename).name = listener.name := rfl
    rw [addListener, hname, NameMap.get?_mapValues, addListener]
    cases listeners.get? listener.name with
    | none => exact (NameMap.mapValues_insert _ _ _ _).symm
    | some present =>
      rw [NameMap.mapValues_insert, ← Listener.merge_renamed]
      rfl
  rw [List.foldl_map]
  exact @List.foldl_hom _ _ _ (NameMap.mapValues (Listener.renamed rename)) addListener
    (fun listeners part => addListener listeners (part.renamed rename)) parts ∅ hstep

theorem exists_duplicate_iff :
    (∃ name places, corpus.model project suffix = .error (.duplicateCallable name places)) ↔
      ¬ corpus.Unambiguous := by
  constructor
  · rintro ⟨name, places, hmodel⟩ hunambiguous
    obtain ⟨table, hok, _⟩ := callables_eq_ok (Corpus.unambiguous_iff.mp hunambiguous)
    rw [callables_of_collision (model_eq_duplicate_iff.mp hmodel)] at hok
    cases hok
  · exact model_eq_duplicate

namespace Renames

variable (h : Renames rename corpus other)

include h

theorem files : other.files.Perm
    (corpus.files.map fun entry => (rename entry.1, entry.2)) := by
  rw [Corpus.files, Corpus.files, List.map_append]
  exact h.sources.append h.headers

theorem eventDefinitions : other.eventDefinitions.Perm
    (corpus.eventDefinitions.map fun found => (rename found.1, found.2)) := by
  refine (h.files.flatMap_right _).trans (List.Perm.of_eq ?_)
  rw [List.flatMap_map, Corpus.eventDefinitions, List.map_flatMap]
  refine List.flatMap_congr fun entry _ => ?_
  dsimp only
  split
  · rfl
  · rw [List.map_map]
    rfl

theorem unambiguous_iff : other.Unambiguous ↔ corpus.Unambiguous := by
  have hnames := h.eventDefinitions.map fun found => found.2.name
  rw [List.map_map] at hnames
  exact hnames.nodup_iff

theorem registered_iff : other.Registered ↔ corpus.Registered := by
  constructor
  · intro hother entry hentry hcandidate
    have hrenamed : (rename entry.1, entry.2) ∈ other.sources.entries :=
      h.sources.mem_iff.mpr (List.mem_map.mpr ⟨entry, hentry, rfl⟩)
    exact hother (rename entry.1, entry.2) hrenamed hcandidate
  · intro hcorpus entry hentry hcandidate
    obtain ⟨old, hold, rfl⟩ := List.mem_map.mp (h.sources.mem_iff.mp hentry)
    exact hcorpus old hold hcandidate

theorem fragments (suffix : String) : (other.fragments suffix).Perm
    ((corpus.fragments suffix).map (Listener.SourceFile.renamed rename)) := by
  refine (h.sources.filterMap _).trans (List.Perm.of_eq ?_)
  rw [List.filterMap_map, Corpus.fragments, List.map_filterMap]
  exact List.filterMap_congr fun entry _ => readEntry_rename entry

theorem table_eq {table : NameMap Callable}
    (htable : ∀ name callable, table.get? name = some callable ↔
      ∃ found ∈ corpus.eventDefinitions, name = found.2.name ∧ callable = callableOf found)
    {table' : NameMap Callable}
    (htable' : ∀ name callable, table'.get? name = some callable ↔
      ∃ found ∈ other.eventDefinitions, name = found.2.name ∧ callable = callableOf found) :
    table' = table.mapValues (Callable.renamed rename) := by
  refine NameMap.ext fun name => Option.ext fun callable => ?_
  rw [NameMap.get?_mapValues, Option.map_eq_some_iff, htable']
  constructor
  · rintro ⟨found, hfound, hname, rfl⟩
    obtain ⟨old, hold, rfl⟩ := List.mem_map.mp (h.eventDefinitions.mem_iff.mp hfound)
    exact ⟨callableOf old, (htable name _).mpr ⟨old, hold, hname, rfl⟩, rfl⟩
  · rintro ⟨callable, hcallable, rfl⟩
    obtain ⟨old, hold, hname, rfl⟩ := (htable name callable).mp hcallable
    exact ⟨_, h.eventDefinitions.mem_iff.mpr (List.mem_map_of_mem hold), hname, rfl⟩

-- Under other names of the files a corpus has the same model, with these names in it.
theorem model_renamed (hdisjoint : corpus.Disjoint) (hother : other.Disjoint) {model : Model}
    (hmodel : corpus.model project suffix = .ok model) :
    other.model project suffix = .ok (model.renamed rename) := by
  obtain ⟨hunambiguous, hregistered⟩ :=
    (model_eq_ok_iff project suffix hdisjoint).mp ⟨model, hmodel⟩
  obtain ⟨table, htable, hok⟩ :=
    @exists_model corpus project suffix hdisjoint.quietHeaders hunambiguous hregistered
  obtain ⟨table', htable', hok'⟩ := @exists_model other project suffix hother.quietHeaders
    (h.unambiguous_iff.mpr hunambiguous) (h.registered_iff.mpr hregistered)
  obtain rfl := Except.ok.inj (hmodel.symm.trans hok)
  obtain rfl := h.table_eq htable htable'
  have hvalues : (table.mapValues (Callable.renamed rename)).values =
      table.values.map (Callable.renamed rename) := by
    rw [NameMap.values, NameMap.entries_mapValues, NameMap.values, List.map_map, List.map_map]
    rfl
  have hparts : ((other.fragments suffix).map fun source =>
      source.listener (table.values.map (Callable.renamed rename))).Perm
      (((corpus.fragments suffix).map fun source =>
        source.listener table.values).map (Listener.renamed rename)) := by
    refine ((h.fragments suffix).map _).trans (List.Perm.of_eq ?_)
    rw [List.map_map, List.map_map]
    exact List.map_congr_left fun source _ =>
      Listener.SourceFile.listener_renamed rename source table.values
  rw [hok', hvalues, foldl_addListener_perm hparts, foldl_addListener_renamed]
  rfl

end Renames

-- The names of the files, and so the order in which they are read, do not matter: there is a
-- model for either corpus or for none, the two differ in the names of the files only, and where
-- a name has two definitions both say so.
theorem renaming_outcome (h : Renames rename corpus other) (hdisjoint : corpus.Disjoint)
    (hother : other.Disjoint) (project suffix : String) :
    ((∃ model, other.model project suffix = .ok model) ↔
      ∃ model, corpus.model project suffix = .ok model) ∧
    (∀ model, corpus.model project suffix = .ok model →
      other.model project suffix = .ok (model.renamed rename)) ∧
    ((∃ name places, other.model project suffix = .error (.duplicateCallable name places)) ↔
      ∃ name places, corpus.model project suffix = .error (.duplicateCallable name places)) := by
  refine ⟨?_, fun model => h.model_renamed hdisjoint hother, ?_⟩
  · rw [model_eq_ok_iff project suffix hother, model_eq_ok_iff project suffix hdisjoint,
      h.unambiguous_iff, h.registered_iff]
  · rw [exists_duplicate_iff, exists_duplicate_iff, h.unambiguous_iff]

-- The two sources of a listener exchange their texts, and the one with the callable, which was
-- the first, becomes the last.
namespace Exchange

def before : Corpus :=
  ⟨NameMap.ofList
    [("a.c", "void send(void) { new_x_event(); }\n"),
     ("m.c", "EVENT_LISTENER(m, h);\nvoid f(void) { send(); }\n"),
     ("n.c", "#define MODULE m\nEVENT_LISTENER(MODULE, h);\nEVENT_SUBSCRIBE(MODULE, e);\n")],
   NameMap.ofList [("a.h", "#define SEND_Y new_y_event()\n")]⟩

def after : Corpus :=
  ⟨NameMap.ofList
    [("m.c", "#define MODULE m\nEVENT_LISTENER(MODULE, h);\nEVENT_SUBSCRIBE(MODULE, e);\n"),
     ("n.c", "EVENT_LISTENER(m, h);\nvoid f(void) { send(); }\n"),
     ("z.c", "void send(void) { new_x_event(); }\n")],
   NameMap.ofList [("a.h", "#define SEND_Y new_y_event()\n")]⟩

def swap (name : String) : String :=
  if name = "m.c" then "n.c"
  else if name = "n.c" then "m.c"
  else if name = "a.c" then "z.c"
  else name

end Exchange

open Exchange in
theorem renaming_outcome_exchange :
    Renames swap before after ∧ before.Disjoint ∧ after.Disjoint ∧
    before.sources.get? "m.c" = after.sources.get? "n.c" ∧
    ∃ model, before.model "p" "_def.h" = .ok model ∧
      after.model "p" "_def.h" = .ok (model.renamed swap) := by
  have hrenames : Renames swap before after := ⟨by decide +kernel, by decide +kernel⟩
  have hbefore : before.Disjoint := by decide +kernel
  have hafter : after.Disjoint := by decide +kernel
  obtain ⟨model, hmodel⟩ := (model_eq_ok_iff "p" "_def.h" hbefore).mpr
    ⟨by decide +kernel, by decide +kernel⟩
  obtain ⟨_, hsame, _⟩ := renaming_outcome hrenames hbefore hafter "p" "_def.h"
  exact ⟨hrenames, hbefore, hafter, by decide +kernel, model, hmodel, hsame model hmodel⟩

end Corpus

end EventFlow
