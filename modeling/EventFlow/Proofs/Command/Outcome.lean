import EventFlow.Command.Outcome
import EventFlow.Proofs.Command.Invocation
import EventFlow.Proofs.Corpus.Outcome
import EventFlow.Proofs.FileSystem.Write
import EventFlow.Proofs.Project
import EventFlow.Proofs.Report.Documents

namespace EventFlow.Invocation

variable {invocation : Invocation} {files made : FileSystem} {model : Model}
  {options : Report.Options} {words : List String}

-- What files do that are written one after the other, each in its own spot.
structure Written (spot : Path → Location) (writings : List (Path × String))
    (before after : FileSystem) : Prop where
  receives : ∀ {path place name}, before.Receives path place name →
    after.Receives path place name
  stands : ∀ writing ∈ writings,
    after.lookup? (spot writing.1) = some (.file (Text.Utf8.encode writing.2))
  others : ∀ location ∉ writings.map (fun writing => spot writing.1),
    after.lookup? location = before.lookup? location

theorem writeAll_eq {spot : Path → Location} {writings : List (Path × String)}
    (hreceives : ∀ writing ∈ writings, ∃ place name, spot writing.1 = place ++ [name] ∧
      files.Receives writing.1 place name)
    (hdistinct : (writings.map fun writing => spot writing.1).Nodup) :
    ∃ after, writeAll files writings = (after, none) ∧ Written spot writings files after := by
  induction writings generalizing files with
  | nil => exact ⟨files, rfl, id, fun _ hmem => absurd hmem List.not_mem_nil, fun _ _ => rfl⟩
  | cons writing rest ih =>
    obtain ⟨path, text⟩ := writing
    rw [List.forall_mem_cons] at hreceives
    rw [List.map_cons, List.nodup_cons] at hdistinct
    obtain ⟨⟨place, name, hspot, hpath⟩, hrest⟩ := hreceives
    have hput : ∀ {path' place' name'}, files.Receives path' place' name' →
        (files.put (place ++ [name]) (.file (Text.Utf8.encode text))).Receives path' place' name' :=
      fun h => h.put hpath.free
    obtain ⟨after, hafter, hwritten⟩ := ih (fun writing hmem =>
      let ⟨place', name', hspot', hwriting⟩ := hrest writing hmem
      ⟨place', name', hspot', hput hwriting⟩) hdistinct.2
    refine ⟨after, ?_, fun h => hwritten.receives (hput h), ?_, ?_⟩
    · rw [writeAll, hpath.write_eq]
      exact hafter
    · rw [List.forall_mem_cons]
      refine ⟨?_, hwritten.stands⟩
      rw [hwritten.others _ hdistinct.1, hspot, FileSystem.lookup?_put _ _ _ _ (by simp), if_pos rfl]
    · intro location hother
      rw [List.map_cons, List.mem_cons, not_or] at hother
      rw [hwritten.others location hother.2]
      by_cases hroot : location = []
      · rw [hroot, FileSystem.lookup?_root, FileSystem.lookup?_root]
      · rw [FileSystem.lookup?_put _ _ _ _ hroot, if_neg (hspot ▸ hother.1)]

-- Whether both documents can be written, in a directory that is made where it is missing.
structure CanPublish (invocation : Invocation) (files made : FileSystem) : Prop where
  makes : files.makeDirectories invocation.documentDirectory = (made, none)
  writes : ∀ name ∈ [Report.propagationFile, Report.indexFile], ∃ octets written,
    made.write (invocation.documentDirectory.join ⟨name⟩) octets = .ok written

-- Each document stands in its file, and besides these files only directories are new.
structure Published (invocation : Invocation) (documents : List (String × String))
    (before after : FileSystem) : Prop where
  stands : ∀ document ∈ documents, ∃ location,
    after.resolve (invocation.documentDirectory.join ⟨document.1⟩) =
      .ok (location, .file (Text.Utf8.encode document.2))
  others : ∀ location, (∀ document ∈ documents, ∀ entry,
      after.resolve (invocation.documentDirectory.join ⟨document.1⟩) ≠ .ok (location, entry)) →
    after.lookup? location = before.lookup? location ∨
      before.lookup? location = none ∧ after.lookup? location = some .directory

theorem writings_eq (hdot : invocation.dotFile = none) (graph : Graph)
    (documents : List (String × String)) : invocation.writings graph documents =
      documents.map fun document =>
        (invocation.documentDirectory.join ⟨document.1⟩, document.2) := by
  simp [writings, hdot]

namespace CanPublish

variable {documents : List (String × String)} (h : invocation.CanPublish files made)
  (hnames : documents.map Prod.fst = [Report.propagationFile, Report.indexFile])
include h hnames

theorem receives {document : String × String} (hdocument : document ∈ documents) : ∃ place,
    made.Receives (invocation.documentDirectory.join ⟨document.1⟩) place document.1 := by
  have hname : document.1 ∈ [Report.propagationFile, Report.indexFile] :=
    hnames ▸ List.mem_map_of_mem hdocument
  have hproper : ∀ name ∈ [Report.propagationFile, Report.indexFile], Path.IsName name := by
    decide
  obtain ⟨octets, written, hwrite⟩ := h.writes document.1 hname
  exact FileSystem.Receives.of_write (hproper _ hname) (Path.segments_join (hproper _ hname)) hwrite

-- The names at the end tell the spots apart.
theorem spots_nodup : (documents.map fun document =>
    made.spot (invocation.documentDirectory.join ⟨document.1⟩)).Nodup := by
  have hlasts : (documents.map fun document =>
      made.spot (invocation.documentDirectory.join ⟨document.1⟩)).map List.getLast? =
        (documents.map Prod.fst).map some := by
    rw [List.map_map, List.map_map]
    refine List.map_congr_left fun document hdocument => ?_
    obtain ⟨place, hplace⟩ := h.receives hnames hdocument
    simp [hplace.spot_eq]
  have hnodup : ((documents.map Prod.fst).map some).Nodup := by
    rw [hnames]
    decide
  exact List.Nodup.of_map _ (hlasts ▸ hnodup)

theorem exists_written (hdot : invocation.dotFile = none) (graph : Graph) : ∃ after,
    writeAll made (invocation.writings graph documents) = (after, none) ∧
      Written made.spot (invocation.writings graph documents) made after := by
  rw [writings_eq hdot]
  refine writeAll_eq (fun writing hwriting => ?_) ?_
  · obtain ⟨document, hdocument, rfl⟩ := List.mem_map.mp hwriting
    obtain ⟨place, hplace⟩ := h.receives hnames hdocument
    exact ⟨place, document.1, hplace.spot_eq, hplace⟩
  · rw [List.map_map]
    exact h.spots_nodup hnames

-- Both documents are written one after the other, and the second one does not touch the first.
theorem publish (hdot : invocation.dotFile = none) (graph : Graph) :
    ∃ after, invocation.publish graph documents files = (after, none) ∧
      invocation.Published documents files after := by
  obtain ⟨after, hafter, hwritten⟩ := h.exists_written hnames hdot graph
  have hstands : ∀ document ∈ documents,
      after.resolve (invocation.documentDirectory.join ⟨document.1⟩) =
        .ok (made.spot (invocation.documentDirectory.join ⟨document.1⟩),
          .file (Text.Utf8.encode document.2)) := by
    intro document hdocument
    obtain ⟨place, hplace⟩ := h.receives hnames hdocument
    have hfile := hwritten.stands (invocation.documentDirectory.join ⟨document.1⟩, document.2)
      (by rw [writings_eq hdot]; exact List.mem_map_of_mem hdocument)
    rw [hplace.spot_eq] at hfile ⊢
    exact (hwritten.receives hplace).resolve_eq hfile
  have hgrown : files.Grown made := by
    have hgrown := FileSystem.grown_makeDirectories files invocation.documentDirectory
    rwa [h.makes] at hgrown
  refine ⟨after, ?_, fun document hdocument => ⟨_, hstands document hdocument⟩, ?_⟩
  · rw [Invocation.publish, h.makes]
    exact hafter
  · intro location hother
    have hlocation : location ∉ (invocation.writings graph documents).map fun writing =>
        made.spot writing.1 := by
      rw [writings_eq hdot, List.map_map, List.mem_map]
      rintro ⟨document, hdocument, rfl⟩
      exact hother document hdocument _ (hstands document hdocument)
    rw [hwritten.others location hlocation]
    exact hgrown.kept location

end CanPublish

theorem exists_documents (model : Model) (options : Report.Options) :
    ∃ propagation index, Report.documents (Graph.ofModel model) options =
      .ok [(Report.propagationFile, propagation), (Report.indexFile, index)] := by
  obtain ⟨tables, _, hsections⟩ := Report.exists_tables fun name hname =>
    Report.exists_rendered model options hname
  refine ⟨Report.document (Report.propagationParts (Graph.ofModel model) options tables),
    Report.indexDocument (Graph.ofModel model) options, ?_⟩
  rw [Report.documents, Report.propagationDocument_eq hsections]
  rfl

theorem listenerTable_unknown {name : String} (h : name ∉ (Graph.ofModel model).listeners) :
    Report.listenerTable (Graph.ofModel model) options name = .error (.unknownListener name) := by
  have hheard : (Graph.ofModel model).inEvents name = .error (.unknownListener name) := by
    rw [Graph.inEvents, Graph.known, if_neg h]
    rfl
  rw [Report.listenerTable, Report.columns, hheard]
  rfl

-- A run that has failed before it wrote anything.
structure Refused (files : FileSystem) (outcome : Outcome) : Prop where
  exitCode_ne : outcome.exitCode ≠ 0
  files_eq : outcome.files = files

-- The graph in the DOT language as it is printed when it is asked for.
def dotText (invocation : Invocation) (model : Model) : String :=
  if invocation.dot then (Graph.ofModel model).dot ++ "\n" else ""

-- A run that has written both documents of a model. It prints the model, or the table of a
-- listener, which is all that is missing, with code one, when the listener is not known.
structure Completed (invocation : Invocation) (model : Model) (options : Report.Options)
    (before : FileSystem) (outcome : Outcome) : Prop where
  published : ∃ propagation index, Report.documents (Graph.ofModel model) options =
      .ok [(Report.propagationFile, propagation), (Report.indexFile, index)] ∧
    invocation.Published [(Report.propagationFile, propagation), (Report.indexFile, index)]
      before outcome.files
  failure_eq : outcome.failure = none
  whole : invocation.listener = none → outcome.exitCode = 0 ∧
    outcome.output = (if invocation.json then model.jsonReport ++ "\n" else model.summary) ++
      invocation.dotText model
  known : ∀ name ∈ (Graph.ofModel model).listeners, invocation.listener = some name →
    ∃ table, Report.listenerTable (Graph.ofModel model) options name = .ok table ∧
      outcome.exitCode = 0 ∧ outcome.output = table ++ "\n" ++ invocation.dotText model
  unknown : ∀ name ∉ (Graph.ofModel model).listeners, invocation.listener = some name →
    outcome.exitCode = 1 ∧ outcome.output = invocation.dotText model

theorem outcomeOf_completed (hdot : invocation.dotFile = none)
    (h : invocation.CanPublish files made) (model : Model) (options : Report.Options) :
    invocation.Completed model options files (invocation.outcomeOf model options files) := by
  obtain ⟨propagation, index, hdocuments⟩ := exists_documents model options
  have hnames : [(Report.propagationFile, propagation), (Report.indexFile, index)].map Prod.fst =
      [Report.propagationFile, Report.indexFile] := rfl
  obtain ⟨after, hpublish, hpublished⟩ := h.publish hnames hdot (Graph.ofModel model)
  have hprinted : invocation.printedDot (Graph.ofModel model) = invocation.dotText model := by
    simp [printedDot, dotText, hdot]
  have houtcome : invocation.outcomeOf model options files =
      ⟨if invocation.report? model options = none then 1 else 0,
        (invocation.report? model options).getD "" ++ invocation.dotText model, none, after⟩ := by
    simp only [outcomeOf, hdocuments, hpublish, hprinted]
  rw [houtcome]
  refine ⟨⟨propagation, index, hdocuments, hpublished⟩, rfl, ?_, ?_, ?_⟩
  · intro hlistener
    simp [report?, hlistener]
  · intro name hname hlistener
    obtain ⟨table, _, _, hrendered⟩ := Report.exists_rendered model options hname
    refine ⟨table, hrendered.table_eq, ?_⟩
    simp [report?, hlistener, hrendered.table_eq, Except.map, Except.toOption]
  · intro name hname hlistener
    simp [report?, hlistener, listenerTable_unknown hname, Except.map, Except.toOption]

-- What is printed does not change what is written.
theorem files_run_plain (invocation : Invocation) (base : Option Path) (files : FileSystem) :
    (invocation.plain.run base files).files = (invocation.run base files).files := by
  have hsettings : invocation.plain.settings files = invocation.settings files := rfl
  have hproject : invocation.plain.project = invocation.project := rfl
  have hoptions : invocation.plain.options = invocation.options := rfl
  have hpublish : invocation.plain.publish = invocation.publish := rfl
  rw [run, run, hsettings, hproject, hoptions]
  cases invocation.settings files with
  | error failure => rfl
  | ok config =>
    simp only
    cases (invocation.project config base).analyze files with
    | error error => rfl
    | ok analysis =>
      simp only [outcomeOf, hpublish]
      cases Report.documents (Graph.ofModel analysis.model) (invocation.options config) with
      | error error => rfl
      | ok documents =>
        simp only
        obtain ⟨after, _ | failure⟩ :=
          invocation.publish (Graph.ofModel analysis.model) documents files
        · rfl
        · rfl

-- A run without a file for the graph either fails before it writes anything, or it writes both
-- documents of the model whenever it can. What is to be printed, be it for a listener that nobody
-- knows, does not change what is written.
theorem run_ofWords (hwords : ofWords words = .ok invocation) (hdot : invocation.dotFile = none)
    (base : Option Path) (files : FileSystem) :
    (∀ failure, invocation.settings files = .error failure →
      Refused files (invocation.run base files)) ∧
    (∀ config error, invocation.settings files = .ok config →
      (invocation.project config base).analyze files = .error error →
      Refused files (invocation.run base files)) ∧
    (∀ config analysis made, invocation.settings files = .ok config →
      (invocation.project config base).analyze files = .ok analysis →
      invocation.CanPublish files made →
      invocation.Completed analysis.model (invocation.options config) files
        (invocation.run base files)) ∧
    ∀ others other, ofWords others = .ok other → lasting others = lasting words →
      (other.run base files).files = (invocation.run base files).files := by
  refine ⟨fun failure hsettings => ?_, fun config error hsettings hanalyze => ?_,
    fun config analysis made hsettings hanalyze hpublish => ?_, fun others other hothers hsame => ?_⟩
  · rw [run, hsettings]
    exact ⟨Nat.one_ne_zero, rfl⟩
  · simp only [run, hsettings, hanalyze]
    exact ⟨Nat.one_ne_zero, rfl⟩
  · simp only [run, hsettings, hanalyze]
    exact outcomeOf_completed hdot hpublish analysis.model (invocation.options config)
  · rw [← files_run_plain other, plain_eq_of_lasting hwords hothers hsame, files_run_plain]

-- An application with one listener, and a run that asks for another one.
namespace Lamp

def source : String :=
  "APP_EVENT_LISTENER(lamp, handle);\nAPP_EVENT_SUBSCRIBE(lamp, power_event);\n"

def tree : FileSystem :=
  ⟨["work"], [(["work"], .directory), (["work", "src"], .directory),
    (["work", "src", "lamp.c"], .file (Text.Utf8.encode source))]⟩

def documented : FileSystem := tree.put ["work", "doc"] .directory

def command : List String := ["--listener", "ghost", "--dot"]

def asked : Invocation := { listener := some "ghost", dot := true }

def corpus : Corpus := ⟨NameMap.ofList [("lamp.c", source)], ∅⟩

theorem exists_analysis :
    ∃ analysis, (asked.project none none).analyze tree = .ok analysis := by
  have happ : Corpus.ofApplication tree ((asked.project none none).root.join
      ⟨(asked.project none none).appDirectory⟩) = .ok corpus := by decide +kernel
  have hframework : (asked.project none none).frameworkCorpus tree = .ok ∅ := rfl
  have hoverlay : (∅ : Corpus).overlay corpus = corpus := by decide
  have hdisjoint : corpus.Disjoint := by decide
  obtain ⟨model, hmodel⟩ := (corpus.model_eq_ok_iff
    ((asked.project none none).resolvedName tree) "_def.h" hdisjoint).mpr
    ⟨by decide +kernel, by decide +kernel⟩
  refine ⟨⟨⟨"."⟩, model, corpus.size, 0⟩, ?_⟩
  rw [Project.analyze_eq happ hframework, hoverlay]
  exact congrArg (Except.map _) hmodel

theorem canPublish : asked.CanPublish tree documented := by
  refine ⟨by decide, ?_⟩
  rw [List.forall_mem_cons, List.forall_mem_singleton]
  exact ⟨⟨[], documented.put ["work", "doc", Report.propagationFile] (.file []), by decide⟩,
    ⟨[], documented.put ["work", "doc", Report.indexFile] (.file []), by decide⟩⟩

end Lamp

open Lamp in
theorem run_ofWords_lamp :
    ofWords command = .ok asked ∧ asked.dotFile = none ∧ asked.settings tree = .ok none ∧
    (∃ analysis, (asked.project none none).analyze tree = .ok analysis ∧
      asked.CanPublish tree documented ∧
      asked.Completed analysis.model (asked.options none) tree (asked.run none tree)) ∧
    (({} : Invocation).run none tree).files = (asked.run none tree).files ∧
    Refused ⟨["work"], []⟩ (asked.run none ⟨["work"], []⟩) := by
  have hwords : ofWords command = .ok asked := by decide
  have hsettings : asked.settings tree = .ok none := by decide
  obtain ⟨analysis, hanalysis⟩ := exists_analysis
  obtain ⟨_, _, hcompleted, hsame⟩ := run_ofWords hwords rfl none tree
  obtain ⟨_, hrefused, _⟩ := run_ofWords hwords rfl none ⟨["work"], []⟩
  refine ⟨hwords, rfl, hsettings, ⟨analysis, hanalysis, canPublish, ?_⟩, ?_, ?_⟩
  · exact hcompleted none analysis documented hsettings hanalysis canPublish
  · exact hsame [] {} (by decide) (by decide)
  · refine hrefused none (.badArgument "./src is not a directory") ?_ ?_
    · decide
    · decide

end EventFlow.Invocation
