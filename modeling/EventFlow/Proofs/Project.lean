import EventFlow.Project
import EventFlow.Proofs.Corpus.Gather
import EventFlow.Proofs.Corpus.Outcome

namespace EventFlow.Project

open Corpus

variable {project : Project} {files other : FileSystem} {app framework : Corpus}

-- An analysis that can read what it needs models the files of the application over those of the
-- framework.
theorem analyze_eq
    (happ : Corpus.ofApplication files (project.root.join ⟨project.appDirectory⟩) = .ok app)
    (hframework : project.frameworkCorpus files = .ok framework) :
    project.analyze files =
      ((framework.overlay app).model (project.resolvedName files) project.definitionsSuffix).map
        fun model => ⟨project.root, model, app.size, framework.size⟩ := by
  rw [analyze, happ, hframework]
  rfl

-- Where the file of the application lies that counts under a name.
def InApplication (project : Project) (files : FileSystem) (part : Part) (name : String)
    (location : Location) : Prop :=
  files.FirstAt (project.root.join ⟨project.appDirectory⟩) part.extension name location

-- Where the file of the framework lies that counts under a name.
def InFramework (project : Project) (files : FileSystem) (part : Part) (name : String)
    (location : Location) : Prop :=
  ∃ root ∈ project.frameworkRoot, part.Admits project.frameworkModules name ∧
    files.FirstAt (part.directoryOf ⟨root⟩) part.extension name location

-- A file of the framework counts only where the application has none of its name.
def Chooses (project : Project) (files : FileSystem) (part : Part) (name : String)
    (location : Location) : Prop :=
  project.InApplication files part name location ∨
    (∀ location, ¬ project.InApplication files part name location) ∧
      project.InFramework files part name location

-- What an analysis looks for is there.
structure Present (project : Project) (files : FileSystem) : Prop where
  application : files.isDirectory (project.root.join ⟨project.appDirectory⟩) = true
  framework : ∀ root ∈ project.frameworkRoot, ∀ part : Part,
    files.isDirectory (part.directoryOf ⟨root⟩) = true
  modules : ∀ root ∈ project.frameworkRoot, ∀ name ∈ project.frameworkModules, ∃ place names,
    files.Found (Framework.sourceDirectory ⟨root⟩) sourceExtension place names ∧
      names.getLast? = some name

-- No path that an analysis has to open is too long.
structure InReach (project : Project) (files : FileSystem) : Prop where
  application : ∀ part : Part,
    files.InReach (project.root.join ⟨project.appDirectory⟩) part.extension
  framework : ∀ root ∈ project.frameworkRoot, ∀ part : Part,
    files.InReach (part.directoryOf ⟨root⟩) part.extension

-- An analysis models the texts of the files that count, and tells how many files each corpus has.
def ModelsChosen (project : Project) (files : FileSystem) : Prop :=
  ∃ app framework : Corpus, app.Holds files (project.InApplication files) ∧
    framework.Holds files (project.InFramework files) ∧
    (framework.overlay app).Holds files (project.Chooses files) ∧
    project.analyze files =
      ((framework.overlay app).model (project.resolvedName files) project.definitionsSuffix).map
        fun model => ⟨project.root, model, app.size, framework.size⟩

theorem areFiles_inApplication (project : Project) (files : FileSystem) :
    AreFiles files (project.InApplication files) :=
  fun _ _ _ hchosen => hchosen.isFile

theorem areFiles_inFramework (project : Project) (files : FileSystem) :
    AreFiles files (project.InFramework files) := by
  rintro part name location ⟨_, _, _, hchosen⟩
  exact hchosen.isFile

theorem exists_frameworkCorpus (h : files.IsTree) (hpresent : project.Present files)
    (hreach : project.InReach files)
    (hmodules : project.frameworkRoot = none → project.frameworkModules = []) :
    ∃ framework, project.frameworkCorpus files = .ok framework ∧
      framework.Holds files (project.InFramework files) := by
  cases hroot : project.frameworkRoot with
  | none =>
    refine ⟨∅, ?_, fun part name text => iff_of_false ?_ ?_⟩
    · rw [frameworkCorpus, hroot, hmodules hroot]
    · cases part <;> exact Option.some_ne_none text ∘ Eq.symm
    · rintro ⟨_, _, ⟨root, hmem, _⟩, _⟩
      rw [hroot] at hmem
      cases hmem
  | some root =>
    obtain ⟨framework, hframework, hholds⟩ := exists_ofFramework h
      (hpresent.framework root hroot) (hreach.framework root hroot) (hpresent.modules root hroot)
    refine ⟨framework, ?_, ?_⟩
    · rw [frameworkCorpus, hroot]
      exact hframework
    · have hchosen : project.InFramework files = fun part name location =>
          part.Admits project.frameworkModules name ∧
            files.FirstAt (part.directoryOf ⟨root⟩) part.extension name location := by
        funext part name location
        simp [InFramework, hroot]
      rw [hchosen]
      exact hholds

-- Both corpora can be gathered, and hold what counts.
theorem exists_corpora (h : files.IsTree) (hpresent : project.Present files)
    (hreach : project.InReach files)
    (hmodules : project.frameworkRoot = none → project.frameworkModules = []) :
    ∃ app framework : Corpus, app.Holds files (project.InApplication files) ∧
      framework.Holds files (project.InFramework files) ∧
      project.analyze files =
        ((framework.overlay app).model (project.resolvedName files)
          project.definitionsSuffix).map
            fun model => ⟨project.root, model, app.size, framework.size⟩ := by
  obtain ⟨app, happ, hholds⟩ := exists_ofApplication h hpresent.application hreach.application
  obtain ⟨framework, hframework, hholds'⟩ := exists_frameworkCorpus h hpresent hreach hmodules
  exact ⟨app, framework, hholds, hholds', analyze_eq happ hframework⟩

section SameShape

variable (h : files.SameShape other)
include h

theorem inApplication_eq : project.InApplication other = project.InApplication files := by
  funext part name location
  exact propext h.firstAt_iff

theorem inFramework_eq : project.InFramework other = project.InFramework files := by
  funext part name location
  simp only [InFramework, h.firstAt_iff]

theorem present_of_sameShape (hpresent : project.Present files) : project.Present other := by
  refine ⟨h.isDirectory hpresent.application, fun root hroot part => ?_,
    fun root hroot name hname => ?_⟩
  · exact h.isDirectory (hpresent.framework root hroot part)
  · obtain ⟨place, names, hfound, hnamed⟩ := hpresent.modules root hroot name hname
    exact ⟨place, names, h.found hfound, hnamed⟩

theorem inReach_of_sameShape (hreach : project.InReach files) : project.InReach other :=
  ⟨fun part => h.inReach (hreach.application part),
    fun root hroot part => h.inReach (hreach.framework root hroot part)⟩

theorem resolvedName_eq : project.resolvedName other = project.resolvedName files := by
  simp only [resolvedName, h.nameOf?_eq]

end SameShape

-- An analysis of a tree that has what it looks for, with modules selected only in a framework and
-- no path too long, models the files that count. Nothing else of the tree, not even the order in
-- which it lists what it has, changes the outcome.
theorem analyze_modelsChosen (h : files.IsTree) (hpresent : project.Present files)
    (hreach : project.InReach files)
    (hmodules : project.frameworkRoot = none → project.frameworkModules = []) :
    project.ModelsChosen files ∧
    ∀ other : FileSystem, other.IsTree → files.SameShape other →
      (∀ part name location, project.Chooses files part name location →
        other.lookup? location = files.lookup? location) →
      project.analyze other = project.analyze files := by
  obtain ⟨app, framework, happ, hframework, hanalyze⟩ :=
    exists_corpora h hpresent hreach hmodules
  have hchosen := hframework.overlay happ (areFiles_inApplication project files)
  refine ⟨⟨app, framework, happ, hframework, hchosen, hanalyze⟩, fun other hother hshape hsame => ?_⟩
  obtain ⟨app', framework', happ', hframework', hanalyze'⟩ := exists_corpora hother
    (present_of_sameShape hshape hpresent) (inReach_of_sameShape hshape hreach) hmodules
  have hfiles := areFiles_inApplication project other
  have hfiles' := areFiles_inFramework project other
  rw [inApplication_eq hshape] at happ' hfiles
  rw [inFramework_eq hshape] at hframework' hfiles'
  have hoverlay : framework'.overlay app' = framework.overlay app :=
    Holds.eq_of_lookup? hchosen (hframework'.overlay happ' hfiles) hsame
  have happSize := happ.size_eq happ' (areFiles_inApplication project files) hfiles
  have hframeworkSize := hframework.size_eq hframework' (areFiles_inFramework project files) hfiles'
  rw [hanalyze, hanalyze', hoverlay, happSize, hframeworkSize, resolvedName_eq hshape]

theorem extension_of_chooses {part : Part} {name : String} {location : Location}
    (h : project.Chooses files part name location) :
    location.getLast?.bind Path.extension? = some part.extension := by
  rcases h with hfirst | ⟨_, _, _, _, hfirst⟩
  · exact hfirst.extension_eq
  · exact hfirst.extension_eq

-- An application with two files of one name, and a framework with a module to select.
namespace Bench

def tree : FileSystem :=
  ⟨["work"], [(["work"], .directory), (["work", "notes.txt"], .file []),
    (["work", "src"], .directory),
    (["work", "src", "lamp.c"], .file (Text.Utf8.encode "APP_EVENT_LISTENER(lamp, handle);\n")),
    (["work", "src", "a"], .directory), (["work", "src", "a", "lamp.c"], .file []),
    (["work", "nrf"], .directory), (["work", "nrf", "subsys"], .directory),
    (["work", "nrf", "subsys", "caf"], .directory),
    (["work", "nrf", "subsys", "caf", "leds.c"], .file []),
    (["work", "nrf", "include"], .directory), (["work", "nrf", "include", "caf"], .directory)]⟩

-- The same tree with other notes, listed the other way round.
def renoted : FileSystem :=
  ⟨["work"], (tree.put ["work", "notes.txt"] (.file [10])).entries.reverse⟩

def selecting : Project :=
  { root := ⟨"."⟩, frameworkRoot := some ⟨"nrf"⟩, frameworkModules := ["leds.c"] }

theorem isTree : tree.IsTree := by decide

theorem present : selecting.Present tree := by
  refine ⟨by decide, ?_, ?_⟩
  · rintro root ⟨⟩ part
    cases part <;> decide
  · rintro root ⟨⟩ name hname
    obtain rfl := List.mem_singleton.mp hname
    exact ⟨["work", "nrf", "subsys", "caf"], ["leds.c"],
      ⟨by decide, ⟨[], by decide⟩, by decide, by decide⟩, rfl⟩

theorem inReach : selecting.InReach tree := by
  refine ⟨fun part => ?_, ?_⟩
  · exact FileSystem.inReach_of_width isTree (by decide) (by decide)
  · rintro root ⟨⟩ part
    cases part <;>
      exact FileSystem.inReach_of_width isTree (by decide) (by decide)

theorem lookup?_renoted (location : Location) : renoted.lookup? location =
    (tree.put ["work", "notes.txt"] (.file [10])).lookup? location :=
  FileSystem.lookup?_perm (by decide) (List.reverse_perm _) location

theorem sameShape : tree.SameShape renoted := by
  have hput : tree.SameShape (tree.put ["work", "notes.txt"] (.file [10])) :=
    FileSystem.sameShape_put (show tree.lookup? _ = some (.file []) by decide)
  exact ⟨rfl, fun location => by rw [lookup?_renoted, hput.shape_eq]⟩

end Bench

open Bench in
theorem analyze_modelsChosen_bench :
    tree.IsTree ∧ selecting.Present tree ∧ selecting.InReach tree ∧
    (selecting.frameworkRoot = none → selecting.frameworkModules = []) ∧
    selecting.ModelsChosen tree ∧ selecting.analyze renoted = selecting.analyze tree := by
  have hmodules : selecting.frameworkRoot = none → selecting.frameworkModules = [] := by
    simp [selecting]
  obtain ⟨hmodels, hsame⟩ := analyze_modelsChosen isTree present inReach hmodules
  refine ⟨isTree, present, inReach, hmodules, hmodels, ?_⟩
  refine hsame renoted (by decide) sameShape fun part name location hchosen => ?_
  have hnotes : location ≠ ["work", "notes.txt"] := by
    rintro rfl
    have hextension := extension_of_chooses hchosen
    cases part <;> exact absurd hextension (by decide)
  by_cases hroot : location = []
  · rw [hroot, FileSystem.lookup?_root, FileSystem.lookup?_root]
  · rw [lookup?_renoted, FileSystem.lookup?_put _ _ _ _ hroot, if_neg hnotes]

-- The current directory, by a path that can be as long as one likes.
def dots : Nat → String
  | 0 => "."
  | count + 1 => "./" ++ dots count

theorem splitOn_dots (count : Nat) :
    (dots count).toList.splitOn '/' = List.replicate (count + 1) ['.'] := by
  induction count with
  | zero => decide
  | succ count ih =>
    have hcons : (dots (count + 1)).toList = ['.'] ++ '/' :: (dots count).toList := by
      simp [dots]
    rw [hcons, Path.splitOn_append_slash, ih, List.replicate_succ (n := count + 1)]
    rfl

theorem toList_dots (count : Nat) : ∃ rest, (dots count).toList = '.' :: rest := by
  cases count with
  | zero => exact ⟨[], by decide⟩
  | succ count => exact ⟨'/' :: (dots count).toList, by simp [dots]⟩

theorem segments_dots (count : Nat) :
    (Path.mk (dots count)).segments = List.replicate (count + 1) "." := by
  obtain ⟨rest, hrest⟩ := toList_dots count
  have habsolute : (Path.mk (dots count)).isAbsolute = false := by simp [Path.isAbsolute, hrest]
  rw [Path.segments, habsolute, splitOn_dots, List.map_replicate]
  rfl

theorem utf8ByteSize_dots (count : Nat) : (dots count).utf8ByteSize = 2 * count + 1 := by
  induction count with
  | zero => decide
  | succ count ih =>
    have hstep : "./".utf8ByteSize = 2 := by decide
    rw [dots, String.utf8ByteSize_append, ih, hstep]
    omega

theorem nul_dots (count : Nat) : '\x00' ∉ (dots count).toList := by
  induction count with
  | zero => decide
  | succ count ih => simp [dots, ih]

theorem resolve_dots (h : files.lookup? files.current = some .directory) {count : Nat}
    (hshort : 2 * count + 1 ≤ FileSystem.maxPath) :
    files.resolve ⟨dots count⟩ = .ok (files.current, .directory) := by
  obtain ⟨rest, hrest⟩ := toList_dots count
  have hstart : files.start ⟨dots count⟩ = .ok files.current := by
    rw [FileSystem.start_eq_ok_iff, FileSystem.origin_eq_ok_iff, utf8ByteSize_dots]
    refine ⟨⟨nul_dots count, ?_, ?_⟩, hshort⟩
    · intro hempty
      have htext : dots count = "" := hempty
      rw [htext] at hrest
      cases hrest
    · simp [Path.isAbsolute, hrest]
  refine FileSystem.resolve_eq_ok_iff.mpr ⟨files.current, hstart, ?_, h⟩
  rw [segments_dots]
  refine FileSystem.follow_idle h fun segment hsegment => ?_
  rw [List.eq_of_mem_replicate hsegment]
  rfl

-- An application with one file.
namespace Lamp

def tree : FileSystem :=
  ⟨["work"], [(["work"], .directory), (["work", "src"], .directory),
    (["work", "src", "lamp.c"], .file (Text.Utf8.encode "APP_EVENT_LISTENER(lamp, handle);\n"))]⟩

-- A module is selected although there is no framework.
def selecting : Project := { root := ⟨"."⟩, frameworkModules := ["leds.c"] }

-- The path of the file has 4098 octets.
def far : Project := { root := ⟨dots 2043⟩ }

theorem isTree : tree.IsTree := by decide

theorem isName_src : Path.IsName "src" := by decide

theorem isName_lamp : Path.IsName "lamp.c" := by decide

theorem ofApplication_of_long {directory : Path}
    (hresolve : tree.resolve directory = .ok (["work", "src"], .directory))
    (hname : directory.fileName? = some "src")
    (hlong : FileSystem.maxPath < (directory.join ⟨"lamp.c"⟩).text.utf8ByteSize) :
    ofApplication tree directory = .error
      (.unreadable (directory.join ⟨"lamp.c"⟩).text FileSystem.Fault.nameTooLong.message) := by
  have hdirectory : requireDirectory tree directory = .ok () :=
    if_pos (FileSystem.isDirectory_iff.mpr ⟨_, hresolve⟩)
  have hentered : tree.namesBelow ["work", "src"] FileSystem.isEnteredDirectory = [] := by
    decide +kernel
  have hwanted : tree.namesBelow ["work", "src"] (FileSystem.isWantedFile [sourceExtension]) =
      [["lamp.c"]] := by decide +kernel
  have hskipped : "src" ∉ FileSystem.skippedDirectories := by decide
  have hsearch : tree.search directory [sourceExtension] = .ok [directory.join ⟨"lamp.c"⟩] := by
    simp only [FileSystem.search, hresolve, hname, Option.getD_some, if_neg hskipped,
      FileSystem.unopened?, hentered, List.findSome?_nil, hwanted]
    rfl
  obtain ⟨first, hstart, _⟩ := FileSystem.resolve_eq_ok_iff.mp hresolve
  have horigin := FileSystem.origin_join (FileSystem.start_eq_ok_iff.mp hstart).1 isName_lamp
  have htexts : tree.readTexts [directory.join ⟨"lamp.c"⟩] = .error
      (.unreadable (directory.join ⟨"lamp.c"⟩).text FileSystem.Fault.nameTooLong.message) :=
    FileSystem.readTexts_cons_error (FileSystem.readText_of_long horigin hlong)
  simp only [ofApplication, hdirectory, textsBelow, hsearch, htexts, bind, Except.bind]

theorem resolve_join {root : Path} (hroot : tree.resolve root = .ok (["work"], .directory))
    (hshort : root.text.utf8ByteSize + 4 ≤ FileSystem.maxPath) :
    tree.resolve (root.join ⟨"src"⟩) = .ok (["work", "src"], .directory) := by
  have hsize : (FileSystem.pathBelow root ["src"]).text.utf8ByteSize ≤
      root.text.utf8ByteSize + ("src".utf8ByteSize + 1) := Path.size_join_le root isName_src
  have hname : "src".utf8ByteSize + 1 = 4 := by decide
  rw [hname] at hsize
  have hresolve : tree.resolve (FileSystem.pathBelow root ["src"]) =
      .ok (["work"] ++ ["src"], .directory) :=
    FileSystem.resolve_pathBelow isTree hroot (by decide) (hsize.trans hshort)
  exact hresolve

theorem utf8ByteSize_far : far.root.text.utf8ByteSize = 4087 := utf8ByteSize_dots 2043

theorem resolve_far :
    tree.resolve (far.root.join ⟨"src"⟩) = .ok (["work", "src"], .directory) := by
  refine resolve_join (resolve_dots rfl (by decide)) ?_
  rw [utf8ByteSize_far]
  decide

theorem analyze_far : far.analyze tree = .error
    (.unreadable ((far.root.join ⟨"src"⟩).join ⟨"lamp.c"⟩).text
      FileSystem.Fault.nameTooLong.message) := by
  have hsize := utf8ByteSize_far
  have hlong : FileSystem.maxPath <
      ((far.root.join ⟨"src"⟩).join ⟨"lamp.c"⟩).text.utf8ByteSize := by
    have hdirectory := Path.le_size_join far.root isName_src
    have hfile := Path.le_size_join (far.root.join ⟨"src"⟩) isName_lamp
    have hnames : "src".utf8ByteSize = 3 ∧ "lamp.c".utf8ByteSize = 6 := by decide
    have hmax : FileSystem.maxPath = 4095 := rfl
    omega
  have happ := ofApplication_of_long resolve_far (Path.fileName?_join isName_src) hlong
  have happ' : ofApplication tree (far.root.join ⟨far.appDirectory⟩) = _ := happ
  rw [analyze, happ']
  rfl

end Lamp

-- No fault of the corpus ends an analysis that cannot read it.
theorem not_modelsChosen {error : Error} (h : project.analyze files = .error error)
    (hreading : error.isIntegrity = false) : ¬ project.ModelsChosen files := by
  rintro ⟨app, framework, _, _, _, hanalyze⟩
  rw [h] at hanalyze
  cases hmodel : (framework.overlay app).model (project.resolvedName files)
      project.definitionsSuffix with
  | ok model => rw [hmodel] at hanalyze; cases hanalyze
  | error fault =>
    rw [hmodel] at hanalyze
    cases hanalyze
    rw [isIntegrity_of_model hmodel] at hreading
    cases hreading

-- An analysis does not come to the files that count when modules are selected without a framework,
-- or when the path of a file is too long.
open Lamp in
theorem not_analyze_modelsChosen :
    (tree.IsTree ∧ selecting.Present tree ∧ selecting.InReach tree ∧
      ¬ selecting.ModelsChosen tree) ∧
    (tree.IsTree ∧ far.Present tree ∧
      (far.frameworkRoot = none → far.frameworkModules = []) ∧ ¬ far.ModelsChosen tree) := by
  have hselecting : selecting.analyze tree = .error
      (.badArgument "framework modules were selected but no framework root is set") := by
    decide +kernel
  refine ⟨⟨isTree, ⟨by decide, ?_, ?_⟩, ⟨fun part => ?_, ?_⟩, ?_⟩,
    isTree, ⟨?_, ?_, ?_⟩, fun _ => rfl, ?_⟩
  · rintro root ⟨⟩
  · rintro root ⟨⟩
  · exact FileSystem.inReach_of_width isTree (by decide) (by decide)
  · rintro root ⟨⟩
  · exact not_modelsChosen hselecting rfl
  · exact FileSystem.isDirectory_iff.mpr ⟨_, resolve_far⟩
  · rintro root ⟨⟩
  · rintro root ⟨⟩
  · exact not_modelsChosen analyze_far rfl

end EventFlow.Project
