import EventFlow.Proofs.Corpus.Files
import EventFlow.Proofs.Source.Spacing

namespace EventFlow

open Source

namespace Callable

theorem inFile_unplaced (file : String) (stream : Stream) :
    inFile file stream.unplaced =
      (inFile file stream).map (NameMap.mapValues Definition.unplaced) := by
  have hnames : (definitions stream.unplaced).map Definition.name =
      (definitions stream).map Definition.name := by
    rw [definitions_unplaced, List.map_map]
    rfl
  have htable : NameMap.ofList ((definitions stream.unplaced).map fun d => (d.name, d)) =
      (NameMap.ofList ((definitions stream).map fun d => (d.name, d))).mapValues
        Definition.unplaced := by
    rw [definitions_unplaced, NameMap.mapValues_ofList, List.map_map, List.map_map]
    rfl
  rw [inFile, hnames, htable, inFile]
  split
  · rfl
  · rfl

end Callable

namespace Corpus

def File.unplaced (file : File) : File := { file with stream := file.stream.unplaced }

section Files

variable (files : List File)

-- The definitions of one file, each with the name of the file.
def readDefinitions (file : File) : Except Error (List (String × Callable.Definition)) :=
  (Callable.inFile file.name file.stream).map fun found =>
    found.values.map fun definition => (file.name, definition)

theorem readDefinitions_unplaced (file : File) :
    readDefinitions file.unplaced =
      (readDefinitions file).map (List.map fun found => (found.1, found.2.unplaced)) := by
  have hstream : Callable.inFile file.unplaced.name file.unplaced.stream =
      (Callable.inFile file.name file.stream).map
        (NameMap.mapValues Callable.Definition.unplaced) :=
    Callable.inFile_unplaced file.name file.stream
  rw [readDefinitions, hstream, readDefinitions]
  cases Callable.inFile file.name file.stream with
  | error error => rfl
  | ok found =>
    simp only [Except.map, NameMap.values, NameMap.entries_mapValues, List.map_map]
    rfl

theorem definitions_eq : definitions files =
    ((files.filter fun file => !Listener.SourceFile.isCandidate file.stream).mapM
      readDefinitions).map List.flatten := rfl

theorem definitions_unplaced :
    definitions (files.map File.unplaced) =
      (definitions files).map (List.map fun found => (found.1, found.2.unplaced)) := by
  have hquiet : ∀ file : File, Listener.SourceFile.isCandidate file.unplaced.stream =
      Listener.SourceFile.isCandidate file.stream :=
    fun file => Listener.SourceFile.isCandidate_unplaced file.stream
  have hfiles : ∀ items : List File, items.mapM (readDefinitions ∘ File.unplaced) =
      (items.mapM readDefinitions).map
        (List.map (List.map fun found => (found.1, found.2.unplaced))) :=
    fun items => mapM_eq_map fun file _ => readDefinitions_unplaced file
  rw [definitions_eq, List.filter_map, List.mapM_map, hfiles, definitions_eq]
  simp only [Function.comp_def, hquiet]
  cases (files.filter fun file => !Listener.SourceFile.isCandidate file.stream).mapM
      readDefinitions with
  | error error => rfl
  | ok perFile => simp only [Except.map, List.map_flatten]

theorem callables_unplaced : callables (files.map File.unplaced) = callables files := by
  rw [callables, definitions_unplaced, callables]
  cases definitions files with
  | error error => rfl
  | ok found =>
    simp only [Except.map, bind, Except.bind, List.map_map, List.filter_map, Function.comp_def]
    rfl

theorem listenerFiles_unplaced (suffix : String) :
    listenerFiles suffix (files.map File.unplaced) = listenerFiles suffix files := by
  have hread : ∀ file : File,
      Listener.SourceFile.ofStream? suffix file.unplaced.name file.unplaced.stream =
        Listener.SourceFile.ofStream? suffix file.name file.stream :=
    fun file => Listener.SourceFile.ofStream?_unplaced suffix file.name file.stream
  rw [listenerFiles, List.filter_map, List.mapM_map, listenerFiles]
  simp only [Function.comp_def, hread]
  rfl

end Files

variable {corpus other : Corpus}

-- What a text says, wherever in it the words stand.
def said (text : String) : Stream := (Stream.ofText text).unplaced

theorem scanned_unplaced (corpus : Corpus) :
    corpus.scanned.map File.unplaced =
      ((corpus.sources.mapValues said).entries.merge (corpus.headers.mapValues said).entries
        (fun a b => !decide (b.1 < a.1))).map fun entry =>
          ⟨entry.1, (corpus.sources.mapValues said).contains entry.1, entry.2⟩ := by
  have hmerge := @List.map_merge (String × String) (String × Stream)
    (fun entry => (entry.1, said entry.2)) (fun a b => !decide (b.1 < a.1))
    (fun a b => !decide (b.1 < a.1)) corpus.sources.entries corpus.headers.entries
    fun _ _ _ _ => rfl
  rw [NameMap.entries_mapValues, NameMap.entries_mapValues, ← hmerge, scanned, List.map_map,
    List.map_map]
  simp only [Function.comp_def, NameMap.contains_mapValues]
  rfl

-- Corpora whose texts say the same have one model, and fail with one error.
theorem model_congr (hsources : corpus.sources.mapValues said = other.sources.mapValues said)
    (hheaders : corpus.headers.mapValues said = other.headers.mapValues said)
    (project suffix : String) : corpus.model project suffix = other.model project suffix := by
  have hscanned : corpus.scanned.map File.unplaced = other.scanned.map File.unplaced := by
    rw [scanned_unplaced, scanned_unplaced, hsources, hheaders]
  have hcallables : callables corpus.scanned = callables other.scanned := by
    rw [← callables_unplaced, hscanned, callables_unplaced]
  have hlisteners : listenerFiles suffix corpus.scanned = listenerFiles suffix other.scanned := by
    rw [← listenerFiles_unplaced, hscanned, listenerFiles_unplaced]
  rw [model, hcallables, hlisteners, model]

-- A comment is a space to the reader of the text, and so to the reader of a corpus, in whichever
-- file it stands.
theorem comment_eq_space {before comment : String} (hbefore : Complete before)
    (hcomment : ¬ ['*', '/'] <:+: comment.toList) (behind : String) :
    (Stream.ofText (before ++ "/*" ++ comment ++ "*/" ++ behind)).unplaced =
      (Stream.ofText (before ++ " " ++ behind)).unplaced ∧
    ∀ (corpus : Corpus) (file project suffix : String),
      (corpus.sources.get? file = some (before ++ "/*" ++ comment ++ "*/" ++ behind) →
        ({ corpus with sources := corpus.sources.insert file (before ++ " " ++ behind) } :
          Corpus).model project suffix = corpus.model project suffix) ∧
      (corpus.headers.get? file = some (before ++ "/*" ++ comment ++ "*/" ++ behind) →
        ({ corpus with headers := corpus.headers.insert file (before ++ " " ++ behind) } :
          Corpus).model project suffix = corpus.model project suffix) := by
  have hsaid : (Stream.ofText (before ++ "/*" ++ comment ++ "*/" ++ behind)).unplaced =
      (Stream.ofText (before ++ " " ++ behind)).unplaced :=
    Stream.unplaced_comment hbefore hcomment behind
  refine ⟨hsaid, fun corpus file project suffix => ⟨fun hfile => ?_, fun hfile => ?_⟩⟩
  · refine model_congr ?_ ?_ project suffix
    · exact NameMap.mapValues_insert_of_eq hfile hsaid.symm
    · rfl
  · refine model_congr ?_ ?_ project suffix
    · rfl
    · exact NameMap.mapValues_insert_of_eq hfile hsaid.symm

-- A definition that a comment cuts in two, right behind a word. The comment takes two lines and
-- holds quotes, marks of other comments and a registration.
namespace Cut

def before : String := "int x;\n#define SEND \\\n new_a"

def comment : String := " \" // #\nEVENT_LISTENER(m, h); ' /* **"

def behind : String := "_event()\n"

def commented : Corpus :=
  ⟨∅, NameMap.ofList [("a.h", before ++ "/*" ++ comment ++ "*/" ++ behind)]⟩

end Cut

open Cut in
theorem comment_eq_space_cut :
    Complete before ∧ ¬ ['*', '/'] <:+: comment.toList ∧
    (Stream.ofText (before ++ "/*" ++ comment ++ "*/" ++ behind)).unplaced =
      (Stream.ofText (before ++ " " ++ behind)).unplaced ∧
    (Stream.ofText (before ++ "/*" ++ comment ++ "*/" ++ behind)).directives =
      [⟨"#define SEND new_a _event()", 2, 3, 10⟩] ∧
    commented.headers.get? "a.h" = some (before ++ "/*" ++ comment ++ "*/" ++ behind) ∧
    (⟨∅, commented.headers.insert "a.h" (before ++ " " ++ behind)⟩ : Corpus).model "p" "_def.h" =
      commented.model "p" "_def.h" := by
  have hbefore : Complete before := by decide +kernel
  have hcomment : ¬ ['*', '/'] <:+: comment.toList := by decide +kernel
  have hfile : commented.headers.get? "a.h" =
      some (before ++ "/*" ++ comment ++ "*/" ++ behind) := by decide +kernel
  obtain ⟨hsaid, hmodel⟩ := comment_eq_space hbefore hcomment behind
  exact ⟨hbefore, hcomment, hsaid, by decide +kernel, hfile,
    (hmodel commented "a.h" "p" "_def.h").2 hfile⟩

end Corpus

end EventFlow
