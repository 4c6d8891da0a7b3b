import EventFlow.Proofs.Corpus.Unplaced
import EventFlow.Proofs.Source.LineEnd

namespace EventFlow

open Source

namespace Corpus

-- What a text says and on which lines, but not at which octets.
def reading (text : String) : Stream := (Stream.ofText text).withoutOffsets

theorem said_eq (text : String) : said text = (reading text).unplaced := by
  rw [said, reading, Stream.unplaced, Stream.unplaced, Stream.withoutOffsets, List.map_map]
  rfl

-- A text with the line ends it has, or with a return in front of each.
def HasLineEnds (text other : String) : Prop := other = text ∨ other = returned text

-- The same files, each with line ends of either kind.
structure Converted (corpus other : Corpus) : Prop where
  sources : ∀ name, Option.Rel HasLineEnds (corpus.sources.get? name) (other.sources.get? name)
  headers : ∀ name, Option.Rel HasLineEnds (corpus.headers.get? name) (other.headers.get? name)

theorem reading_eq {text other : String} (h : Unbroken text) (hother : HasLineEnds text other) :
    reading other = reading text := by
  rcases hother with rfl | rfl
  · rfl
  · exact h.withoutOffsets_returned

theorem mapValues_reading {texts others : NameMap String}
    (h : ∀ entry ∈ texts.entries, Unbroken entry.2)
    (hothers : ∀ name, Option.Rel HasLineEnds (texts.get? name) (others.get? name)) :
    others.mapValues reading = texts.mapValues reading := by
  refine NameMap.ext fun name => ?_
  rw [NameMap.get?_mapValues, NameMap.get?_mapValues]
  have hname := hothers name
  have htext : ∀ text, texts.get? name = some text → Unbroken text :=
    fun text hget => h (name, text) (NameMap.mem_entries_iff.mpr hget)
  generalize texts.get? name = text at hname htext
  generalize others.get? name = other at hname
  cases hname with
  | none => rfl
  | some hends =>
    rw [Option.map_some, Option.map_some, reading_eq (htext _ rfl) hends]

theorem mapValues_said {texts others : NameMap String}
    (h : others.mapValues reading = texts.mapValues reading) :
    others.mapValues said = texts.mapValues said := by
  have hsaid : said = fun text => (reading text).unplaced := funext said_eq
  refine NameMap.ext fun name => ?_
  have hname := congrArg (NameMap.get? · name) h
  simp only [NameMap.get?_mapValues] at hname ⊢
  rw [hsaid]
  have hmap := congrArg (Option.map Stream.unplaced) hname
  simpa only [Option.map_map, Function.comp_def] using hmap

-- Returns in front of line ends change no token, line or preprocessor line of any file, and
-- so neither the model nor the error.
theorem Converted.result_eq {corpus other : Corpus} (h : Converted corpus other)
    (hunbroken : ∀ file ∈ corpus.files, Unbroken file.2) :
    other.sources.mapValues reading = corpus.sources.mapValues reading ∧
      other.headers.mapValues reading = corpus.headers.mapValues reading ∧
      ∀ project suffix, other.model project suffix = corpus.model project suffix := by
  have hsources : other.sources.mapValues reading = corpus.sources.mapValues reading :=
    mapValues_reading (fun file hfile => hunbroken file (List.mem_append_left _ hfile)) h.sources
  have hheaders : other.headers.mapValues reading = corpus.headers.mapValues reading :=
    mapValues_reading (fun file hfile => hunbroken file (List.mem_append_right _ hfile)) h.headers
  exact ⟨hsources, hheaders, model_congr (mapValues_said hsources) (mapValues_said hheaders)⟩

-- A source and two headers with every kind of line end: behind a line comment, a backslash, a
-- directive and code, and within a comment. The source and one of the headers are converted.
namespace Mixed

def module : String := "#include \"b_def.h\" // of m\nEVENT_LISTENER(m, h);\n"

def header : String := "#define A 'a' /* \\\n\" */ \\\n new_a_event() // \\\nint x;\n"

def definitions : String := "void send(void)\n\x7b\n new_b_event();\n\x7d"

def corpus : Corpus :=
  ⟨NameMap.ofList [("m.c", module)], NameMap.ofList [("a.h", header), ("b.h", definitions)]⟩

def converted : Corpus :=
  ⟨corpus.sources.mapValues returned, corpus.headers.insert "a.h" (returned header)⟩

theorem converts : Converted corpus converted where
  sources name := by
    rw [converted, NameMap.get?_mapValues]
    cases corpus.sources.get? name with
    | none => exact .none
    | some text => exact .some (.inr rfl)
  headers name := by
    have hheader : corpus.headers.get? "a.h" = some header := by decide +kernel
    rw [converted, NameMap.get?_insert]
    split
    · rename_i hname
      rw [hname, hheader]
      exact .some (.inr rfl)
    · cases corpus.headers.get? name with
      | none => exact .none
      | some text => exact .some (.inl rfl)

end Mixed

open Mixed in
theorem result_eq_mixed :
    Converted corpus converted ∧ (∀ file ∈ corpus.files, Unbroken file.2) ∧
    converted.files ≠ corpus.files ∧
    (reading (returned header)).directives = [⟨"#define A 'a' new_a_event()", 1, 0, 7⟩] ∧
    converted.sources.mapValues reading = corpus.sources.mapValues reading ∧
    converted.headers.mapValues reading = corpus.headers.mapValues reading ∧
    converted.model "p" "_def.h" = corpus.model "p" "_def.h" := by
  have hunbroken : ∀ file ∈ corpus.files, Unbroken file.2 := by decide +kernel
  obtain ⟨hsources, hheaders, hmodel⟩ := converts.result_eq hunbroken
  exact ⟨converts, hunbroken, by decide +kernel, by decide +kernel, hsources, hheaders,
    hmodel "p" "_def.h"⟩

end Corpus

end EventFlow
