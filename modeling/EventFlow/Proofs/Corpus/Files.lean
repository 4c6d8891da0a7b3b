import EventFlow.Corpus.Analysis
import EventFlow.Proofs.Except
import EventFlow.Proofs.Names

namespace EventFlow

namespace Corpus

open Source

variable {corpus : Corpus}

-- No header has the name of a source.
def Disjoint (corpus : Corpus) : Prop :=
  ∀ name ∈ corpus.headers.keys, name ∉ corpus.sources.keys

instance (corpus : Corpus) : Decidable corpus.Disjoint :=
  inferInstanceAs (Decidable (∀ name ∈ corpus.headers.keys, name ∉ corpus.sources.keys))

def isCandidate (text : String) : Bool :=
  Listener.SourceFile.isCandidate (Stream.ofText text)

-- No header that passes for a source mentions the registration macro. A corpus with disjoint
-- names is such a one.
def QuietHeaders (corpus : Corpus) : Prop :=
  ∀ entry ∈ corpus.headers.entries, entry.1 ∈ corpus.sources.keys → isCandidate entry.2 = false

theorem Disjoint.quietHeaders (h : corpus.Disjoint) : corpus.QuietHeaders :=
  fun entry hentry hsource => absurd hsource (h entry.1 (List.mem_map_of_mem hentry))

def fileOf (corpus : Corpus) (entry : String × String) : File :=
  ⟨entry.1, corpus.sources.contains entry.1, Stream.ofText entry.2⟩

theorem scanned_perm (corpus : Corpus) :
    corpus.scanned.Perm (corpus.files.map corpus.fileOf) :=
  (List.merge_perm_append _).map corpus.fileOf

theorem mem_scanned_iff {file : File} :
    file ∈ corpus.scanned ↔ ∃ entry ∈ corpus.files, file = corpus.fileOf entry := by
  rw [corpus.scanned_perm.mem_iff, List.mem_map]
  exact exists_congr fun entry => and_congr_right' eq_comm

-- The order in which sources and headers are merged.
theorem merges_iff {a b : String × String} : (!decide (b.1 < a.1)) = true ↔ a.1 ≤ b.1 := by
  rw [Bool.not_eq_true', decide_eq_false_iff_not, not_lt]

theorem merges_trans {a b c : String × String} (hab : (!decide (b.1 < a.1)) = true)
    (hbc : (!decide (c.1 < b.1)) = true) : (!decide (c.1 < a.1)) = true :=
  merges_iff.mpr ((merges_iff.mp hab).trans (merges_iff.mp hbc))

theorem pairwise_merges (texts : NameMap String) :
    texts.entries.Pairwise (fun a b => (!decide (b.1 < a.1)) = true) :=
  texts.ascending.imp fun hlt => merges_iff.mpr hlt.le

theorem scanned_pairwise (corpus : Corpus) :
    corpus.scanned.Pairwise (fun first second => first.name ≤ second.name) := by
  have hmerged := @List.pairwise_merge (String × String) (fun a b => !decide (b.1 < a.1))
    (fun a b c => merges_trans)
    (fun a b => by rw [Bool.or_eq_true, merges_iff, merges_iff]; exact le_total a.1 b.1)
    corpus.sources.entries corpus.headers.entries
    (pairwise_merges corpus.sources) (pairwise_merges corpus.headers)
  exact List.pairwise_map.mpr (hmerged.imp fun h => merges_iff.mp h)

-- The sources that mention the registration macro, in the order of their names.
def candidates (corpus : Corpus) : List (String × String) :=
  corpus.sources.entries.filter (fun entry => isCandidate entry.2)

-- Of the files that count as sources, the candidates are the sources among them.
theorem filter_scanned (h : corpus.QuietHeaders) :
    (corpus.scanned.filter File.isSource).filter
        (fun file => Listener.SourceFile.isCandidate file.stream) =
      corpus.candidates.map corpus.fileOf := by
  rw [List.filter_filter]
  have hperm := (corpus.scanned_perm.filter (fun file =>
    Listener.SourceFile.isCandidate file.stream && file.isSource))
  have hfiles : (corpus.files.map corpus.fileOf).filter
      (fun file => Listener.SourceFile.isCandidate file.stream && file.isSource) =
      corpus.candidates.map corpus.fileOf := by
    rw [files, List.map_append, List.filter_append, List.filter_map, List.filter_map]
    have hheaders : corpus.headers.entries.filter ((fun file : File =>
        Listener.SourceFile.isCandidate file.stream && file.isSource) ∘ corpus.fileOf) = [] := by
      refine List.filter_eq_nil_iff.mpr fun entry hentry hboth => ?_
      obtain ⟨hcandidate, hsource⟩ := (Bool.and_eq_true _ _).mp hboth
      have hquiet := h entry hentry (NameMap.contains_iff.mp hsource)
      exact Bool.false_ne_true (hquiet.symm.trans hcandidate)
    have hsources : corpus.sources.entries.filter ((fun file : File =>
        Listener.SourceFile.isCandidate file.stream && file.isSource) ∘ corpus.fileOf) =
        corpus.candidates := by
      refine List.filter_congr fun entry hentry => ?_
      have hsource : corpus.sources.contains entry.1 = true :=
        NameMap.contains_iff.mpr (List.mem_map_of_mem hentry)
      simp [fileOf, isCandidate, hsource]
    rw [hheaders, hsources, List.map_nil, List.append_nil]
  rw [hfiles] at hperm
  -- both lists ascend, and no two candidates have one name
  have hcandidates : (corpus.candidates.map corpus.fileOf).Pairwise
      (fun first second => first.name ≤ second.name) :=
    List.pairwise_map.mpr ((corpus.sources.ascending.filter _).imp fun hlt => hlt.le)
  refine List.Perm.eq_of_pairwise ?_ (corpus.scanned_pairwise.filter _) hcandidates hperm
  intro first second hfirst hsecond hle hge
  obtain ⟨entry, hentry, rfl⟩ := List.mem_map.mp (hperm.mem_iff.mp hfirst)
  obtain ⟨entry', hentry', rfl⟩ := List.mem_map.mp hsecond
  have hname : entry.1 = entry'.1 := le_antisymm hle hge
  rw [List.inj_on_of_nodup_map corpus.sources.keys_nodup
    (List.mem_of_mem_filter hentry) (List.mem_of_mem_filter hentry') hname]

end Corpus

end EventFlow
