import EventFlow.Corpus.Analysis
import EventFlow.Proofs.Listener
import Mathlib.Data.List.Induction

namespace EventFlow

namespace Listener

def HasTier (listener : Listener) (tier : Tier) : Prop :=
  ∃ events, listener.inEvents.get tier = some events

theorem ext_mem {left right : Listener} (hname : left.name = right.name)
    (htier : ∀ tier, left.HasTier tier ↔ right.HasTier tier)
    (hin : ∀ tier event, left.Declares tier event ↔ right.Declares tier event)
    (hout : ∀ event, event ∈ left.outEvents ↔ event ∈ right.outEvents)
    (hdefinitions : ∀ file, file ∈ left.definitionFiles ↔ file ∈ right.definitionFiles)
    (hfiles : ∀ file, file ∈ left.files ↔ file ∈ right.files) : left = right := by
  have hevents : left.inEvents = right.inEvents := by
    apply PerTier.ext_get
    intro tier
    have ht := htier tier
    have hd := hin tier
    simp only [HasTier, Declares] at ht hd
    cases hl : left.inEvents.get tier with
    | none =>
      cases hr : right.inEvents.get tier with
      | none => rfl
      | some events => simp [hl, hr] at ht
    | some events =>
      cases hr : right.inEvents.get tier with
      | none => simp [hl, hr] at ht
      | some events' =>
        refine congrArg some (NameSet.ext fun event => ?_)
        simpa [hl, hr] using hd event
  cases left
  cases right
  simp only at hname hevents hout hdefinitions hfiles
  subst hname hevents
  rw [NameSet.ext hout, NameSet.ext hdefinitions, NameSet.ext hfiles]

theorem hasTier_merge {first second : Listener} {tier : Tier} :
    (first.merge second).HasTier tier ↔ first.HasTier tier ∨ second.HasTier tier := by
  simp only [HasTier, merge, PerTier.get_ofFn]
  cases second.inEvents.get tier with
  | none => simp
  | some events => simp

theorem declares_merge {first second : Listener} {tier : Tier} {event : String} :
    (first.merge second).Declares tier event ↔
      first.Declares tier event ∨ second.Declares tier event := by
  rw [← mem_declared_iff, ← mem_declared_iff]
  simp only [declared, Declares, merge, PerTier.get_ofFn]
  cases second.inEvents.get tier with
  | none => simp
  | some events => simp

-- The listener is what all the parts say together, each field the union of theirs.
structure IsUnion (parts : List Listener) (listener : Listener) : Prop where
  name_eq : ∀ part ∈ parts, part.name = listener.name
  hasTier_iff : ∀ tier, listener.HasTier tier ↔ ∃ part ∈ parts, part.HasTier tier
  declares_iff : ∀ tier event,
    listener.Declares tier event ↔ ∃ part ∈ parts, part.Declares tier event
  mem_outEvents_iff : ∀ event, event ∈ listener.outEvents ↔ ∃ part ∈ parts, event ∈ part.outEvents
  mem_definitionFiles_iff : ∀ file,
    file ∈ listener.definitionFiles ↔ ∃ part ∈ parts, file ∈ part.definitionFiles
  mem_files_iff : ∀ file, file ∈ listener.files ↔ ∃ part ∈ parts, file ∈ part.files

namespace IsUnion

variable {parts others : List Listener} {listener other : Listener}

theorem single (listener : Listener) : IsUnion [listener] listener where
  name_eq part h := by rw [List.mem_singleton.mp h]
  hasTier_iff tier := by simp
  declares_iff tier event := by simp
  mem_outEvents_iff event := by simp
  mem_definitionFiles_iff file := by simp
  mem_files_iff file := by simp

theorem merge (h : IsUnion parts listener) (h' : IsUnion others other)
    (hname : listener.name = other.name) : IsUnion (parts ++ others) (listener.merge other) where
  name_eq part hpart := by
    cases List.mem_append.mp hpart with
    | inl hmem => exact h.name_eq part hmem
    | inr hmem => exact (h'.name_eq part hmem).trans hname.symm
  hasTier_iff tier := by
    simp only [hasTier_merge, h.hasTier_iff, h'.hasTier_iff, List.mem_append, or_and_right,
      exists_or]
  declares_iff tier event := by
    simp only [declares_merge, h.declares_iff, h'.declares_iff, List.mem_append, or_and_right,
      exists_or]
  mem_outEvents_iff event := by
    simp only [Listener.merge, NameSet.mem_union, h.mem_outEvents_iff, h'.mem_outEvents_iff,
      List.mem_append, or_and_right, exists_or]
  mem_definitionFiles_iff file := by
    simp only [Listener.merge, NameSet.mem_union, h.mem_definitionFiles_iff,
      h'.mem_definitionFiles_iff, List.mem_append, or_and_right, exists_or]
  mem_files_iff file := by
    simp only [Listener.merge, NameSet.mem_union, h.mem_files_iff, h'.mem_files_iff,
      List.mem_append, or_and_right, exists_or]

-- Neither order nor repeats of the parts matter.
theorem congr (h : IsUnion parts listener) (hmem : ∀ part, part ∈ parts ↔ part ∈ others) :
    IsUnion others listener := by
  have hparts : ∀ p : Listener → Prop, (∃ part ∈ parts, p part) ↔ ∃ part ∈ others, p part :=
    fun p => exists_congr fun part => and_congr_left' (hmem part)
  exact
    { name_eq := fun part hpart => h.name_eq part ((hmem part).mpr hpart)
      hasTier_iff := fun tier => (h.hasTier_iff tier).trans (hparts _)
      declares_iff := fun tier event => (h.declares_iff tier event).trans (hparts _)
      mem_outEvents_iff := fun event => (h.mem_outEvents_iff event).trans (hparts _)
      mem_definitionFiles_iff := fun file => (h.mem_definitionFiles_iff file).trans (hparts _)
      mem_files_iff := fun file => (h.mem_files_iff file).trans (hparts _) }

theorem unique (h : IsUnion parts listener) (h' : IsUnion parts other) (hne : parts ≠ []) :
    listener = other := by
  obtain ⟨part, hpart⟩ := List.exists_mem_of_ne_nil parts hne
  apply ext_mem
  · rw [← h.name_eq part hpart, h'.name_eq part hpart]
  · intro tier
    rw [h.hasTier_iff, h'.hasTier_iff]
  · intro tier event
    rw [h.declares_iff, h'.declares_iff]
  · intro event
    rw [h.mem_outEvents_iff, h'.mem_outEvents_iff]
  · intro file
    rw [h.mem_definitionFiles_iff, h'.mem_definitionFiles_iff]
  · intro file
    rw [h.mem_files_iff, h'.mem_files_iff]

end IsUnion

-- A way to merge records two at a time, in some order and with some nesting.
inductive Grouping where
  | one (listener : Listener)
  | both (first second : Grouping)

namespace Grouping

def parts : Grouping → List Listener
  | one listener => [listener]
  | both first second => first.parts ++ second.parts

def merged : Grouping → Listener
  | one listener => listener
  | both first second => first.merged.merge second.merged

theorem merged_name (grouping : Grouping) {name : String}
    (h : ∀ part ∈ grouping.parts, part.name = name) : grouping.merged.name = name := by
  induction grouping with
  | one listener => exact h listener (List.mem_singleton.mpr rfl)
  | both first second ihf ihs => exact ihf fun part hpart => h part (List.mem_append_left _ hpart)

theorem isUnion_merged (grouping : Grouping) {name : String}
    (h : ∀ part ∈ grouping.parts, part.name = name) :
    IsUnion grouping.parts grouping.merged := by
  induction grouping with
  | one listener => exact IsUnion.single listener
  | both first second ihf ihs =>
    have hf : ∀ part ∈ first.parts, part.name = name :=
      fun part hpart => h part (List.mem_append_left _ hpart)
    have hs : ∀ part ∈ second.parts, part.name = name :=
      fun part hpart => h part (List.mem_append_right _ hpart)
    exact (ihf hf).merge (ihs hs) ((merged_name first hf).trans (merged_name second hs).symm)

end Grouping

end Listener

namespace Corpus

open Listener

-- The map holds under each name what the parts of that name say together.
def Collects (parts : List Listener) (listeners : NameMap Listener) : Prop :=
  ∀ name, match listeners.get? name with
    | none => ∀ part ∈ parts, part.name ≠ name
    | some listener =>
      listener.name = name ∧ (∃ part ∈ parts, part.name = name) ∧
        IsUnion (parts.filter (fun part => part.name = name)) listener

theorem Collects.addListener {parts : List Listener} {listeners : NameMap Listener}
    (h : Collects parts listeners) (listener : Listener) :
    Collects (parts ++ [listener]) (addListener listeners listener) := by
  intro name
  have hname := h name
  by_cases heq : name = listener.name
  · subst heq
    have hlast : (parts ++ [listener]).filter (fun part => part.name = listener.name) =
        parts.filter (fun part => part.name = listener.name) ++ [listener] := by
      simp [List.filter_append]
    cases hget : listeners.get? listener.name with
    | none =>
      rw [hget] at hname
      have hnil : parts.filter (fun part => part.name = listener.name) = [] := by
        simpa [List.filter_eq_nil_iff] using hname
      have hadded : (Corpus.addListener listeners listener).get? listener.name =
          some listener := by
        simp [Corpus.addListener, hget]
      rw [hadded]
      refine ⟨rfl, ⟨listener, by simp, rfl⟩, ?_⟩
      rw [hlast, hnil, List.nil_append]
      exact IsUnion.single listener
    | some present =>
      rw [hget] at hname
      have hadded : (Corpus.addListener listeners listener).get? listener.name =
          some (present.merge listener) := by
        simp [Corpus.addListener, hget]
      rw [hadded]
      refine ⟨hname.1, ⟨listener, by simp, rfl⟩, ?_⟩
      rw [hlast]
      exact hname.2.2.merge (IsUnion.single listener) hname.1
  · have hget : (Corpus.addListener listeners listener).get? name = listeners.get? name := by
      unfold Corpus.addListener
      split <;> rw [NameMap.get?_insert, if_neg heq]
    have hlast : (parts ++ [listener]).filter (fun part => part.name = name) =
        parts.filter (fun part => part.name = name) := by
      simp [List.filter_append, Ne.symm heq]
    rw [hget]
    cases hvalue : listeners.get? name with
    | none =>
      rw [hvalue] at hname
      simpa [or_imp, forall_and, Ne.symm heq] using hname
    | some present =>
      rw [hvalue] at hname
      obtain ⟨part, hpart, hsame⟩ := hname.2.1
      exact ⟨hname.1, ⟨part, List.mem_append_left _ hpart, hsame⟩, hlast ▸ hname.2.2⟩

-- Adding records one after the other collects them all.
theorem collects_foldl (parts : List Listener) : Collects parts (parts.foldl addListener ∅) := by
  induction parts using List.reverseRecOn with
  | nil =>
    intro name
    simp
  | append_singleton parts listener ih =>
    rw [List.foldl_append, List.foldl_cons, List.foldl_nil]
    exact ih.addListener listener

variable {parts others : List Listener} {listeners found : NameMap Listener}

theorem Collects.perm (h : Collects parts listeners) (hperm : parts.Perm others) :
    Collects others listeners := by
  intro name
  have hname := h name
  cases hget : listeners.get? name with
  | none =>
    rw [hget] at hname
    exact fun part hpart => hname part (hperm.mem_iff.mpr hpart)
  | some listener =>
    rw [hget] at hname
    obtain ⟨hsame, ⟨part, hpart, hpartName⟩, hunion⟩ := hname
    refine ⟨hsame, ⟨part, hperm.mem_iff.mp hpart, hpartName⟩, ?_⟩
    exact hunion.congr fun part => (hperm.filter _).mem_iff

theorem Collects.unique (h : Collects parts listeners) (h' : Collects parts found) :
    listeners = found := by
  refine NameMap.ext fun name => ?_
  have hleft := h name
  have hright := h' name
  cases hget : listeners.get? name with
  | none =>
    rw [hget] at hleft
    cases hget' : found.get? name with
    | none => rfl
    | some listener =>
      rw [hget'] at hright
      obtain ⟨_, ⟨part, hpart, hname⟩, _⟩ := hright
      exact absurd hname (hleft part hpart)
  | some listener =>
    rw [hget] at hleft
    obtain ⟨_, ⟨part, hpart, hname⟩, hunion⟩ := hleft
    cases hget' : found.get? name with
    | none =>
      rw [hget'] at hright
      exact absurd hname (hright part hpart)
    | some other =>
      rw [hget'] at hright
      have hmem : part ∈ parts.filter (fun part => part.name = name) :=
        List.mem_filter.mpr ⟨hpart, decide_eq_true hname⟩
      rw [hunion.unique hright.2.2 (List.ne_nil_of_mem hmem)]

-- Records may be added in any order.
theorem foldl_addListener_perm (hperm : parts.Perm others) :
    parts.foldl addListener ∅ = others.foldl addListener ∅ :=
  ((collects_foldl parts).perm hperm).unique (collects_foldl others)

end Corpus

end EventFlow
