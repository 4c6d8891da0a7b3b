import EventFlow.Proofs.Listener.Merge

namespace EventFlow.Listener

variable {name : String} {parts others : List Listener} {tier : Tier} {event : String}

theorem merge_assoc (first second third : Listener) :
    (first.merge second).merge third = first.merge (second.merge third) := by
  apply ext_mem
  · rfl
  · intro tier
    simp only [hasTier_merge, or_assoc]
  · intro tier event
    simp only [declares_merge, or_assoc]
  · intro event
    simp only [merge, NameSet.mem_union, or_assoc]
  · intro file
    simp only [merge, NameSet.mem_union, or_assoc]
  · intro file
    simp only [merge, NameSet.mem_union, or_assoc]

theorem merge_comm {first second : Listener} (h : first.name = second.name) :
    first.merge second = second.merge first := by
  have hfirst := (IsUnion.single first).merge (IsUnion.single second) h
  have hsecond := (IsUnion.single second).merge (IsUnion.single first) h.symm
  exact hfirst.unique (hsecond.congr fun part => by simp [or_comm]) (List.cons_ne_nil _ _)

theorem merge_self (listener : Listener) : listener.merge listener = listener := by
  have htwice := (IsUnion.single listener).merge (IsUnion.single listener) rfl
  exact (htwice.congr fun part => by simp).unique (IsUnion.single listener) (List.cons_ne_nil _ _)

-- How records of one name behave under merging.
structure MergeLaws (name : String) : Prop where
  assoc : ∀ first second third : Listener, first.name = name → second.name = name →
    third.name = name → (first.merge second).merge third = first.merge (second.merge third)
  comm : ∀ first second : Listener, first.name = name → second.name = name →
    first.merge second = second.merge first
  self : ∀ listener : Listener, listener.name = name → listener.merge listener = listener

theorem mergeLaws (name : String) : MergeLaws name where
  assoc first second third _ _ _ := merge_assoc first second third
  comm _ _ hfirst hsecond := merge_comm (hfirst.trans hsecond.symm)
  self listener _ := merge_self listener

-- The records merged, one after the other, into the one of a name that nothing is known about.
def mergeAll (name : String) (parts : List Listener) : Listener := parts.foldl merge (blank name)

theorem hasTier_blank : (blank name).HasTier tier := ⟨∅, PerTier.get_ofFn _ _⟩

theorem not_declares_blank : ¬ (blank name).Declares tier event := by
  simp [Declares, blank]

theorem isUnion_mergeAll (h : ∀ part ∈ parts, part.name = name) :
    IsUnion (blank name :: parts) (mergeAll name parts) := by
  induction parts using List.reverseRecOn with
  | nil => exact IsUnion.single (blank name)
  | append_singleton parts part ih =>
    have hparts : ∀ other ∈ parts, other.name = name :=
      fun other hother => h other (List.mem_append_left _ hother)
    have hpart : part.name = name := h part (List.mem_append_right _ (List.mem_singleton.mpr rfl))
    have hunion := ih hparts
    have hname : (mergeAll name parts).name = part.name :=
      (hunion.name_eq _ List.mem_cons_self).symm.trans hpart.symm
    rw [mergeAll, List.foldl_append, ← List.cons_append]
    exact hunion.merge (IsUnion.single part) hname

theorem declares_mergeAll (h : ∀ part ∈ parts, part.name = name) :
    (mergeAll name parts).Declares tier event ↔ ∃ part ∈ parts, part.Declares tier event := by
  rw [(isUnion_mergeAll h).declares_iff, List.exists_mem_cons_iff,
    or_iff_right not_declares_blank]

-- The earliest tier of all the records together. It may be earlier than that of one of them.
theorem declaresFirst_mergeAll (h : ∀ part ∈ parts, part.name = name) :
    (mergeAll name parts).DeclaresFirst tier event ↔
      (∃ part ∈ parts, part.Declares tier event) ∧
        ∀ earlier : Tier, earlier.rank < tier.rank → ∀ part ∈ parts,
          ¬ part.Declares earlier event := by
  simp only [DeclaresFirst, declares_mergeAll h, not_exists, not_and]

theorem mem_events_mergeAll (h : ∀ part ∈ parts, part.name = name) :
    event ∈ (mergeAll name parts).events ↔ ∃ part ∈ parts, event ∈ part.events := by
  have hout : event ∈ (mergeAll name parts).outEvents ↔ ∃ part ∈ parts, event ∈ part.outEvents := by
    rw [(isUnion_mergeAll h).mem_outEvents_iff, List.exists_mem_cons_iff]
    exact or_iff_right (NameSet.not_mem_empty event)
  simp only [mem_events_iff, declares_mergeAll h, hout]
  constructor
  · rintro (⟨tier, part, hpart, hdeclares⟩ | ⟨part, hpart, hevent⟩)
    · exact ⟨part, hpart, .inl ⟨tier, hdeclares⟩⟩
    · exact ⟨part, hpart, .inr hevent⟩
  · rintro ⟨part, hpart, ⟨tier, hdeclares⟩ | hevent⟩
    · exact .inl ⟨tier, part, hpart, hdeclares⟩
    · exact .inr ⟨part, hpart, hevent⟩

-- The record is all that the parts say of the name, however they are put together.
structure IsJoin (name : String) (parts : List Listener) (whole : Listener) : Prop where
  name_eq : whole.name = name
  perm_eq : ∀ others : List Listener, others.Perm parts → mergeAll name others = whole
  -- neither the nesting counts, nor the place of the first record, nor a part that comes twice
  grouping_eq : ∀ grouping : Grouping,
    (∀ part, part ∈ grouping.parts ↔ part = blank name ∨ part ∈ parts) → grouping.merged = whole
  hasTier : ∀ tier, whole.HasTier tier
  -- an event is heard at the earliest tier for which any part declares it, and only there
  mem_heard_iff : ∀ tier event, event ∈ whole.heard.get tier ↔
    (∃ part ∈ parts, part.Declares tier event) ∧
      ∀ earlier : Tier, earlier.rank < tier.rank → ∀ part ∈ parts, ¬ part.Declares earlier event
  existsUnique_heard : ∀ event, (∃ tier, ∃ part ∈ parts, part.Declares tier event) →
    ∃! tier, event ∈ whole.heard.get tier
  not_heard : ∀ event, (∀ tier, ∀ part ∈ parts, ¬ part.Declares tier event) →
    ∀ tier, event ∉ whole.heard.get tier
  heard_union : ∀ event,
    (∃ tier, event ∈ whole.heard.get tier) ↔ ∃ tier, event ∈ whole.declared tier
  events_union : ∀ event, event ∈ whole.events ↔ ∃ part ∈ parts, event ∈ part.events

theorem mergeAll_perm (h : ∀ part ∈ parts, part.name = name) (hperm : others.Perm parts) :
    mergeAll name others = mergeAll name parts := by
  have hothers : ∀ part ∈ others, part.name = name :=
    fun part hpart => h part (hperm.mem_iff.mp hpart)
  have hunion : IsUnion (blank name :: parts) (mergeAll name others) :=
    (isUnion_mergeAll hothers).congr fun part => (hperm.cons (blank name)).mem_iff
  exact hunion.unique (isUnion_mergeAll h) (List.cons_ne_nil _ _)

theorem merged_eq_mergeAll (h : ∀ part ∈ parts, part.name = name) {grouping : Grouping}
    (hparts : ∀ part, part ∈ grouping.parts ↔ part = blank name ∨ part ∈ parts) :
    grouping.merged = mergeAll name parts := by
  have hmem : ∀ part, part ∈ grouping.parts ↔ part ∈ blank name :: parts :=
    fun part => (hparts part).trans List.mem_cons.symm
  have hnames : ∀ part ∈ grouping.parts, part.name = name := by
    intro part hpart
    rcases (hparts part).mp hpart with rfl | hpart
    · rfl
    · exact h part hpart
  exact ((grouping.isUnion_merged hnames).congr hmem).unique (isUnion_mergeAll h)
    (List.cons_ne_nil _ _)

-- Merging is a join, and in what is joined every event is served at its earliest tier.
theorem mergeAll_isJoin (h : ∀ part ∈ parts, part.name = name) :
    MergeLaws name ∧ IsJoin name parts (mergeAll name parts) := by
  have hheard : ∀ tier event, event ∈ (mergeAll name parts).heard.get tier ↔
      (mergeAll name parts).DeclaresFirst tier event := fun tier event => mem_heard_iff
  refine ⟨mergeLaws name, ?_, fun others => mergeAll_perm h,
    fun grouping => merged_eq_mergeAll h, fun tier => ?_, fun tier event => ?_, fun event => ?_,
    fun event => ?_, fun event => ?_, fun event => mem_events_mergeAll h⟩
  · exact ((isUnion_mergeAll h).name_eq _ List.mem_cons_self).symm
  · exact ((isUnion_mergeAll h).hasTier_iff tier).mpr ⟨_, List.mem_cons_self, hasTier_blank⟩
  · rw [hheard, declaresFirst_mergeAll h]
  · rintro ⟨tier, hdeclares⟩
    obtain ⟨first, _, hfirst⟩ := exists_declaresFirst ((declares_mergeAll h).mpr hdeclares)
    refine ⟨first, (hheard first event).mpr hfirst, fun other hother => ?_⟩
    have hother := tierOf?_eq_some_iff.mpr ((hheard other event).mp hother)
    exact Option.some.inj (hother.symm.trans (tierOf?_eq_some_iff.mpr hfirst))
  · intro hnone tier hmem
    obtain ⟨part, hpart, hdeclares⟩ := (declares_mergeAll h).mp ((hheard tier event).mp hmem).1
    exact hnone tier part hpart hdeclares
  · constructor
    · rintro ⟨tier, hmem⟩
      exact ⟨tier, mem_declared_iff.mpr ((hheard tier event).mp hmem).1⟩
    · rintro ⟨tier, hmem⟩
      obtain ⟨first, _, hfirst⟩ := exists_declaresFirst (mem_declared_iff.mp hmem)
      exact ⟨first, (hheard first event).mpr hfirst⟩

-- Two records of a lamp. The second one moves an event to an earlier tier.
def lampParts : List Listener :=
  [⟨"lamp", ⟨none, some (.ofList ["power_event"]), some (.ofList ["key_event"])⟩,
      .ofList ["lamp_event"], ∅, .ofList ["lamp.c"]⟩,
    ⟨"lamp", ⟨some (.ofList ["power_event"]), none, some ∅⟩, ∅, .ofList ["lamp_def.h"],
      .ofList ["lamp_power.c"]⟩]

theorem mergeAll_isJoin_lamp : (∀ part ∈ lampParts, part.name = "lamp") ∧
    (MergeLaws "lamp" ∧ IsJoin "lamp" lampParts (mergeAll "lamp" lampParts)) ∧
    (mergeAll "lamp" lampParts).heard =
      ⟨.ofList ["power_event"], ∅, .ofList ["key_event"]⟩ := by
  have hnames : ∀ part ∈ lampParts, part.name = "lamp" := by decide
  exact ⟨hnames, mergeAll_isJoin hnames, by decide +kernel⟩

end EventFlow.Listener
