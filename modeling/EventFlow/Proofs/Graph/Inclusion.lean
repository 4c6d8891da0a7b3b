import EventFlow.Proofs.Graph.Edges
import EventFlow.Proofs.Listener.Pool

namespace EventFlow

namespace Listener

-- The first record says nothing of the listener that the second does not say.
structure Within (part whole : Listener) : Prop where
  name_eq : part.name = whole.name
  declared : ∀ tier, ∀ event ∈ part.declared tier, event ∈ whole.declared tier
  outEvents : ∀ event ∈ part.outEvents, event ∈ whole.outEvents
  definitionFiles : ∀ file ∈ part.definitionFiles, file ∈ whole.definitionFiles
  files : ∀ file ∈ part.files, file ∈ whole.files

-- What is put together from less says less.
theorem IsUnion.within {parts others : List Listener} {part whole : Listener}
    (h : IsUnion parts part) (h' : IsUnion others whole) (hname : part.name = whole.name)
    (hparts : ∀ item ∈ parts, ∃ other ∈ others, item.Within other) : part.Within whole where
  name_eq := hname
  declared tier event hevent := by
    obtain ⟨item, hitem, hdeclares⟩ := (h.declares_iff tier event).mp (mem_declared_iff.mp hevent)
    obtain ⟨other, hother, hwithin⟩ := hparts item hitem
    have hmem := hwithin.declared tier event (mem_declared_iff.mpr hdeclares)
    exact mem_declared_iff.mpr
      ((h'.declares_iff tier event).mpr ⟨other, hother, mem_declared_iff.mp hmem⟩)
  outEvents event hevent := by
    obtain ⟨item, hitem, hmem⟩ := (h.mem_outEvents_iff event).mp hevent
    obtain ⟨other, hother, hwithin⟩ := hparts item hitem
    exact (h'.mem_outEvents_iff event).mpr ⟨other, hother, hwithin.outEvents event hmem⟩
  definitionFiles file hfile := by
    obtain ⟨item, hitem, hmem⟩ := (h.mem_definitionFiles_iff file).mp hfile
    obtain ⟨other, hother, hwithin⟩ := hparts item hitem
    exact (h'.mem_definitionFiles_iff file).mpr ⟨other, hother, hwithin.definitionFiles file hmem⟩
  files file hfile := by
    obtain ⟨item, hitem, hmem⟩ := (h.mem_files_iff file).mp hfile
    obtain ⟨other, hother, hwithin⟩ := hparts item hitem
    exact (h'.mem_files_iff file).mpr ⟨other, hother, hwithin.files file hmem⟩

-- The more callables there are, the more a file creates.
theorem SourceFile.listener_within (source : SourceFile) {callables others : List Callable}
    (h : ∀ callable ∈ callables, callable ∈ others) :
    (source.listener callables).Within (source.listener others) where
  name_eq := rfl
  declared tier event hevent := hevent
  outEvents event hevent := by
    rw [mem_outEvents_listener] at hevent ⊢
    refine hevent.imp_right ?_
    rintro ⟨callable, hcallable, hinvokes⟩
    exact ⟨callable, h callable hcallable, hinvokes⟩
  definitionFiles file hfile := hfile
  files file hfile := hfile

end Listener

-- The callables of the first model are those of the second, and so are its listeners, of which
-- the second may know more.
structure Model.Within (part whole : Model) : Prop where
  callables : ∀ name callable, part.callables.get? name = some callable →
    whole.callables.get? name = some callable
  listeners : ∀ name listener, part.listeners.get? name = some listener →
    ∃ larger, whole.listeners.get? name = some larger ∧ listener.Within larger

namespace Graph

variable {part whole : Model} {name event : String} {tier : Tier}

theorem emits_of_within (h : part.Within whole)
    (hedge : .emits name event ∈ (ofModel part).edges) :
    .emits name event ∈ (ofModel whole).edges := by
  obtain ⟨listener, hget, hevent⟩ := emits_mem_edges_iff.mp hedge
  obtain ⟨larger, hlarger, hwithin⟩ := h.listeners name listener hget
  exact emits_mem_edges_iff.mpr ⟨larger, hlarger, hwithin.outEvents event hevent⟩

-- A subscription may be served earlier where more is known, but not later.
theorem subscribes_of_within (h : part.Within whole)
    (hedge : .subscribes event name tier ∈ (ofModel part).edges) :
    ∃ earlier : Tier, earlier.rank ≤ tier.rank ∧
      .subscribes event name earlier ∈ (ofModel whole).edges := by
  obtain ⟨listener, hget, hfirst⟩ := subscribes_mem_edges_iff.mp hedge
  obtain ⟨larger, hlarger, hwithin⟩ := h.listeners name listener hget
  have hdeclares := hwithin.declared tier event (Listener.mem_declared_iff.mpr hfirst.1)
  obtain ⟨earlier, hrank, hearlier⟩ :=
    Listener.exists_declaresFirst (Listener.mem_declared_iff.mp hdeclares)
  exact ⟨earlier, hrank, subscribes_mem_edges_iff.mpr ⟨larger, hlarger, hearlier⟩⟩

end Graph

end EventFlow
