import EventFlow.Proofs.Callable.Sites

namespace EventFlow.Callable

open Source

-- What is reported of a preprocessor line that defines a macro: the events of the identifiers
-- behind its name.
structure LineReads (stream : Stream) (directive : Directive) (definition : Definition) : Prop where
  written : ∃ written, directive.definition? = some written ∧ definition.name = written.name ∧
    definition.kind = if written.takesArguments then .functionMacro else .objectMacro
  line : definition.line = directive.line
  emits (event : String) : event ∈ definition.emits ↔
    Event.NamedIn ((stream.within directive).drop 3) event

-- The definitions of a file that create events: first the functions that a search of its code
-- comes upon, then the macros of its preprocessor lines.
def FoundIn (stream : Stream) (reported : List Definition) : Prop :=
  ∃ sites functions macros, Finds [] ⟨none, none⟩ [] stream.code sites ∧
    List.Forall₂ Site.Reads sites functions ∧
    List.Forall₂ (LineReads stream)
      (stream.directives.filter fun directive => directive.definition?.isSome) macros ∧
    reported = (functions ++ macros).filter fun definition => definition.emits ≠ ∅

theorem lineReads_of_macroOf? {stream : Stream} {directive : Directive} {definition : Definition}
    (h : macroOf? stream directive = some definition) : LineReads stream directive definition := by
  obtain ⟨written, hwritten, rfl⟩ := Option.map_eq_some_iff.mp h
  exact ⟨⟨written, hwritten, rfl, rfl⟩, rfl, fun _ => Event.mem_createdIn⟩

theorem forall₂_macros (stream : Stream) (directives : List Directive) :
    List.Forall₂ (LineReads stream)
      (directives.filter fun directive => directive.definition?.isSome)
      (directives.filterMap (macroOf? stream)) := by
  induction directives with
  | nil => exact .nil
  | cons directive directives ih =>
    cases hmacro : macroOf? stream directive with
    | none =>
      have hnone : ¬ directive.definition?.isSome := by
        simp [Option.map_eq_none_iff.mp hmacro]
      rwa [List.filter_cons, if_neg hnone, List.filterMap_cons_none hmacro]
    | some definition =>
      obtain ⟨written, hwritten, -⟩ := (lineReads_of_macroOf? hmacro).written
      have hsome : directive.definition?.isSome := by simp [hwritten]
      rw [List.filter_cons, if_pos hsome, List.filterMap_cons_some hmacro]
      exact .cons (lineReads_of_macroOf? hmacro) ih

theorem definitions_foundIn (stream : Stream) : FoundIn stream (definitions stream) := by
  obtain ⟨sites, hsites, hfunctions⟩ := exists_finds [] ⟨none, none⟩ stream.code []
  exact ⟨sites, _, _, hsites, hfunctions, forall₂_macros stream stream.directives, rfl⟩

end EventFlow.Callable
