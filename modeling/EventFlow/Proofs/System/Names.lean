import EventFlow.Proofs.Callable
import EventFlow.Proofs.System.Description

namespace EventFlow.System

open Source Listener.SourceFile

variable {event : String}

theorem exists_stem (h : isEventName event) :
    ∃ stem, stem ≠ [] ∧ event.toList = stem ++ "_event".toList := by
  simp only [isEventName, Bool.and_eq_true, decide_eq_true_eq, List.isSuffixOf_iff_suffix] at h
  obtain ⟨⟨_, stem, hstem⟩, hlength⟩ := h
  refine ⟨stem, ?_, hstem.symm⟩
  rintro rfl
  rw [List.nil_append] at hstem
  rw [← String.length_toList, ← String.length_toList, hstem] at hlength
  exact Nat.lt_irrefl _ hlength

theorem isIdentifier_of_isEventName (h : isEventName event) : isIdentifier event := by
  simp only [isEventName, Bool.and_eq_true] at h
  exact h.1.1

theorem createdBy?_new (h : isEventName event) : Event.createdBy? ("new_" ++ event) = some event := by
  obtain ⟨stem, hne, hstem⟩ := exists_stem h
  rw [Event.createdBy?_eq_some_iff]
  refine ⟨rfl, String.ofList stem, by simpa using hne, String.ext ?_⟩
  rw [String.toList_append, @String.toList_ofList stem, hstem]

theorem isIdentifier_new (h : isEventName event) : isIdentifier ("new_" ++ event) := by
  obtain ⟨c, rest, hchars, hstart, hrest⟩ :=
    exists_chars_of_isIdentifier (isIdentifier_of_isEventName h)
  have hnew : ("new_" ++ event).toList = 'n' :: 'e' :: 'w' :: '_' :: c :: rest := by
    rw [String.toList_append, hchars]
    rfl
  have hall : (c :: rest).all isIdentifierPart := by
    rw [List.all_cons, Bool.and_eq_true, List.all_eq_true]
    exact ⟨isIdentifierPart_of_start hstart, hrest⟩
  rw [isIdentifier, hnew]
  exact hall

-- A name that creates an event ends like one, and so like no registration macro.
theorem registers_new (h : isEventName event) : registers ("new_" ++ event) = false := by
  obtain ⟨stem, _, hstem⟩ := exists_stem h
  have hnone : "EVENT_LISTENER".toList.isSuffixOf? ("new_" ++ event).toList = none := by
    rw [Option.eq_none_iff_forall_ne_some]
    intro own hown
    rw [List.isSuffixOf?_eq_some_iff_append_eq, String.toList_append, hstem] at hown
    have hlast := congrArg List.getLast? hown
    rw [List.getLast?_append, List.getLast?_append, List.getLast?_append] at hlast
    cases hlast
  rw [registers, isVariantOf, hnone]

theorem registers_registrationMacro : registers registrationMacro := by decide

theorem subscribes?_registrationMacro : subscribes? registrationMacro = none := by decide

theorem registers_subscriptionMacro (tier : Tier) : registers (subscriptionMacro tier) = false := by
  cases tier with
  | early => decide
  | normal => decide
  | final => decide

theorem subscribes?_subscriptionMacro (tier : Tier) :
    subscribes? (subscriptionMacro tier) = some tier := by
  cases tier with
  | early => decide
  | normal => decide
  | final => decide

theorem createdBy?_subscriptionMacro (tier : Tier) :
    Event.createdBy? (subscriptionMacro tier) = none := by
  cases tier with
  | early => decide
  | normal => decide
  | final => decide

end EventFlow.System
