import EventFlow.Proofs.Names
import EventFlow.Model.Basic

namespace EventFlow

namespace Tier

def rank : Tier → Nat
  | early => 0
  | normal => 1
  | final => 2

theorem forall_iff {p : Tier → Prop} : (∀ tier, p tier) ↔ p early ∧ p normal ∧ p final := by
  constructor
  · intro h
    exact ⟨h early, h normal, h final⟩
  · rintro ⟨he, hn, hf⟩ tier
    cases tier with
    | early => exact he
    | normal => exact hn
    | final => exact hf

theorem find?_all_eq_some_iff {p : Tier → Bool} {tier : Tier} :
    all.find? p = some tier ↔ p tier ∧ ∀ earlier, earlier.rank < tier.rank → ¬ p earlier := by
  rw [forall_iff]
  simp only [all, List.find?_cons, List.find?_nil]
  cases tier with
  | early => cases p early <;> cases p normal <;> cases p final <;> simp [rank]
  | normal => cases p early <;> cases p normal <;> cases p final <;> simp [rank]
  | final => cases p early <;> cases p normal <;> cases p final <;> simp [rank]

end Tier

namespace Listener

-- The sources declare the event for the tier. A tier without a set declares nothing.
def Declares (listener : Listener) (tier : Tier) (event : String) : Prop :=
  ∃ events, listener.inEvents.get tier = some events ∧ event ∈ events

-- The tier is the earliest one that declares the event.
def DeclaresFirst (listener : Listener) (tier : Tier) (event : String) : Prop :=
  listener.Declares tier event ∧
    ∀ earlier : Tier, earlier.rank < tier.rank → ¬ listener.Declares earlier event

theorem mem_declared_iff {listener : Listener} {tier : Tier} {event : String} :
    event ∈ listener.declared tier ↔ listener.Declares tier event := by
  unfold declared Declares
  cases listener.inEvents.get tier with
  | none => simp
  | some events => simp

theorem tierOf?_eq_some_iff {listener : Listener} {event : String} {tier : Tier} :
    listener.tierOf? event = some tier ↔ listener.DeclaresFirst tier event := by
  simp only [tierOf?, Tier.find?_all_eq_some_iff, decide_eq_true_eq, mem_declared_iff,
    DeclaresFirst]

-- Some tier is the first one to declare an event that is declared at all.
theorem exists_declaresFirst {listener : Listener} {tier : Tier} {event : String}
    (h : listener.Declares tier event) :
    ∃ first : Tier, first.rank ≤ tier.rank ∧ listener.DeclaresFirst first event := by
  have hsome : (listener.tierOf? event).isSome := by
    refine List.find?_isSome.mpr ⟨tier, tier.mem_all, ?_⟩
    exact decide_eq_true (mem_declared_iff.mpr h)
  obtain ⟨first, hfirst⟩ := Option.isSome_iff_exists.mp hsome
  rw [tierOf?_eq_some_iff] at hfirst
  refine ⟨first, ?_, hfirst⟩
  by_contra hlater
  exact hfirst.2 tier (by omega) h

theorem mem_heard_iff {listener : Listener} {tier : Tier} {event : String} :
    event ∈ listener.heard.get tier ↔ listener.DeclaresFirst tier event := by
  simp only [heard, PerTier.get_ofFn, NameSet.mem_filter, decide_eq_true_eq,
    tierOf?_eq_some_iff, mem_declared_iff]
  exact and_iff_right_of_imp fun h => h.1

theorem mem_events_iff {listener : Listener} {event : String} :
    event ∈ listener.events ↔
      (∃ tier, listener.Declares tier event) ∨ event ∈ listener.outEvents := by
  simp only [events, NameSet.mem_ofList, List.mem_append, List.mem_flatMap, Tier.mem_all,
    true_and, ← NameSet.mem_iff, mem_declared_iff]

end Listener

theorem Model.mem_events_iff {model : Model} {event : String} :
    event ∈ model.events ↔ ∃ name listener, model.listeners.get? name = some listener ∧
      ((∃ tier, listener.Declares tier event) ∨ event ∈ listener.outEvents) := by
  simp only [events, NameSet.mem_ofList, List.mem_flatMap, NameMap.mem_values_iff,
    ← NameSet.mem_iff, Listener.mem_events_iff]
  constructor
  · rintro ⟨listener, ⟨name, hget⟩, h⟩
    exact ⟨name, listener, hget, h⟩
  · rintro ⟨name, listener, hget, h⟩
    exact ⟨listener, ⟨name, hget⟩, h⟩

end EventFlow
