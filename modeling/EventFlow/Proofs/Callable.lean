import EventFlow.Callable
import Mathlib.Data.List.Infix

namespace EventFlow

-- Everything between `new_` and the end, when it is more than `_event`.
theorem Event.createdBy?_eq_some_iff {identifier event : String} :
    createdBy? identifier = some event ↔
      identifier = "new_" ++ event ∧ ∃ stem, stem ≠ "" ∧ event = stem ++ "_event" := by
  constructor
  · intro h
    obtain ⟨name, hname, hevent⟩ := Option.bind_eq_some_iff.mp h
    rw [List.isPrefixOf?_eq_some_iff_append_eq] at hname
    split at hevent
    · rename_i c rest hstem
      rw [List.isSuffixOf?_eq_some_iff_append_eq] at hstem
      obtain rfl := Option.some.inj hevent
      refine ⟨String.ext ?_, String.ofList (c :: rest), by simp, String.ext ?_⟩
      · rw [← hname, String.toList_append, @String.toList_ofList name]
      · rw [String.toList_append, String.toList_ofList, String.toList_ofList, hstem]
    · cases hevent
  · rintro ⟨rfl, stem, hne, rfl⟩
    have hnew : "new_".toList.isPrefixOf? ("new_" ++ (stem ++ "_event")).toList =
        some (stem ++ "_event").toList := by
      rw [List.isPrefixOf?_eq_some_iff_append_eq]
      exact String.toList_append.symm
    have hevent : "_event".toList.isSuffixOf? (stem ++ "_event").toList = some stem.toList := by
      rw [List.isSuffixOf?_eq_some_iff_append_eq, String.toList_append]
    rw [createdBy?, hnew, Option.bind_some, hevent]
    cases hstem : stem.toList with
    | nil => exact absurd (String.toList_eq_nil_iff.mp hstem) hne
    | cons c rest => exact congrArg some String.ofList_toList

-- One of the tokens is the identifier that creates the event.
def Event.NamedIn (tokens : List Source.Token) (event : String) : Prop :=
  ∃ token ∈ tokens, token.isIdentifier ∧ token.text = "new_" ++ event ∧
    ∃ stem, stem ≠ "" ∧ event = stem ++ "_event"

theorem Event.mem_createdIn {tokens : List Source.Token} {event : String} :
    event ∈ createdIn tokens ↔ NamedIn tokens event := by
  simp [createdIn, NamedIn, createdBy?_eq_some_iff, and_assoc]

namespace Callable

open Source

-- One lemma for each thing that a token can do to the search for functions.
section Steps

variable {braces : List Bool} {before : Before} {token : Token} {rest body behind : List Token}

theorem functions_opening (h : token.isPunctuation '{') :
    functions braces before (token :: rest) =
      functions (before.opensLinkage :: braces) ⟨some token, before.last⟩ rest := by
  rw [functions, if_pos h]

theorem functions_closing (h : token.isPunctuation '}') :
    functions braces before (token :: rest) =
      functions braces.tail ⟨some token, before.last⟩ rest := by
  have hkind : token.kind = .punctuation '}' := of_decide_eq_true h
  have hopens : ¬ token.isPunctuation '{' := by simp [Token.isPunctuation, hkind]
  rw [functions, if_neg hopens, if_pos h]

theorem not_isPunctuation_of_isIdentifier (h : token.isIdentifier) (c : Char) :
    ¬ token.isPunctuation c := by
  have hkind : token.kind = .identifier := of_decide_eq_true h
  simp [Token.isPunctuation, hkind]

theorem functions_defining (hname : token.isIdentifier) (hbraces : braces.all id)
    (hword : token.text ∉ otherWords) (h : parametersAndBody? rest = some (body, behind)) :
    functions braces before (token :: rest) =
      ⟨token.text, .function, Event.createdIn body, token.line⟩ ::
        functions braces ⟨none, none⟩ behind := by
  rw [functions, if_neg (not_isPunctuation_of_isIdentifier hname _),
    if_neg (not_isPunctuation_of_isIdentifier hname _), if_pos ⟨hname, hbraces, hword⟩]
  split
  · rename_i heq
    obtain ⟨rfl, rfl⟩ := Prod.mk.inj (Option.some.inj (h.symm.trans heq))
    rfl
  · rename_i heq
    cases h.symm.trans heq

theorem functions_passing (hopens : ¬ token.isPunctuation '{') (hcloses : ¬ token.isPunctuation '}')
    (h : (token.isIdentifier ∧ braces.all id ∧ token.text ∉ otherWords) →
      parametersAndBody? rest = none) :
    functions braces before (token :: rest) = functions braces ⟨some token, before.last⟩ rest := by
  rw [functions, if_neg hopens, if_neg hcloses]
  split
  · rename_i hname
    split
    · rename_i heq
      cases (h hname).symm.trans heq
    · rfl
  · rfl

end Steps

end Callable

end EventFlow
