namespace EventFlow

-- When a subscription is served: early subscribers hear an event first, final ones last.
inductive Tier where
  | early
  | normal
  | final
  deriving DecidableEq

namespace Tier

-- The tiers in the order of delivery.
def all : List Tier := [early, normal, final]

def label : Tier → String
  | early => "EARLY"
  | normal => "NORMAL"
  | final => "FINAL"

-- What a subscription macro of the tier carries after its name.
def suffix : Tier → String
  | early => "_EARLY"
  | normal => ""
  | final => "_FINAL"

def ofLabel? (label : String) : Option Tier := all.find? (fun tier => tier.label = label)

theorem mem_all (tier : Tier) : tier ∈ all := by cases tier <;> decide

@[simp] theorem ofLabel?_label (tier : Tier) : ofLabel? tier.label = some tier := by
  cases tier <;> decide

end Tier

-- One value for every tier.
structure PerTier (α : Type) where
  early : α
  normal : α
  final : α
  deriving DecidableEq

namespace PerTier

variable {α β : Type}

def get (values : PerTier α) : Tier → α
  | .early => values.early
  | .normal => values.normal
  | .final => values.final

def ofFn (f : Tier → α) : PerTier α := ⟨f .early, f .normal, f .final⟩

def map (f : α → β) (values : PerTier α) : PerTier β := ofFn (fun tier => f (values.get tier))

-- The values in the order of delivery.
def toList (values : PerTier α) : List α := Tier.all.map values.get

@[simp] theorem get_ofFn (f : Tier → α) (tier : Tier) : (ofFn f).get tier = f tier := by
  cases tier <;> rfl

@[simp] theorem get_map (f : α → β) (values : PerTier α) (tier : Tier) :
    (values.map f).get tier = f (values.get tier) := by simp [map]

theorem ext_get {left right : PerTier α} (h : ∀ tier, left.get tier = right.get tier) :
    left = right := by
  cases left
  cases right
  have he := h .early
  have hn := h .normal
  have hf := h .final
  simp only [get] at he hn hf
  simp [he, hn, hf]

end PerTier

end EventFlow
