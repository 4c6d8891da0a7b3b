import EventFlow.Grid
import Mathlib.Data.List.Basic

namespace EventFlow.Grid

variable {widths : List Nat} {flags : List Bool} {left : Bool} {line rest : List Char}
  {width column : Nat}

-- Where the junction before a column stands in a line. The last one stands behind all columns.
def place : List Nat → Nat → Nat
  | width :: widths, column + 1 => width + 3 + place widths column
  | _, _ => 0

-- The part of a line that a column takes between two junctions.
def segment (widths : List Nat) (column : Nat) (line : List Char) : List Char :=
  (line.drop (place widths column + 1)).take (widths.getD column 0 + 2)

@[simp] theorem place_zero : place widths 0 = 0 := by cases widths <;> rfl

@[simp] theorem place_cons_succ : place (width :: widths) (column + 1) =
    width + 3 + place widths column := rfl

theorem place_le_place (widths : List Nat) (column : Nat) :
    place widths column ≤ place widths widths.length := by
  induction widths generalizing column with
  | nil => exact Nat.le_refl _
  | cons width widths ih =>
    cases column with
    | zero =>
      rw [place_zero]
      exact Nat.zero_le _
    | succ column =>
      have hrest := ih column
      rw [place_cons_succ, List.length_cons, place_cons_succ]
      omega

section Cons

variable {fill : List Char} (h : fill.length = width + 2) (junction : Char)

include h

theorem segment_cons_zero :
    segment (width :: widths) 0 (junction :: (fill ++ rest)) = fill := by
  simp [segment, ← h]

theorem drop_cons_append (count : Nat) :
    (junction :: (fill ++ rest)).drop (width + 3 + count) = rest.drop count := by
  have hlength : width + 3 + count = (junction :: fill).length + count := by
    rw [List.length_cons, h]
  rw [hlength, ← List.cons_append, List.drop_append]
  simp

theorem segment_cons_succ : segment (width :: widths) (column + 1) (junction :: (fill ++ rest)) =
    segment widths column rest := by
  rw [segment, segment, place_cons_succ, Nat.add_assoc (width + 3), drop_cons_append h]
  rfl

theorem getElem?_cons_append (count : Nat) :
    (junction :: (fill ++ rest))[width + 3 + count]? = rest[count]? := by
  have hdrop : ((junction :: (fill ++ rest)).drop (width + 3 + count)).head? =
      (rest.drop count).head? := congrArg List.head? (drop_cons_append h junction count)
  rwa [List.head?_drop, List.head?_drop] at hdrop

end Cons

-- A line that separates two rows: a column is dashed or left open as its flag says, and a
-- junction is a cross if a dashed segment touches it.
structure Ruled (widths : List Nat) (flags : List Bool) (chars : List Char) : Prop where
  length_eq : chars.length = place widths widths.length + 1
  segment_eq : ∀ column flag, flags[column]? = some flag →
    segment widths column chars =
      List.replicate (widths.getD column 0 + 2) (if flag then '-' else ' ')
  junction_eq : ∀ column ≤ widths.length, chars[place widths column]? =
    some (if (false :: flags).getD column false || flags.getD column false then '+' else '|')

theorem length_separatorFrom (h : flags.length = widths.length) (left : Bool) :
    (separatorFrom left (widths.zip flags)).length = place widths widths.length + 1 := by
  induction widths generalizing flags left with
  | nil => rfl
  | cons width widths ih =>
    obtain ⟨flag, flags, rfl⟩ := List.exists_cons_of_length_eq_add_one h
    rw [List.zip_cons_cons, separatorFrom, List.length_cons, List.length_append,
      List.length_replicate, ih (Nat.succ.inj h), List.length_cons, place_cons_succ]
    omega

theorem segment_separatorFrom (h : flags.length = widths.length) (left : Bool) {flag : Bool}
    (hflag : flags[column]? = some flag) :
    segment widths column (separatorFrom left (widths.zip flags)) =
      List.replicate (widths.getD column 0 + 2) (if flag then '-' else ' ') := by
  induction widths generalizing flags left column with
  | nil =>
    rw [List.length_eq_zero_iff.mp h] at hflag
    cases hflag
  | cons width widths ih =>
    obtain ⟨first, flags, rfl⟩ := List.exists_cons_of_length_eq_add_one h
    rw [List.zip_cons_cons, separatorFrom]
    cases column with
    | zero =>
      cases hflag
      exact segment_cons_zero List.length_replicate _
    | succ column =>
      rw [segment_cons_succ List.length_replicate, ih (Nat.succ.inj h) _ hflag]
      rfl

theorem junction_separatorFrom (h : flags.length = widths.length) (left : Bool)
    (hcolumn : column ≤ widths.length) :
    (separatorFrom left (widths.zip flags))[place widths column]? =
      some (if (left :: flags).getD column false || flags.getD column false then '+' else '|') := by
  induction widths generalizing flags left column with
  | nil =>
    obtain rfl := List.length_eq_zero_iff.mp h
    obtain rfl := Nat.le_zero.mp hcolumn
    cases left with
    | true => rfl
    | false => rfl
  | cons width widths ih =>
    obtain ⟨first, flags, rfl⟩ := List.exists_cons_of_length_eq_add_one h
    rw [List.zip_cons_cons, separatorFrom]
    cases column with
    | zero => rfl
    | succ column =>
      rw [place_cons_succ, getElem?_cons_append List.length_replicate,
        ih (Nat.succ.inj h) _ (Nat.le_of_succ_le_succ hcolumn)]
      rfl

theorem ruled_separatorFrom (h : flags.length = widths.length) :
    Ruled widths flags (separatorFrom false (widths.zip flags)) :=
  ⟨length_separatorFrom h false, fun _ _ hflag => segment_separatorFrom h false hflag,
    fun _ hcolumn => junction_separatorFrom h false hcolumn⟩

-- The flags with those of the first columns raised.
def raiseFirst : Nat → List Bool → List Bool
  | count + 1, _ :: flags => true :: raiseFirst count flags
  | _, flags => flags

theorem length_raiseFirst (count : Nat) (flags : List Bool) :
    (raiseFirst count flags).length = flags.length := by
  induction flags generalizing count with
  | nil => cases count <;> rfl
  | cons flag flags ih =>
    cases count with
    | zero => rfl
    | succ count => rw [raiseFirst, List.length_cons, List.length_cons, ih]

section Raised

variable {count : Nat}

theorem getElem?_raiseFirst_of_lt (h : column < count) (hflags : column < flags.length) :
    (raiseFirst count flags)[column]? = some true := by
  induction flags generalizing count column with
  | nil => cases hflags
  | cons flag flags ih =>
    obtain ⟨count, rfl⟩ := Nat.exists_eq_succ_of_ne_zero (Nat.ne_zero_of_lt h)
    cases column with
    | zero => rfl
    | succ column => exact ih (Nat.lt_of_succ_lt_succ h) (Nat.lt_of_succ_lt_succ hflags)

theorem getElem?_raiseFirst_of_le (h : count ≤ column) :
    (raiseFirst count flags)[column]? = flags[column]? := by
  induction flags generalizing count column with
  | nil => cases count <;> rfl
  | cons flag flags ih =>
    cases count with
    | zero => rfl
    | succ count =>
      cases column with
      | zero => cases h
      | succ column => exact ih (Nat.le_of_succ_le_succ h)

theorem raiseFirst_eq_self (h : ∀ column < count, column < flags.length →
    flags[column]? = some true) : raiseFirst count flags = flags := by
  refine List.ext_getElem? fun column => ?_
  obtain hlt | hle := Nat.lt_or_ge column count
  · obtain hflags | hflags := Nat.lt_or_ge column flags.length
    · rw [getElem?_raiseFirst_of_lt hlt hflags, h column hlt hflags]
    · rw [List.getElem?_eq_none hflags,
        List.getElem?_eq_none ((length_raiseFirst count flags).symm ▸ hflags)]
  · exact getElem?_raiseFirst_of_le hle

theorem getD_raiseFirst_of_le (h : count ≤ column) :
    (raiseFirst count flags).getD column false = flags.getD column false := by
  rw [List.getD_eq_getElem?_getD, List.getD_eq_getElem?_getD, getElem?_raiseFirst_of_le h]

end Raised

theorem cross_drop_separatorFrom (left : Bool) (columns : List (Nat × Bool)) :
    '+' :: (separatorFrom left columns).drop 1 = separatorFrom true columns := by
  cases columns with
  | nil => rfl
  | cons first columns => rfl

-- What stands above columns of these widths that are all dashed, up to the last junction.
def dashes (widths : List Nat) : List Char :=
  widths.flatMap fun width => '+' :: List.replicate (width + 2) '-'

theorem dashes_cons (width : Nat) (widths : List Nat) :
    dashes (width :: widths) = '+' :: (List.replicate (width + 2) '-' ++ dashes widths) := by
  rw [dashes, List.flatMap_cons, List.cons_append, dashes]

theorem dashes_separatorFrom (h : flags.length = widths.length) (span : Nat) (left : Bool) :
    dashes (widths.take span) ++ '+' :: (separatorFrom left (widths.zip flags)).drop
        ((dashes (widths.take span)).length + 1) =
      separatorFrom true (widths.zip (raiseFirst span flags)) := by
  induction widths generalizing flags span left with
  | nil =>
    rw [List.take_nil]
    exact cross_drop_separatorFrom left _
  | cons width widths ih =>
    obtain ⟨flag, flags, rfl⟩ := List.exists_cons_of_length_eq_add_one h
    cases span with
    | zero => exact cross_drop_separatorFrom left _
    | succ span =>
      have hlength : (dashes (width :: widths.take span)).length + 1 =
          width + 3 + ((dashes (widths.take span)).length + 1) := by
        rw [dashes_cons, List.length_cons, List.length_append, List.length_replicate]
        omega
      rw [List.take_succ_cons, List.zip_cons_cons, separatorFrom, hlength,
        drop_cons_append List.length_replicate, dashes_cons, List.cons_append, List.append_assoc,
        ih (Nat.succ.inj h) span flag]
      rfl

-- Dashing a separator below the first columns leaves the separator that has their flags raised.
theorem dashBelow_separatorFrom (h : flags.length = widths.length) (span : Nat) :
    dashBelow (widths.take span) (separatorFrom false (widths.zip flags)) =
      separatorFrom false (widths.zip (raiseFirst span flags)) := by
  by_cases hnone : widths.take span = []
  · have hline : dashBelow (widths.take span) (separatorFrom false (widths.zip flags)) =
        separatorFrom false (widths.zip flags) := if_pos hnone
    rw [hline]
    rcases List.take_eq_nil_iff.mp hnone with rfl | rfl
    · rfl
    · rw [List.length_eq_zero_iff.mp h]
      rfl
  · refine (if_neg hnone).trans ((dashes_separatorFrom h span false).trans ?_)
    obtain ⟨width, widths, rfl⟩ := List.exists_cons_of_ne_nil (mt List.take_eq_nil_of_eq_nil hnone)
    obtain ⟨flag, flags, rfl⟩ := List.exists_cons_of_length_eq_add_one h
    cases span with
    | zero => exact absurd rfl hnone
    | succ span => rfl

end EventFlow.Grid
