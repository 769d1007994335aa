import Mathlib

/-!
# Segments of a list

A list laid out as one segment for each entry of a list of lengths: the owner of every element, and the segments
themselves.
-/

set_option autoImplicit false

namespace QCFuse.Library

variable {α β : Type}

/-- Each entry once for every element of its segment. -/
def repeated : List Nat → List α → List α
  | count :: counts, x :: xs => List.replicate count x ++ repeated counts xs
  | _, _ => []

theorem length_repeated {counts : List Nat} {xs : List α} (h : counts.length = xs.length) :
    (repeated counts xs).length = counts.sum := by
  induction counts generalizing xs with
  | nil => cases xs <;> rfl
  | cons count counts ih =>
    cases xs with
    | nil => cases h
    | cons x xs => rw [repeated, List.length_append, List.length_replicate, ih (Nat.succ.inj h), List.sum_cons]

theorem repeated_append {counts : List Nat} {xs : List α} (h : counts.length = xs.length) (counts' : List Nat)
    (xs' : List α) : repeated (counts ++ counts') (xs ++ xs') = repeated counts xs ++ repeated counts' xs' := by
  induction counts generalizing xs with
  | nil =>
    obtain rfl : xs = [] := List.length_eq_zero_iff.mp h.symm
    rfl
  | cons count counts ih =>
    cases xs with
    | nil => cases h
    | cons x xs =>
      rw [List.cons_append, List.cons_append, repeated, repeated, ih (Nat.succ.inj h), List.append_assoc]

/-- A segment may be cut in two. -/
theorem repeated_cut (left right : Nat) (x : α) (counts : List Nat) (xs : List α) :
    repeated ((left + right) :: counts) (x :: xs) = repeated [left] [x] ++ repeated (right :: counts) (x :: xs) := by
  rw [repeated, repeated, repeated, List.replicate_add, List.append_assoc, List.append_assoc]
  rfl

/-- The segments of the given lengths. -/
def cutInto : List Nat → List β → List (List β)
  | [], _ => []
  | size :: sizes, xs => xs.take size :: cutInto sizes (xs.drop size)

theorem flatten_cutInto {sizes : List Nat} {xs : List β} (h : sizes.sum = xs.length) :
    (cutInto sizes xs).flatten = xs := by
  induction sizes generalizing xs with
  | nil =>
    obtain rfl : xs = [] := List.length_eq_zero_iff.mp h.symm
    rfl
  | cons size sizes ih =>
    rw [List.sum_cons] at h
    have hrest : sizes.sum = (xs.drop size).length := by
      rw [List.length_drop]
      omega
    rw [cutInto, List.flatten_cons, ih hrest, List.take_append_drop]

/-- The first segments are the front of the list. -/
theorem flatten_take_cutInto {sizes : List Nat} {xs : List β} (h : sizes.sum = xs.length) (k : Nat) :
    ((cutInto sizes xs).take k).flatten = xs.take (sizes.take k).sum := by
  induction sizes generalizing xs k with
  | nil =>
    rw [cutInto, List.take_nil, List.take_nil]
    rfl
  | cons size sizes ih =>
    rw [List.sum_cons] at h
    cases k with
    | zero => rfl
    | succ k =>
      have hrest : sizes.sum = (xs.drop size).length := by
        rw [List.length_drop]
        omega
      rw [cutInto, List.take_succ_cons, List.flatten_cons, ih hrest, List.take_succ_cons, List.sum_cons,
        List.take_add]

/-- The others are the rest. -/
theorem flatten_drop_cutInto {sizes : List Nat} {xs : List β} (h : sizes.sum = xs.length) (k : Nat) :
    ((cutInto sizes xs).drop k).flatten = xs.drop (sizes.take k).sum := by
  have hall := flatten_cutInto h
  rw [← List.take_append_drop k (cutInto sizes xs), List.flatten_append, flatten_take_cutInto h] at hall
  have hxs := List.take_append_drop (sizes.take k).sum xs
  exact List.append_cancel_left (hall.trans hxs.symm)

end QCFuse.Library
