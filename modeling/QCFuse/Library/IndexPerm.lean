import Mathlib

/-!
# Permutations of the indices below a number

An index map that permutes, what a scatter along a map leaves, and places in a table whose rows have one
length.
-/

set_option autoImplicit false

namespace QCFuse.Library

universe u v w

/-- The map takes the indices below `n` to each other, no two to one. -/
structure PermutesBelow (n : Nat) (f : Nat → Nat) : Prop where
  lt : ∀ i < n, f i < n
  inj : ∀ i < n, ∀ j < n, f i = f j → i = j

theorem PermutesBelow.onto {n : Nat} {f : Nat → Nat} (h : PermutesBelow n f) {k : Nat} (hk : k < n) :
    ∃ i < n, f i = k := by
  have hmaps : Set.MapsTo f (Finset.range n) (Finset.range n) := fun i hi =>
    Finset.mem_coe.mpr (Finset.mem_range.mpr (h.lt i (Finset.mem_range.mp (Finset.mem_coe.mp hi))))
  have hinj : Set.InjOn f (Finset.range n) := fun i hi j hj heq =>
    h.inj i (Finset.mem_range.mp (Finset.mem_coe.mp hi)) j (Finset.mem_range.mp (Finset.mem_coe.mp hj)) heq
  have honto := Finset.surjOn_of_injOn_of_card_le f hmaps hinj (Nat.le_refl _)
  obtain ⟨i, hi, heq⟩ := honto (Finset.mem_coe.mpr (Finset.mem_range.mpr hk))
  exact ⟨i, Finset.mem_range.mp (Finset.mem_coe.mp hi), heq⟩

section Scatter

variable {ι : Type u} {κ : Type v} {α : Type w} [DecidableEq κ] (key : ι → κ) (value : ι → α)

theorem foldl_update_of_ne (table : κ → α) {xs : List ι} {k : κ} (h : ∀ x ∈ xs, key x ≠ k) :
    xs.foldl (fun table x => Function.update table (key x) (value x)) table k = table k := by
  induction xs generalizing table with
  | nil => rfl
  | cons x xs ih =>
    obtain ⟨hx, hxs⟩ := List.forall_mem_cons.mp h
    rw [List.foldl_cons, ih _ hxs, Function.update_of_ne hx.symm]

/-- Entries of one key agree on what is found there after the scatter. -/
theorem foldl_update_of_hit (table : κ → α) {xs : List ι} {k : κ} {a : α} (hsome : ∃ x ∈ xs, key x = k)
    (hall : ∀ x ∈ xs, key x = k → value x = a) :
    xs.foldl (fun table x => Function.update table (key x) (value x)) table k = a := by
  induction xs generalizing table with
  | nil =>
    obtain ⟨x, hx, -⟩ := hsome
    cases hx
  | cons y xs ih =>
    obtain ⟨hy, hxs⟩ := List.forall_mem_cons.mp hall
    rw [List.foldl_cons]
    by_cases hlater : ∃ x ∈ xs, key x = k
    · exact ih _ hlater hxs
    · have hnone : ∀ x ∈ xs, key x ≠ k := fun x hx hkey => hlater ⟨x, hx, hkey⟩
      obtain ⟨x, hx, hkey⟩ := hsome
      rcases List.mem_cons.mp hx with rfl | hmem
      · rw [foldl_update_of_ne key value _ hnone, hkey, Function.update_self, hy hkey]
      · exact absurd hkey (hnone x hmem)

end Scatter

section Places

variable {width row column : Nat}

theorem place_div (h : column < width) : (row * width + column) / width = row := by
  rw [Nat.mul_comm, Nat.mul_add_div (by omega), Nat.div_eq_of_lt h, Nat.add_zero]

theorem place_mod (h : column < width) : (row * width + column) % width = column := by
  rw [Nat.mul_comm, Nat.mul_add_mod, Nat.mod_eq_of_lt h]

theorem place_inj {row' column' : Nat} (h : column < width) (h' : column' < width)
    (heq : row * width + column = row' * width + column') : row = row' ∧ column = column' := by
  constructor
  · have hrow : (row * width + column) / width = row := place_div h
    rw [← hrow, heq, place_div h']
  · have hcolumn : (row * width + column) % width = column := place_mod h
    rw [← hcolumn, heq, place_mod h']

theorem place_lt {rows : Nat} (hrow : row < rows) (h : column < width) : row * width + column < rows * width := by
  have hnext : (row + 1) * width ≤ rows * width := Nat.mul_le_mul_right _ hrow
  rw [Nat.add_mul, Nat.one_mul] at hnext
  omega

end Places

end QCFuse.Library
