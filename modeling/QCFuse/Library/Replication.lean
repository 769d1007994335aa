import Mathlib

/-!
# One more replica for the item whose replicas carry the most

Items with weights that are shared evenly by their replicas. Replicas that are added one by one, each for
an item of the highest load, end up with the lowest possible highest load.
-/

set_option autoImplicit false

namespace QCFuse.Library

universe u v

variable {ι : Type u} {α : Type v} [Field α] [LinearOrder α] {items : Finset ι} {weight : ι → α} {count : ι → Nat}

/-- Every item has a replica, and when it got its last one its load was the highest. -/
structure HeaviestFirst (items : Finset ι) (weight : ι → α) (count : ι → Nat) : Prop where
  one_le : ∀ i ∈ items, 1 ≤ count i
  last : ∀ j ∈ items, 2 ≤ count j → ∀ i ∈ items, weight i / count i ≤ weight j / (count j - 1 : Nat)

theorem heaviestFirst_one (items : Finset ι) (weight : ι → α) : HeaviestFirst items weight fun _ => 1 where
  one_le _ _ := Nat.le_refl 1
  last _ _ h := absurd h (by omega)

variable [IsStrictOrderedRing α]

/-- A load only falls as replicas are added. -/
theorem load_le_of_le {i : ι} (hweight : 0 ≤ weight i) {m n : Nat} (hm : 1 ≤ m) (hmn : m ≤ n) :
    weight i / n ≤ weight i / m := by
  have hpos : (0 : α) < m := Nat.cast_pos.mpr hm
  exact div_le_div_of_nonneg_left hweight hpos (Nat.cast_le.mpr hmn)

theorem HeaviestFirst.add [DecidableEq ι] (h : HeaviestFirst items weight count) (hweight : ∀ i ∈ items, 0 ≤ weight i)
    {heaviest : ι} (hmax : ∀ i ∈ items, weight i / count i ≤ weight heaviest / count heaviest) :
    HeaviestFirst items weight (Function.update count heaviest (count heaviest + 1)) where
  one_le i hi := by
    by_cases heq : i = heaviest
    · rw [heq, Function.update_self]
      exact Nat.succ_pos _
    · rw [Function.update_of_ne heq]
      exact h.one_le i hi
  last j hj htwo i hi := by
    have hless : weight i / (Function.update count heaviest (count heaviest + 1) i : Nat) ≤
        weight i / count i := by
      refine load_le_of_le (hweight i hi) (h.one_le i hi) ?_
      by_cases heq : i = heaviest
      · rw [heq, Function.update_self]
        exact Nat.le_succ _
      · rw [Function.update_of_ne heq]
    refine hless.trans ?_
    by_cases heq : j = heaviest
    · rw [heq, Function.update_self, Nat.add_sub_cancel]
      exact hmax i hi
    · rw [Function.update_of_ne heq] at htwo ⊢
      exact h.last j hj htwo i hi

/-- No other way to give each item a replica, with no more replicas in all, has a lower highest load. -/
theorem HeaviestFirst.least (h : HeaviestFirst items weight count) (hweight : ∀ i ∈ items, 0 ≤ weight i)
    {other : ι → Nat} (hother : ∀ i ∈ items, 1 ≤ other i)
    (htotal : ∑ i ∈ items, other i ≤ ∑ i ∈ items, count i) {i : ι} (hi : i ∈ items) :
    ∃ k ∈ items, weight i / count i ≤ weight k / other k := by
  by_cases hle : other i ≤ count i
  · exact ⟨i, hi, load_le_of_le (hweight i hi) (hother i hi) hle⟩
  · -- some item has fewer replicas in the other way
    obtain ⟨j, hj, hlt⟩ : ∃ j ∈ items, other j < count j := by
      by_contra hnone
      have hall : ∀ j ∈ items, count j ≤ other j := fun j hj => by
        by_contra hlt
        exact hnone ⟨j, hj, Nat.lt_of_not_le hlt⟩
      exact absurd htotal (Nat.not_le.mpr (Finset.sum_lt_sum hall ⟨i, hi, Nat.lt_of_not_le hle⟩))
    have hone := hother j hj
    exact ⟨j, hj, (h.last j hj (by omega) i hi).trans (load_le_of_le (hweight j hj) hone (by omega))⟩

end QCFuse.Library
