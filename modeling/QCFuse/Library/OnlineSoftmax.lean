import Mathlib

/-!
# Sums of exponentials relative to a running maximum

A mass is kept as a maximum and a factor: the mass is the factor times the exponential of the
maximum. Terms are absorbed, and two masses merged, by rescaling the factors to the larger maximum.
Minus infinity is the maximum of no terms, and its exponential is zero.
-/

set_option autoImplicit false

namespace QCFuse.Library

open scoped ENNReal

/-- `exp (a - b)`, and 0 when `b` is minus infinity. -/
noncomputable def expShifted (a b : EReal) : ℝ≥0∞ := if b ≠ ⊥ then EReal.exp (a - b) else 0

theorem exp_sub_eq_div (a b : EReal) : EReal.exp (a - b) = EReal.exp a / EReal.exp b := by
  rw [sub_eq_add_neg, EReal.exp_add, EReal.exp_neg, ENNReal.div_eq_inv_mul, mul_comm]

theorem expShifted_mul_exp {a b : EReal} (hle : a ≤ b) (hb : b ≠ ⊤) :
    expShifted a b * EReal.exp b = EReal.exp a := by
  unfold expShifted
  split
  next hbot =>
    have hzero : EReal.exp b ≠ 0 := fun h => hbot (EReal.exp_eq_zero_iff.mp h)
    have htop : EReal.exp b ≠ ⊤ := fun h => hb (EReal.exp_eq_top_iff.mp h)
    rw [exp_sub_eq_div, ENNReal.div_mul_cancel hzero htop]
  next hbot =>
    obtain rfl : b = ⊥ := not_not.mp hbot
    rw [le_bot_iff.mp hle, EReal.exp_bot, mul_zero]

/-- The maximum `m` and the factor `l` stand for the mass. -/
structure Represents (m : EReal) (l mass : ℝ≥0∞) : Prop where
  finite : m ≠ ⊤
  mass_eq : l * EReal.exp m = mass

namespace Represents

theorem empty : Represents ⊥ 0 0 := ⟨bot_ne_top, zero_mul _⟩

variable {m m' : EReal} {l l' mass mass' : ℝ≥0∞}

/-- The factor rescaled to a larger maximum. -/
theorem rescale (h : Represents m l mass) (hle : m ≤ m') (hfinite : m' ≠ ⊤) :
    Represents m' (l * expShifted m m') mass :=
  ⟨hfinite, by rw [mul_assoc, expShifted_mul_exp hle hfinite, h.mass_eq]⟩

theorem add (h : Represents m l mass) (h' : Represents m l' mass') :
    Represents m (l + l') (mass + mass') :=
  ⟨h.finite, by rw [add_mul, h.mass_eq, h'.mass_eq]⟩

/-- Two masses at the larger of their maxima. -/
theorem merge (h : Represents m l mass) (h' : Represents m' l' mass') :
    Represents (max m m') (l * expShifted m (max m m') + l' * expShifted m' (max m m')) (mass + mass') := by
  have hfinite : max m m' ≠ ⊤ := by
    rcases max_choice m m' with hmax | hmax <;> rw [hmax]
    exacts [h.finite, h'.finite]
  exact (h.rescale (le_max_left m m') hfinite).add (h'.rescale (le_max_right m m') hfinite)

/-- A block of terms, none of them infinite. -/
theorem absorb {ι : Type*} (h : Represents m l mass) (s : Finset ι) (term : ι → EReal)
    (hterm : ∀ i ∈ s, term i ≠ ⊤) :
    Represents (max m (s.sup term))
      (l * expShifted m (max m (s.sup term)) + ∑ i ∈ s, expShifted (term i) (max m (s.sup term)))
      (mass + ∑ i ∈ s, EReal.exp (term i)) := by
  have hsup : s.sup term ≠ ⊤ :=
    ((Finset.sup_lt_iff bot_lt_top).mpr fun i hi => lt_top_iff_ne_top.mpr (hterm i hi)).ne
  have hfinite : max m (s.sup term) ≠ ⊤ := (max_lt h.finite.lt_top hsup.lt_top).ne
  refine (h.rescale (le_max_left _ _) hfinite).add ⟨hfinite, ?_⟩
  rw [Finset.sum_mul]
  exact Finset.sum_congr rfl fun i hi =>
    expShifted_mul_exp (le_max_of_le_right (Finset.le_sup hi)) hfinite

/-- The logarithm of the mass, minus infinity for no mass. -/
theorem exp_logMass (h : Represents m l mass) :
    EReal.exp (if 0 < l then m + ENNReal.log l else ⊥) = mass := by
  rw [← h.mass_eq]
  split
  next => rw [EReal.exp_add, ENNReal.exp_log, mul_comm]
  next hl => rw [not_lt.mp hl |> le_zero_iff.mp, zero_mul, EReal.exp_bot]

end Represents

/-- A loop that only raises its accumulator stays below a bound when every step does. -/
theorem foldl_le_iff {α β : Type*} [Preorder β] {step : β → α → β} {bounded : α → β → Prop}
    (hstep : ∀ acc x bound, step acc x ≤ bound ↔ acc ≤ bound ∧ bounded x bound) (xs : List α) (acc bound : β) :
    xs.foldl step acc ≤ bound ↔ acc ≤ bound ∧ ∀ x ∈ xs, bounded x bound := by
  induction xs generalizing acc with
  | nil => simp only [List.foldl_nil, List.not_mem_nil, false_implies, implies_true, and_true]
  | cons x xs ih => rw [List.foldl_cons, ih, hstep, List.forall_mem_cons, and_assoc]

end QCFuse.Library
