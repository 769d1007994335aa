import Mathlib

/-!
# Least-loaded dispatch

A queue of dispatches where each goes to a receiver with the least load, when every earlier dispatch counts as
one more. Raising all receivers with the least load by one after the other keeps this.
-/

set_option autoImplicit false

namespace QCFuse.Library

variable {ρ : Type} [DecidableEq ρ]

/-- The load of a receiver with the dispatches to it. -/
def counted (load : ρ → Nat) (queue : List ρ) (r : ρ) : Nat := load r + queue.count r

/-- Every dispatch of the queue goes to a receiver with the least counted load. -/
def LeastLoaded (receivers : List ρ) (load : ρ → Nat) (queue : List ρ) : Prop :=
  ∀ before r after, queue = before ++ r :: after →
    r ∈ receivers ∧ ∀ r' ∈ receivers, counted load before r ≤ counted load before r'

variable {receivers : List ρ} {load : ρ → Nat}

@[simp] theorem counted_nil : counted load [] = load := by
  funext r
  simp [counted]

theorem counted_append (xs ys : List ρ) : counted load (xs ++ ys) = counted (counted load xs) ys := by
  funext r
  rw [counted, counted, counted, List.count_append, Nat.add_assoc]

theorem leastLoaded_nil : LeastLoaded receivers load [] := fun before r after h => by
  cases before <;> cases h

theorem LeastLoaded.mem {queue : List ρ} (h : LeastLoaded receivers load queue) {r : ρ} (hr : r ∈ queue) :
    r ∈ receivers := by
  obtain ⟨before, after, hsplit⟩ := List.append_of_mem hr
  exact (h before r after hsplit).1

theorem LeastLoaded.append {xs ys : List ρ} (hx : LeastLoaded receivers load xs)
    (hy : LeastLoaded receivers (counted load xs) ys) : LeastLoaded receivers load (xs ++ ys) := by
  intro before r after h
  rcases List.append_eq_append_iff.mp h with ⟨mid, hbefore, hys⟩ | ⟨mid, hxs, hrest⟩
  · -- the dispatch is in the second part
    obtain ⟨hr, hleast⟩ := hy mid r after hys
    rw [hbefore, counted_append]
    exact ⟨hr, hleast⟩
  · cases mid with
    | nil =>
      rw [List.nil_append] at hrest
      rw [List.append_nil] at hxs
      obtain ⟨hr, hleast⟩ := hy [] r after hrest.symm
      rw [counted_nil, hxs] at hleast
      exact ⟨hr, hleast⟩
    | cons c mid =>
      cases hrest
      exact hx before r mid hxs

/-- One dispatch to each of the receivers with the least load. -/
theorem leastLoaded_pass {lowest : List ρ} (hnodup : lowest.Nodup) (hmem : ∀ r ∈ lowest, r ∈ receivers)
    (hleast : ∀ r ∈ lowest, ∀ r' ∈ receivers, load r ≤ load r') : LeastLoaded receivers load lowest := by
  rintro before r after rfl
  have hr : r ∈ before ++ r :: after := List.mem_append_right _ List.mem_cons_self
  refine ⟨hmem r hr, fun r' hr' => ?_⟩
  have hnot : r ∉ before := fun hin => (List.nodup_append.mp hnodup).2.2 r hin r List.mem_cons_self rfl
  calc counted load before r = load r := by rw [counted, List.count_eq_zero_of_not_mem hnot, Nat.add_zero]
    _ ≤ load r' := hleast r hr r' hr'
    _ ≤ counted load before r' := Nat.le_add_right _ _

theorem counted_passes {lowest : List ρ} (hnodup : lowest.Nodup) (n : Nat) (r : ρ) :
    counted load (List.replicate n lowest).flatten r = if r ∈ lowest then load r + n else load r := by
  rw [counted, List.count_flatten, List.map_replicate, List.sum_replicate, smul_eq_mul]
  split
  next hr => rw [List.count_eq_one_of_mem hnodup hr, Nat.mul_one]
  next hr => rw [List.count_eq_zero_of_not_mem hr, Nat.mul_zero, Nat.add_zero]

/-- The receivers with the least load are raised together up to the load of the others. -/
theorem leastLoaded_passes {lowest : List ρ} {least : Nat} (hnodup : lowest.Nodup)
    (hmem : ∀ r ∈ lowest, r ∈ receivers) (hleast : ∀ r ∈ lowest, load r = least) {n : Nat}
    (hothers : ∀ r ∈ receivers, r ∉ lowest → least + n ≤ load r) :
    LeastLoaded receivers load (List.replicate n lowest).flatten := by
  induction n with
  | zero => exact leastLoaded_nil
  | succ n ih =>
    rw [List.replicate_succ', List.flatten_append, List.flatten_singleton]
    refine (ih fun r hr hnot => (Nat.le_of_lt (hothers r hr hnot))).append (leastLoaded_pass hnodup hmem ?_)
    intro r hr r' hr'
    rw [counted_passes hnodup, counted_passes hnodup, if_pos hr, hleast r hr]
    split
    next hlow => rw [hleast r' hlow]
    next hnot => exact Nat.le_of_lt (hothers r' hr' hnot)

/-- Each dispatch is counted once. -/
theorem sum_counted {queue : List ρ} (hnodup : receivers.Nodup) (hmem : ∀ r ∈ queue, r ∈ receivers) :
    (receivers.map fun r => counted load queue r - load r).sum = queue.length := by
  have hcount : (receivers.map fun r => counted load queue r - load r) = receivers.map fun r => queue.count r :=
    List.map_congr_left fun r _ => by rw [counted, Nat.add_sub_cancel_left]
  have hsum := Multiset.sum_count_eq_card (s := receivers.toFinset) (m := (queue : Multiset ρ))
    fun r hr => List.mem_toFinset.mpr (hmem r (Multiset.mem_coe.mp hr))
  rw [hcount, ← List.sum_toFinset _ hnodup]
  simpa using hsum

end QCFuse.Library
