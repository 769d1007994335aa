import Mathlib

/-!
# Compaction of a list by a predicate on its entries

`keptRows` lists the rows that survive a filter. Over a list made of runs of one tag, the
rows are the index ranges of the runs that are kept.
-/

set_option autoImplicit false

namespace QCFuse.Library

universe u

variable {τ : Type u} (keep : τ → Bool)

/-- Each tag repeated as often as its segment is long. -/
def spread (segments : List (τ × Nat)) : List τ :=
  segments.flatMap fun s => List.replicate s.2 s.1

/-- The rows, counted from `base`, whose entries are kept. -/
def keptRows (xs : List τ) (base : Nat) : List Nat :=
  ((xs.zipIdx base).filter fun entry => keep entry.1).map Prod.snd

/-- The index ranges of the kept segments. -/
def keptRanges : List (τ × Nat) → Nat → List Nat
  | [], _ => []
  | s :: rest, base =>
    (if keep s.1 then List.range' base s.2 else []) ++ keptRanges rest (base + s.2)

theorem keptRows_cons (x : τ) (xs : List τ) (base : Nat) :
    keptRows keep (x :: xs) base =
      (if keep x then [base] else []) ++ keptRows keep xs (base + 1) := by
  cases h : keep x <;> simp [keptRows, List.zipIdx_cons, h]

theorem keptRows_append (xs ys : List τ) (base : Nat) :
    keptRows keep (xs ++ ys) base =
      keptRows keep xs base ++ keptRows keep ys (base + xs.length) := by
  simp only [keptRows, List.zipIdx_append, List.filter_append, List.map_append]

theorem keptRows_replicate (n : Nat) (x : τ) (base : Nat) :
    keptRows keep (List.replicate n x) base = if keep x then List.range' base n else [] := by
  induction n generalizing base with
  | zero => simp [keptRows]
  | succ n ih =>
    rw [List.replicate_succ, keptRows_cons, ih, List.range'_succ]
    split <;> rfl

/-- Compacting a list of runs keeps the ranges of the kept runs. -/
theorem keptRows_spread (segments : List (τ × Nat)) (base : Nat) :
    keptRows keep (spread segments) base = keptRanges keep segments base := by
  induction segments generalizing base with
  | nil => rfl
  | cons s rest ih =>
    have hrest := ih (base + s.2)
    rw [spread] at hrest
    rw [spread, List.flatMap_cons, keptRows_append, keptRows_replicate, List.length_replicate,
      keptRanges, hrest]

/-- Entry `i` of the filtered list stands at the `i`-th kept row. -/
theorem getElem?_keptRows (xs : List τ) (base : Nat) {i row : Nat}
    (h : (keptRows keep xs base)[i]? = some row) :
    base ≤ row ∧ xs[row - base]? = (xs.filter keep)[i]? := by
  induction xs generalizing base i with
  | nil => simp [keptRows] at h
  | cons x xs ih =>
    rw [keptRows_cons] at h
    cases hx : keep x with
    | false =>
      simp only [hx, Bool.false_eq_true, if_false, List.nil_append] at h
      obtain ⟨hle, hrow⟩ := ih (base + 1) h
      have hshift : row - base = (row - (base + 1)) + 1 := by omega
      refine ⟨by omega, ?_⟩
      rw [hshift, List.getElem?_cons_succ, hrow, List.filter_cons_of_neg (by simp [hx])]
    | true =>
      simp only [hx, if_true, List.singleton_append] at h
      rw [List.filter_cons_of_pos hx]
      cases i with
      | zero =>
        rw [List.getElem?_cons_zero] at h
        cases h
        refine ⟨Nat.le_refl _, ?_⟩
        rw [Nat.sub_self, List.getElem?_cons_zero, List.getElem?_cons_zero]
      | succ i =>
        rw [List.getElem?_cons_succ] at h
        obtain ⟨hle, hrow⟩ := ih (base + 1) h
        have hshift : row - base = (row - (base + 1)) + 1 := by omega
        refine ⟨by omega, ?_⟩
        rw [hshift, List.getElem?_cons_succ, List.getElem?_cons_succ, hrow]

theorem lt_of_mem_keptRows {xs : List τ} {base row : Nat} (h : row ∈ keptRows keep xs base) :
    row < base + xs.length := by
  obtain ⟨entry, hentry, rfl⟩ := List.mem_map.mp h
  have hmem := (List.mem_filter.mp hentry).1
  have := List.snd_lt_of_mem_zipIdx hmem
  omega

theorem length_keptRows (xs : List τ) (base : Nat) :
    (keptRows keep xs base).length = (xs.filter keep).length := by
  induction xs generalizing base with
  | nil => rfl
  | cons x xs ih =>
    rw [keptRows_cons, List.length_append, ih, List.filter_cons]
    split <;> simp [Nat.add_comm]

end QCFuse.Library
