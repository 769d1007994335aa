import Mathlib.Data.List.Basic

/-!
# A table written step by step

Each step writes some cells of a table and leaves the others. A cell no step writes keeps its value,
and a cell that every writing step gives the same value ends with it.
-/

set_option autoImplicit false

namespace QCFuse.Library

universe u v w x

variable {σ : Type u} {ι : Type v} {κ : Type w} {α : Type x} (hits : σ → ι → κ → Prop)
  [∀ s i k, Decidable (hits s i k)] (value : σ → ι → κ → α)

/-- The table after one step. -/
def overwriteStep (table : ι → κ → α) (s : σ) : ι → κ → α := fun i k =>
  if hits s i k then value s i k else table i k

variable {steps : List σ} {i : ι} {k : κ}

theorem foldl_overwrite_of_not_hit (table : ι → κ → α) (h : ∀ s ∈ steps, ¬ hits s i k) :
    steps.foldl (overwriteStep hits value) table i k = table i k := by
  induction steps generalizing table with
  | nil => rfl
  | cons s steps ih =>
    rw [List.foldl_cons, ih _ fun t ht => h t (List.mem_cons_of_mem _ ht)]
    exact if_neg (h s List.mem_cons_self)

theorem foldl_overwrite_of_hit (table : ι → κ → α) {a : α} (hsome : ∃ s ∈ steps, hits s i k)
    (hsame : ∀ s ∈ steps, hits s i k → value s i k = a) :
    steps.foldl (overwriteStep hits value) table i k = a := by
  induction steps generalizing table with
  | nil => exact absurd hsome.choose_spec.1 List.not_mem_nil
  | cons s steps ih =>
    rw [List.foldl_cons]
    by_cases htail : ∃ t ∈ steps, hits t i k
    · exact ih _ htail fun t ht => hsame t (List.mem_cons_of_mem _ ht)
    · have hnone : ∀ t ∈ steps, ¬ hits t i k := fun t ht hit => htail ⟨t, ht, hit⟩
      have hhead : hits s i k := by
        obtain ⟨t, ht, hit⟩ := hsome
        rcases List.mem_cons.mp ht with rfl | ht
        · exact hit
        · exact absurd hit (hnone t ht)
      rw [foldl_overwrite_of_not_hit hits value _ hnone]
      exact (if_pos hhead).trans (hsame s List.mem_cons_self hhead)

end QCFuse.Library
