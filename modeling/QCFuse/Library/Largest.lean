import Mathlib

/-!
# The `k` best-scored of `n` indices

Equal scores may be told apart in any way. An index is chosen in every way exactly if fewer than
`k` of the others score at least as high; for the last index this is the choice that prefers the
lower index.
-/

set_option autoImplicit false

namespace QCFuse.Library

universe u

variable {α : Type u} [LinearOrder α]

/-- `k` of the indices below `n` such that nothing left out scores higher. -/
structure Largest (score : Nat → α) (n k : Nat) (chosen : List Nat) : Prop where
  nodup : chosen.Nodup
  length : chosen.length = k
  bound : ∀ i ∈ chosen, i < n
  largest : ∀ i ∈ chosen, ∀ j < n, j ∉ chosen → score j ≤ score i

theorem Largest.congr {score score' : Nat → α} {n k : Nat} {chosen : List Nat}
    (h : Largest score n k chosen) (heq : ∀ i < n, score i = score' i) :
    Largest score' n k chosen where
  nodup := h.nodup
  length := h.length
  bound := h.bound
  largest := fun i hi j hj hout => by
    rw [← heq i (h.bound i hi), ← heq j hj]
    exact h.largest i hi j hj hout

/-- The indices below the last one that score at least as high. -/
def rivals (score : Nat → α) (last : Nat) : List Nat :=
  (List.range last).filter fun i => decide (score last ≤ score i)

theorem mem_rivals {score : Nat → α} {last i : Nat} :
    i ∈ rivals score last ↔ i < last ∧ score last ≤ score i := by
  rw [rivals, List.mem_filter, List.mem_range, decide_eq_true_iff]

theorem rivals_congr {score score' : Nat → α} {last : Nat} (heq : ∀ i ≤ last, score i = score' i) :
    rivals score last = rivals score' last := by
  refine List.filter_congr fun i hi => ?_
  rw [heq i (Nat.le_of_lt (List.mem_range.mp hi)), heq last (Nat.le_refl last)]

/-- With fewer rivals than places the last index is chosen. -/
theorem Largest.mem_last {score : Nat → α} {last k : Nat} {chosen : List Nat}
    (h : Largest score (last + 1) k chosen) (hfew : (rivals score last).length < k) :
    last ∈ chosen := by
  by_contra hout
  have hsub : chosen ⊆ rivals score last := by
    intro i hi
    have hlt := h.bound i hi
    have hne : i ≠ last := fun heq => hout (heq ▸ hi)
    exact mem_rivals.mpr ⟨by omega, h.largest i hi last (by omega) hout⟩
  have hle := (h.nodup.subperm hsub).length_le
  rw [h.length] at hle
  omega

/-- `i` goes before `j`: it scores higher, or the same at a lower index. -/
def goesBefore (score : Nat → α) (i j : Nat) : Bool :=
  decide (score j < score i ∨ score i = score j ∧ i ≤ j)

theorem goesBefore_le {score : Nat → α} {i j : Nat} (h : goesBefore score i j = true) :
    score j ≤ score i := by
  rcases of_decide_eq_true h with hlt | ⟨heq, -⟩
  · exact hlt.le
  · exact heq.ge

/-- The indices below `n` by their scores, equal ones in increasing order. -/
def ranked (score : Nat → α) (n : Nat) : List Nat := (List.range n).mergeSort (goesBefore score)

theorem ranked_perm (score : Nat → α) (n : Nat) : (ranked score n).Perm (List.range n) :=
  List.mergeSort_perm _ _

theorem ranked_pairwise (score : Nat → α) (n : Nat) :
    (ranked score n).Pairwise fun i j => goesBefore score i j = true := by
  refine List.pairwise_mergeSort (fun i j k hij hjk => ?_) (fun i j => ?_) _
  · refine decide_eq_true ?_
    rcases of_decide_eq_true hij with hlt | ⟨heq, hle'⟩
    · exact .inl ((goesBefore_le hjk).trans_lt hlt)
    · rcases of_decide_eq_true hjk with hlt | ⟨heq', hle''⟩
      · exact .inl (heq ▸ hlt)
      · exact .inr ⟨heq.trans heq', Nat.le_trans hle' hle''⟩
  · rw [Bool.or_eq_true]
    rcases lt_trichotomy (score i) (score j) with hlt | heq | hgt
    · exact .inr (decide_eq_true (.inl hlt))
    · rcases Nat.le_total i j with hij | hji
      · exact .inl (decide_eq_true (.inr ⟨heq, hij⟩))
      · exact .inr (decide_eq_true (.inr ⟨heq.symm, hji⟩))
    · exact .inl (decide_eq_true (.inl hgt))

theorem largest_take_ranked (score : Nat → α) {n k : Nat} (hk : k ≤ n) :
    Largest score n k ((ranked score n).take k) where
  nodup := (List.take_sublist _ _).nodup ((ranked_perm score n).nodup_iff.mpr List.nodup_range)
  length := by
    rw [List.length_take, (ranked_perm score n).length_eq, List.length_range, Nat.min_eq_left hk]
  bound := fun i hi => List.mem_range.mp ((ranked_perm score n).mem_iff.mp (List.mem_of_mem_take hi))
  largest := fun i hi j hj hout => by
    have hmem : j ∈ ranked score n := (ranked_perm score n).mem_iff.mpr (List.mem_range.mpr hj)
    have hsorted := ranked_pairwise score n
    rw [← List.take_append_drop k (ranked score n)] at hmem hsorted
    have hdrop := (List.mem_append.mp hmem).resolve_left hout
    exact goesBefore_le ((List.pairwise_append.mp hsorted).2.2 i hi j hdrop)

/-- With as many rivals as places this choice leaves the last index out. -/
theorem last_not_mem_take_ranked {score : Nat → α} {last k : Nat}
    (hmany : k ≤ (rivals score last).length) : last ∉ (ranked score (last + 1)).take k := by
  intro hin
  have hsorted := ranked_pairwise score (last + 1)
  have hnodup : (ranked score (last + 1)).Nodup := (ranked_perm score _).nodup_iff.mpr List.nodup_range
  obtain ⟨p, hp, hlast⟩ := List.getElem_of_mem hin
  rw [List.getElem_take] at hlast
  rw [List.length_take] at hp
  -- every rival stands before the last index
  have hsub : rivals score last ⊆ (ranked score (last + 1)).take p := by
    intro i hi
    obtain ⟨hlt, hle⟩ := mem_rivals.mp hi
    have hmem : i ∈ ranked score (last + 1) :=
      (ranked_perm score _).mem_iff.mpr (List.mem_range.mpr (by omega))
    obtain ⟨q, hq, rfl⟩ := List.getElem_of_mem hmem
    rcases Nat.lt_trichotomy q p with hqp | rfl | hpq
    · exact List.mem_take_iff_getElem.mpr ⟨q, by omega, rfl⟩
    · omega
    · have hbefore := List.pairwise_iff_getElem.mp hsorted p q (by omega) hq hpq
      rw [hlast] at hbefore
      rcases of_decide_eq_true hbefore with hscore | ⟨-, hindex⟩
      · exact absurd hle hscore.not_ge
      · omega
  have hrivals : (rivals score last).Nodup := List.nodup_range.filter _
  have hcount := (hrivals.subperm hsub).length_le
  rw [List.length_take] at hcount
  omega

end QCFuse.Library
