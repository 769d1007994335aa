import QCFuse.Library.Largest

/-!
# Best-scored nodes and their parents

No node of a forest scores above its parent. A choice of the `k` best-scored nodes then holds the parents of
its nodes, unless the places run out among nodes of one score and one of them is the parent of another.
-/

set_option autoImplicit false

namespace QCFuse.Library

universe u

variable {α : Type u} [LinearOrder α] {score : Nat → α} {n k : Nat} {chosen : List Nat}

/-- The nodes that score above `c`. -/
def scoringAbove (score : Nat → α) (n : Nat) (c : α) : List Nat := (List.range n).filter fun i => decide (c < score i)

/-- The nodes that score at least `c`. -/
def scoringAtLeast (score : Nat → α) (n : Nat) (c : α) : List Nat :=
  (List.range n).filter fun i => decide (c ≤ score i)

theorem mem_scoringAbove {c : α} {i : Nat} : i ∈ scoringAbove score n c ↔ i < n ∧ c < score i := by
  rw [scoringAbove, List.mem_filter, List.mem_range, decide_eq_true_iff]

theorem mem_scoringAtLeast {c : α} {i : Nat} : i ∈ scoringAtLeast score n c ↔ i < n ∧ c ≤ score i := by
  rw [scoringAtLeast, List.mem_filter, List.mem_range, decide_eq_true_iff]

/-- The `k` places run out among the nodes that score `c`. -/
def RunsOutAt (score : Nat → α) (n k : Nat) (c : α) : Prop :=
  (scoringAbove score n c).length < k ∧ k < (scoringAtLeast score n c).length

/-- A node that is chosen before another of its score shows that the places run out there. -/
theorem Largest.runsOutAt (h : Largest score n k chosen) {s p : Nat} (hs : s ∈ chosen) (hp : p < n)
    (hout : p ∉ chosen) (heq : score p = score s) : RunsOutAt score n k (score s) := by
  have hnodup : (scoringAbove score n (score s)).Nodup := List.nodup_range.filter _
  constructor
  · have hsub : s :: scoringAbove score n (score s) ⊆ chosen := by
      intro i hi
      rcases List.mem_cons.mp hi with rfl | hi
      · exact hs
      · obtain ⟨hin, hlt⟩ := mem_scoringAbove.mp hi
        by_contra hnot
        exact absurd (h.largest s hs i hin hnot) (not_le.mpr hlt)
    have hself : s ∉ scoringAbove score n (score s) := fun hmem => lt_irrefl _ (mem_scoringAbove.mp hmem).2
    have hle := ((List.nodup_cons.mpr ⟨hself, hnodup⟩).subperm hsub).length_le
    rw [List.length_cons, h.length] at hle
    exact hle
  · have hsub : p :: chosen ⊆ scoringAtLeast score n (score s) := by
      intro i hi
      rcases List.mem_cons.mp hi with rfl | hi
      · exact mem_scoringAtLeast.mpr ⟨hp, heq.ge⟩
      · exact mem_scoringAtLeast.mpr ⟨h.bound i hi, heq ▸ h.largest i hi p hp hout⟩
    have hle := ((List.nodup_cons.mpr ⟨hout, h.nodup⟩).subperm hsub).length_le
    rw [List.length_cons, h.length] at hle
    exact hle

/-- Where the places run out, some choice takes `s` and leaves out `p`. -/
theorem exists_largest_without {s p : Nat} (hs : s < n) (hp : p < n) (hne : s ≠ p) (heq : score p = score s)
    (hcut : RunsOutAt score n k (score s)) : ∃ chosen, Largest score n k chosen ∧ s ∈ chosen ∧ p ∉ chosen := by
  obtain ⟨habove, hatLeast⟩ := hcut
  generalize hc : score s = c at *
  let others := (List.range n).filter fun i => decide (score i = c ∧ i ≠ s ∧ i ≠ p)
  have hothers : ∀ {i}, i ∈ others ↔ i < n ∧ score i = c ∧ i ≠ s ∧ i ≠ p := by
    intro i
    rw [List.mem_filter, List.mem_range, decide_eq_true_iff]
  have hnodup : (scoringAbove score n c ++ s :: p :: others).Nodup := by
    have hnot : ∀ {i}, i ∈ scoringAbove score n c → score i ≠ c := fun hi => ((mem_scoringAbove.mp hi).2).ne'
    refine List.nodup_append.mpr ⟨List.nodup_range.filter _, ?_, fun a ha b hb hab => ?_⟩
    · refine List.nodup_cons.mpr ⟨fun hmem => ?_, List.nodup_cons.mpr ⟨fun hmem => ?_, List.nodup_range.filter _⟩⟩
      · rcases List.mem_cons.mp hmem with hsp | hmem
        · exact hne hsp
        · exact (hothers.mp hmem).2.2.1 rfl
      · exact (hothers.mp hmem).2.2.2 rfl
    · subst hab
      rcases List.mem_cons.mp hb with rfl | hb
      · exact hnot ha hc
      · rcases List.mem_cons.mp hb with rfl | hb
        · exact hnot ha heq
        · exact hnot ha (hothers.mp hb).2.1
  have hperm : (scoringAtLeast score n c).Perm (scoringAbove score n c ++ s :: p :: others) := by
    refine (List.perm_ext_iff_of_nodup (List.nodup_range.filter _) hnodup).mpr fun i => ?_
    change i ∈ scoringAtLeast score n c ↔ _
    rw [mem_scoringAtLeast, List.mem_append, mem_scoringAbove, List.mem_cons, List.mem_cons, hothers]
    constructor
    · rintro ⟨hi, hle⟩
      rcases lt_or_eq_of_le hle with hlt | hsame
      · exact .inl ⟨hi, hlt⟩
      · by_cases his : i = s
        · exact .inr (.inl his)
        · by_cases hip : i = p
          · exact .inr (.inr (.inl hip))
          · exact .inr (.inr (.inr ⟨hi, hsame.symm, his, hip⟩))
    · rintro (⟨hi, hlt⟩ | rfl | rfl | ⟨hi, hsame, -, -⟩)
      · exact ⟨hi, hlt.le⟩
      · exact ⟨hs, hc.ge⟩
      · exact ⟨hp, heq.ge⟩
      · exact ⟨hi, hsame.ge⟩
  have hcount := hperm.length_eq
  rw [List.length_append, List.length_cons, List.length_cons] at hcount
  have hscores : ∀ i ∈ scoringAbove score n c ++ s :: others.take (k - (scoringAbove score n c).length - 1),
      c ≤ score i := by
    intro i hi
    rcases List.mem_append.mp hi with hi | hi
    · exact (mem_scoringAbove.mp hi).2.le
    · rcases List.mem_cons.mp hi with rfl | hi
      · exact hc.ge
      · exact (hothers.mp (List.mem_of_mem_take hi)).2.1.ge
  refine ⟨scoringAbove score n c ++ s :: others.take (k - (scoringAbove score n c).length - 1),
    ⟨?_, ?_, fun i hi => ?_, fun i hi j hj hout => ?_⟩, ?_, fun hmem => ?_⟩
  · refine hnodup.sublist (List.Sublist.append_left ?_ _)
    exact ((List.take_sublist _ _).trans (List.sublist_cons_self p others)).cons_cons s
  · rw [List.length_append, List.length_cons, List.length_take]
    omega
  · rcases List.mem_append.mp hi with hi | hi
    · exact (mem_scoringAbove.mp hi).1
    · rcases List.mem_cons.mp hi with rfl | hi
      · exact hs
      · exact (hothers.mp (List.mem_of_mem_take hi)).1
  · refine le_trans ?_ (hscores i hi)
    by_contra hlt
    exact hout (List.mem_append_left _ (mem_scoringAbove.mpr ⟨hj, not_le.mp hlt⟩))
  · exact List.mem_append_right _ List.mem_cons_self
  · rcases List.mem_append.mp hmem with hmem | hmem
    · exact absurd heq (mem_scoringAbove.mp hmem).2.ne'
    · rcases List.mem_cons.mp hmem with rfl | hmem
      · exact hne rfl
      · exact (hothers.mp (List.mem_of_mem_take hmem)).2.2.2 rfl

/-- Every choice holds the parents of its nodes exactly if no parent shares the score at which the places
run out with a child of its. -/
theorem closed_iff {parent : Nat → Option Nat}
    (hparent : ∀ s p, s < n → parent s = some p → p < s ∧ score s ≤ score p) :
    (∀ chosen, Largest score n k chosen → ∀ s ∈ chosen, ∀ p ∈ parent s, p ∈ chosen) ↔
      ∀ s p, s < n → parent s = some p → score p = score s → ¬ RunsOutAt score n k (score s) := by
  constructor
  · intro hclosed s p hs hp heq hcut
    have hlt := (hparent s p hs hp).1
    obtain ⟨chosen, hlargest, hin, hout⟩ :=
      exists_largest_without hs (Nat.lt_trans hlt hs) (Nat.ne_of_gt hlt) heq hcut
    exact hout (hclosed chosen hlargest s hin p hp)
  · intro hcut chosen hlargest s hs p hp
    by_contra hout
    have hsn := hlargest.bound s hs
    obtain ⟨hlt, hle⟩ := hparent s p hsn hp
    have heq := le_antisymm (hlargest.largest s hs p (Nat.lt_trans hlt hsn) hout) hle
    exact hcut s p hsn hp heq (hlargest.runsOutAt hs (Nat.lt_trans hlt hsn) hout heq)

end QCFuse.Library
