import Mathlib.Data.List.Pairwise
import QCFuse.Library.EvenChunks
import QCFuse.Source.ExpertLocationUpdater

/-!
# Who sends an expert to whom

A rank that needs an expert chooses its source, and a rank that has it lists its destinations. Both
work from the same layouts, each from its own node, and agree.
-/

set_option autoImplicit false

namespace QCFuse.Guarantees

open QCFuse.Library QCFuse.Source

/-! ## `_deduplicate_ordered` -/

theorem foldl_deduplicate {arr : List Nat} (harr : arr.Pairwise (· ≤ ·)) (output : List Nat)
    (houtput : output.Pairwise (· < ·)) (hle : ∀ o ∈ output, ∀ x ∈ arr, o ≤ x) :
    (arr.foldl (fun output item => if output.getLast? = some item then output else output ++ [item])
      output).Pairwise (· < ·) ∧
    ∀ x, x ∈ arr.foldl (fun output item => if output.getLast? = some item then output else output ++ [item])
      output ↔ x ∈ output ∨ x ∈ arr := by
  induction arr generalizing output with
  | nil => exact ⟨houtput, fun x => by simp⟩
  | cons item arr ih =>
    obtain ⟨hitem, harr⟩ := List.pairwise_cons.mp harr
    rw [List.foldl_cons]
    by_cases hlast : output.getLast? = some item
    · rw [if_pos hlast]
      obtain ⟨hsorted, hmem⟩ := ih harr output houtput fun o ho x hx => hle o ho x (List.mem_cons_of_mem _ hx)
      refine ⟨hsorted, fun x => (hmem x).trans ?_⟩
      have hin := List.mem_of_getLast? hlast
      constructor
      · exact fun h => h.imp_right (List.mem_cons_of_mem _)
      · rintro (h | h)
        · exact Or.inl h
        · rcases List.mem_cons.mp h with rfl | h
          · exact Or.inl hin
          · exact Or.inr h
    · rw [if_neg hlast]
      have hlt : ∀ o ∈ output, o < item := by
        intro o ho
        refine lt_of_le_of_ne (hle o ho item List.mem_cons_self) ?_
        rintro rfl
        refine hlast ?_
        have hne := List.ne_nil_of_mem ho
        rw [List.getLast?_eq_some_getLast hne, Option.some.injEq]
        refine Nat.le_antisymm (hle _ (List.getLast_mem hne) _ List.mem_cons_self) ?_
        exact (houtput.imp Nat.le_of_lt).rel_getLast ho
      obtain ⟨hsorted, hmem⟩ := ih harr (output ++ [item])
        (List.pairwise_append.mpr ⟨houtput, List.pairwise_singleton _ _, fun o ho x hx => by
          rw [List.mem_singleton.mp hx]
          exact hlt o ho⟩)
        (fun o ho x hx => by
          rcases List.mem_append.mp ho with ho | ho
          · exact hle o ho x (List.mem_cons_of_mem _ hx)
          · rw [List.mem_singleton.mp ho]
            exact hitem x hx)
      refine ⟨hsorted, fun x => (hmem x).trans ?_⟩
      rw [List.mem_append, List.mem_singleton, List.mem_cons, or_assoc]

theorem deduplicateOrdered_spec {arr : List Nat} (harr : arr.Pairwise (· ≤ ·)) :
    (deduplicateOrdered arr).Nodup ∧ ∀ x, x ∈ deduplicateOrdered arr ↔ x ∈ arr := by
  obtain ⟨hsorted, hmem⟩ := foldl_deduplicate harr [] List.Pairwise.nil
    fun o ho => absurd ho List.not_mem_nil
  refine ⟨hsorted.imp Nat.ne_of_lt, fun x => (hmem x).trans ?_⟩
  simp

/-! ## `_ChunkUtils` -/

namespace ChunkUtils

variable {utils : ChunkUtils}

theorem chunkIndex_eq {n c i : Nat} (hc : 0 < c) (hi : i < n) :
    ChunkUtils.chunkIndexFromElementIndex n c i = .ok (chunkOf n c i) := by
  have hn := Nat.div_add_mod n c
  simp only [ChunkUtils.chunkIndexFromElementIndex, divmod, if_neg (Nat.ne_of_gt hc), bind, Except.bind,
    pure, Except.pure, chunkOf]
  by_cases hlong : i < n % c * (n / c + 1)
  · rw [if_pos hlong, if_pos hlong]
  · have hshort : n / c ≠ 0 := by
      intro hzero
      rw [hzero] at hn hlong
      omega
    rw [if_neg hlong, if_neg hlong, if_neg hshort]

theorem elementSlice_eq {n c : Nat} (hc : 0 < c) (k : Nat) :
    ChunkUtils.elementSliceFromChunkIndex n c k = .ok (chunkStart n c k, chunkStart n c (k + 1)) := by
  rw [chunkStart_succ]
  simp only [ChunkUtils.elementSliceFromChunkIndex, divmod, if_neg (Nat.ne_of_gt hc), bind, Except.bind,
    pure, Except.pure, chunkStart]

/-- Every element has a chunk. -/
theorem chunkValue_ok {x : Nat} (hx : x ∈ utils.elementValues) (hne : utils.chunkValues ≠ []) :
    ∃ h : chunkOf utils.elementValues.length utils.chunkValues.length (utils.elementValues.idxOf x) <
        utils.chunkValues.length, utils.chunkValueFromElementValue x = .ok (utils.chunkValues[chunkOf
          utils.elementValues.length utils.chunkValues.length (utils.elementValues.idxOf x)]) := by
  have hc := List.length_pos_iff.mpr hne
  have hi := List.idxOf_lt_length_of_mem hx
  have hlt := chunkOf_lt hc hi
  refine ⟨hlt, ?_⟩
  simp only [ChunkUtils.chunkValueFromElementValue, listIndex, if_pos hx, chunkIndex_eq hc hi, bind,
    Except.bind, List.getElem?_eq_getElem hlt, pure, Except.pure]

/-- The elements listed for a chunk are those whose chunk it is. -/
theorem elementValues_spec (hchunks : utils.chunkValues.Nodup) (helements : utils.elementValues.Nodup)
    {c : Nat} (hc : c ∈ utils.chunkValues) :
    ∃ values, utils.elementValuesFromChunkValue c = .ok values ∧ values.Nodup ∧
      ∀ x, x ∈ values ↔ x ∈ utils.elementValues ∧ utils.chunkValueFromElementValue x = .ok c := by
  have hpos := List.length_pos_of_mem hc
  rw [ChunkUtils.elementValuesFromChunkValue]
  by_cases hempty : utils.elementValues.length = 0
  · rw [if_pos hempty, List.length_eq_zero_iff.mp hempty]
    exact ⟨[], rfl, List.nodup_nil, fun x => by simp⟩
  · rw [if_neg hempty]
    simp only [listIndex, if_pos hc, elementSlice_eq hpos, bind, Except.bind, pure, Except.pure]
    refine ⟨_, rfl, helements.sublist ((List.take_sublist _ _).trans (List.drop_sublist _ _)), fun x => ?_⟩
    rw [mem_drop_take_iff helements, Nat.add_sub_cancel' (chunkStart_mono _ _ (Nat.le_succ _))]
    refine and_congr_right fun hx => ?_
    obtain ⟨hlt, hvalue⟩ := chunkValue_ok hx (List.ne_nil_of_mem hc)
    rw [hvalue, Except.ok.injEq, ← chunkOf_eq_iff (List.idxOf_lt_length_of_mem hx)]
    constructor
    · intro heq
      simp only [heq]
      exact List.getElem_idxOf (List.idxOf_lt_length_of_mem hc)
    · intro heq
      rw [← heq, hchunks.idxOf_getElem]

end ChunkUtils

/-! ## Ranks that host an expert -/

variable (layouts : ExpertLayouts)

/-- `rank` has the expert in the old layout. -/
def HostsOld (rank : Nat) (e : Int) : Prop := ∃ x ∈ layouts.localRange rank, layouts.old x = e

/-- `rank` has the expert in the new layout. -/
def HostsNew (rank : Nat) (e : Int) : Prop := ∃ x ∈ layouts.localRange rank, layouts.new x = e

variable {layouts}

theorem mem_localRange {rank x : Nat} : x ∈ layouts.localRange rank ↔
    0 < layouts.numLocalPhysicalExperts ∧ x / layouts.numLocalPhysicalExperts = rank := by
  rw [ExpertLayouts.localRange, List.mem_range'_1]
  rcases Nat.eq_zero_or_pos layouts.numLocalPhysicalExperts with hzero | hpos
  · rw [hzero]
    omega
  · rw [Nat.div_eq_iff hpos]
    omega

/-- The ranks of the slots that satisfy a condition, as the source lists them. -/
theorem ranks_spec (keep : Nat → Bool) :
    (deduplicateOrdered (((List.range layouts.numPhysicalExperts).filter keep).map
      (· / layouts.numLocalPhysicalExperts))).Nodup ∧
    ∀ r, r ∈ deduplicateOrdered (((List.range layouts.numPhysicalExperts).filter keep).map
      (· / layouts.numLocalPhysicalExperts)) ↔
      r < layouts.worldSize ∧ ∃ x ∈ layouts.localRange r, keep x = true := by
  have hsorted : (((List.range layouts.numPhysicalExperts).filter keep).map
      (· / layouts.numLocalPhysicalExperts)).Pairwise (· ≤ ·) :=
    (List.pairwise_lt_range.sublist List.filter_sublist).map _ fun x y h => Nat.div_le_div_right (Nat.le_of_lt h)
  obtain ⟨hnodup, hmem⟩ := deduplicateOrdered_spec hsorted
  refine ⟨hnodup, fun r => (hmem r).trans ?_⟩
  have hlen : layouts.numPhysicalExperts = layouts.worldSize * layouts.numLocalPhysicalExperts := layouts.oldLength
  simp only [List.mem_map, List.mem_filter, List.mem_range, hlen]
  constructor
  · rintro ⟨x, ⟨hx, hkeep⟩, rfl⟩
    have hpos : 0 < layouts.numLocalPhysicalExperts := by
      by_contra hzero
      rw [Nat.eq_zero_of_not_pos hzero] at hx
      omega
    exact ⟨(Nat.div_lt_iff_lt_mul hpos).mpr hx, x, mem_localRange.mpr ⟨hpos, rfl⟩, hkeep⟩
  · rintro ⟨hr, x, hx, hkeep⟩
    obtain ⟨hpos, rfl⟩ := mem_localRange.mp hx
    exact ⟨x, ⟨(Nat.div_lt_iff_lt_mul hpos).mp hr, hkeep⟩, rfl⟩

theorem mem_allSrcRanks {r : Nat} {e : Int} :
    r ∈ layouts.allSrcRanks e ↔ r < layouts.worldSize ∧ HostsOld layouts r e := by
  rw [ExpertLayouts.allSrcRanks, (ranks_spec _).2]
  simp only [decide_eq_true_eq]
  rfl

theorem mem_needCommDstRanks {r : Nat} {e : Int} :
    r ∈ layouts.needCommDstRanks e ↔ r < layouts.worldSize ∧ HostsNew layouts r e ∧ ¬ HostsOld layouts r e := by
  rw [ExpertLayouts.needCommDstRanks, (ranks_spec _).2]
  simp only [decide_eq_true_eq]
  refine and_congr_right fun hr => ?_
  constructor
  · rintro ⟨x, hx, hnew, hsrc⟩
    rw [(mem_localRange.mp hx).2, mem_allSrcRanks] at hsrc
    exact ⟨⟨x, hx, hnew⟩, fun hold => hsrc ⟨hr, hold⟩⟩
  · rintro ⟨⟨x, hx, hnew⟩, hold⟩
    refine ⟨x, hx, hnew, ?_⟩
    rw [(mem_localRange.mp hx).2, mem_allSrcRanks]
    exact fun hsrc => hold hsrc.2

/-! ## Source and destinations -/

section CommInfo

variable (rank : Nat) (e : Int)

theorem sameNode_nodup : (layouts.computeCommInfo rank e).sameNodeMapping.chunkValues.Nodup ∧
    (layouts.computeCommInfo rank e).sameNodeMapping.elementValues.Nodup := by
  refine ⟨(ranks_spec _).1.filter _, ?_⟩
  simp only [ExpertLayouts.computeCommInfo]
  split
  · exact (ranks_spec _).1.filter _
  · exact List.nodup_nil

theorem crossNode_nodup : (layouts.computeCommInfo rank e).crossNodeMapping.chunkValues.Nodup ∧
    (layouts.computeCommInfo rank e).crossNodeMapping.elementValues.Nodup :=
  ⟨(ranks_spec _).1, (ranks_spec _).1.filter _⟩

variable {rank e}

theorem mem_sameNode_chunks {a : Nat} : a ∈ (layouts.computeCommInfo rank e).sameNodeMapping.chunkValues ↔
    a ∈ layouts.allSrcRanks e ∧ layouts.node a = layouts.node rank := by
  simp only [ExpertLayouts.computeCommInfo, List.mem_filter, decide_eq_true_eq]

theorem mem_sameNode_elements {b : Nat} :
    b ∈ (layouts.computeCommInfo rank e).sameNodeMapping.elementValues ↔
      b ∈ layouts.needCommDstRanks e ∧ layouts.node b = layouts.node rank ∧
        ∃ a ∈ layouts.allSrcRanks e, layouts.node a = layouts.node rank := by
  simp only [ExpertLayouts.computeCommInfo]
  by_cases hsrc : ∃ a ∈ layouts.allSrcRanks e, layouts.node a = layouts.node rank
  · obtain ⟨a, ha, hnode⟩ := hsrc
    rw [if_pos (List.length_pos_of_mem (List.mem_filter.mpr ⟨ha, decide_eq_true hnode⟩)), List.mem_filter,
      decide_eq_true_eq]
    exact ⟨fun h => ⟨h.1, h.2, a, ha, hnode⟩, fun h => ⟨h.1, h.2.1⟩⟩
  · have hnone : (layouts.allSrcRanks e).filter (fun x => layouts.node x = layouts.node rank) = [] := by
      refine List.filter_eq_nil_iff.mpr fun a ha hnode => hsrc ⟨a, ha, ?_⟩
      exact of_decide_eq_true hnode
    rw [hnone]
    simp only [List.length_nil, Nat.lt_irrefl, if_false]
    exact ⟨fun h => absurd h List.not_mem_nil, fun h => absurd h.2.2 hsrc⟩

theorem mem_crossNode_elements {b : Nat} :
    b ∈ (layouts.computeCommInfo rank e).crossNodeMapping.elementValues ↔
      b ∈ layouts.needCommDstRanks e ∧ ∀ a ∈ layouts.allSrcRanks e, layouts.node a ≠ layouts.node b := by
  simp only [ExpertLayouts.computeCommInfo, List.mem_filter, decide_eq_true_eq, List.mem_map, not_exists,
    not_and]

end CommInfo

/-- The mappings of two ranks on one node are the same. -/
theorem sameNodeMapping_congr {a b : Nat} (e : Int) (h : layouts.node a = layouts.node b) :
    (layouts.computeCommInfo a e).sameNodeMapping = (layouts.computeCommInfo b e).sameNodeMapping := by
  simp only [ExpertLayouts.computeCommInfo, h]

theorem crossNodeMapping_congr (a b : Nat) (e : Int) :
    (layouts.computeCommInfo a e).crossNodeMapping = (layouts.computeCommInfo b e).crossNodeMapping := rfl

/-- The source is looked up in one of the two mappings. -/
theorem chosenSrcRank_cases {b : Nat} {e : Int} (hb : b ∈ layouts.needCommDstRanks e) :
    (b ∈ (layouts.computeCommInfo b e).sameNodeMapping.elementValues ∧ layouts.chosenSrcRank b e =
      (layouts.computeCommInfo b e).sameNodeMapping.chunkValueFromElementValue b) ∨
    (b ∈ (layouts.computeCommInfo b e).crossNodeMapping.elementValues ∧ layouts.chosenSrcRank b e =
      (layouts.computeCommInfo b e).crossNodeMapping.chunkValueFromElementValue b) := by
  by_cases hsame : b ∈ (layouts.computeCommInfo b e).sameNodeMapping.elementValues
  · exact Or.inl ⟨hsame, if_pos hsame⟩
  · refine Or.inr ⟨mem_crossNode_elements.mpr ⟨hb, fun a ha hnode => hsame ?_⟩, if_neg hsame⟩
    exact mem_sameNode_elements.mpr ⟨hb, rfl, a, ha, hnode⟩

theorem chunkValue_mem {utils : ChunkUtils} {x c : Nat} (hx : x ∈ utils.elementValues)
    (hne : utils.chunkValues ≠ []) (h : utils.chunkValueFromElementValue x = .ok c) : c ∈ utils.chunkValues := by
  obtain ⟨hlt, hvalue⟩ := ChunkUtils.chunkValue_ok hx hne
  rw [hvalue] at h
  cases h
  exact List.getElem_mem hlt

/-- A rank that needs an expert finds a source, among the ranks that have it. -/
theorem chosenSrcRank_ok {b : Nat} {e : Int} (hb : b ∈ layouts.needCommDstRanks e)
    (hsrc : layouts.allSrcRanks e ≠ []) :
    ∃ a ∈ layouts.allSrcRanks e, layouts.chosenSrcRank b e = .ok a := by
  rcases chosenSrcRank_cases hb with ⟨hmem, hchosen⟩ | ⟨hmem, hchosen⟩
  · obtain ⟨-, -, a, ha, hnode⟩ := mem_sameNode_elements.mp hmem
    have hne := List.ne_nil_of_mem (mem_sameNode_chunks.mpr ⟨ha, hnode⟩)
    obtain ⟨hlt, hvalue⟩ := ChunkUtils.chunkValue_ok hmem hne
    exact ⟨_, (mem_sameNode_chunks.mp (List.getElem_mem hlt)).1, hchosen.trans hvalue⟩
  · obtain ⟨hlt, hvalue⟩ := ChunkUtils.chunkValue_ok hmem hsrc
    exact ⟨_, List.getElem_mem hlt, hchosen.trans hvalue⟩

/-- A rank sends an expert to exactly the ranks that chose it. -/
theorem allDstRanks_spec {a : Nat} {e : Int} (ha : a ∈ layouts.allSrcRanks e) :
    ∃ dsts, layouts.allDstRanks a e = .ok dsts ∧ dsts.Nodup ∧
      ∀ b, b ∈ dsts ↔ b ∈ layouts.needCommDstRanks e ∧ layouts.chosenSrcRank b e = .ok a := by
  have hself := mem_sameNode_chunks.mpr ⟨ha, rfl⟩
  obtain ⟨same, hsame, hsameNodup, hmemSame⟩ :=
    ChunkUtils.elementValues_spec (sameNode_nodup a e).1 (sameNode_nodup a e).2 hself
  obtain ⟨cross, hcross, hcrossNodup, hmemCross⟩ :=
    ChunkUtils.elementValues_spec (crossNode_nodup a e).1 (crossNode_nodup a e).2 ha
  refine ⟨same ++ cross, ?_, List.nodup_append'.mpr ⟨hsameNodup, hcrossNodup, ?_⟩, fun b => ?_⟩
  · simp only [ExpertLayouts.allDstRanks, hsame, hcross, bind, Except.bind, pure, Except.pure]
  · intro b hb hb'
    obtain ⟨-, hnode, -⟩ := mem_sameNode_elements.mp ((hmemSame b).mp hb).1
    exact (mem_crossNode_elements.mp ((hmemCross b).mp hb').1).2 a ha hnode.symm
  · rw [List.mem_append, hmemSame, hmemCross]
    constructor
    · rintro (⟨hmem, hvalue⟩ | ⟨hmem, hvalue⟩)
      · obtain ⟨hb, hnode, -⟩ := mem_sameNode_elements.mp hmem
        rw [sameNodeMapping_congr e hnode.symm] at hmem hvalue
        exact ⟨hb, (if_pos hmem).trans hvalue⟩
      · obtain ⟨hb, hnodes⟩ := mem_crossNode_elements.mp hmem
        have hnot : b ∉ (layouts.computeCommInfo b e).sameNodeMapping.elementValues := fun h => by
          obtain ⟨-, -, other, hother, hnode⟩ := mem_sameNode_elements.mp h
          exact hnodes other hother hnode
        exact ⟨hb, (if_neg hnot).trans hvalue⟩
    · rintro ⟨hb, hchosen⟩
      rcases chosenSrcRank_cases hb with ⟨hmem, hvalue⟩ | ⟨hmem, hvalue⟩
      · rw [hvalue] at hchosen
        obtain ⟨-, -, other, hother, hnode⟩ := mem_sameNode_elements.mp hmem
        have hne := List.ne_nil_of_mem (mem_sameNode_chunks.mpr ⟨hother, hnode⟩)
        obtain ⟨-, hnode⟩ := mem_sameNode_chunks.mp (chunkValue_mem hmem hne hchosen)
        rw [← sameNodeMapping_congr e hnode] at hmem hchosen
        exact Or.inl ⟨hmem, hchosen⟩
      · rw [hvalue] at hchosen
        exact Or.inr ⟨hmem, hchosen⟩

end QCFuse.Guarantees
