import QCFuse.Guarantees.TokenSelection
import QCFuse.Library.Paging
import QCFuse.Source.QueryGather

/-!
# A selection reads each request's own queries

The indices of a batch are its requests' ranges laid end to end, so running sums of their lengths
cut the collected rows back, whatever batch the selection runs over.
-/

set_option autoImplicit false

namespace QCFuse.Guarantees

open QCFuse.Library QCFuse.Source

/-- The chunk boundaries of a request with two chunks or more. -/
structure TwoChunks (loc : List Int) : Prop where
  chunks : 3 ≤ loc.length
  sorted : loc.Pairwise (· ≤ ·)

/-- The token of the batch at which chunk `k` of request `i` starts. -/
def tokenAt (blendLocs : List (List Int)) (k i : Nat) : Int :=
  tokensBefore blendLocs i + ((blendLocs.getD i []).getD k 0 - (blendLocs.getD i []).getD 0 0)

/-- The tokens of the chunks from `first` up to `stop` of request `i`. -/
def chunksOf (blendLocs : List (List Int)) (first stop i : Nat) : List Int :=
  pyRange (tokenAt blendLocs first i) (tokenAt blendLocs stop i)

section Gather

variable {blendLocs : List (List Int)} (h : ∀ loc ∈ blendLocs, TwoChunks loc)

theorem tokenAt_zero (i : Nat) : tokenAt blendLocs 0 i = tokensBefore blendLocs i := by
  rw [tokenAt, sub_self, add_zero]

include h

theorem twoChunks_getD {i : Nat} (hi : i < blendLocs.length) : TwoChunks (blendLocs.getD i []) := by
  rw [List.getD_eq_getElem _ _ hi]
  exact h _ (List.getElem_mem hi)

theorem tokenAt_mono {i j k : Nat} (hi : i < blendLocs.length) (hjk : j ≤ k) (hk : k ≤ 2) :
    tokenAt blendLocs j i ≤ tokenAt blendLocs k i := by
  have hloc := twoChunks_getD h hi
  have hmono := getD_mono hloc.sorted hjk (Nat.lt_of_le_of_lt hk hloc.chunks)
  unfold tokenAt
  omega

theorem pyIndex_tokenAt {i k : Nat} (hi : i < blendLocs.length) (hk : k ≤ 2) :
    pyIndex (prepareBlendLocs blendLocs).chunkLocList
      ((start (fun loc => (diff loc).length) blendLocs i : Nat) + (k : Int)) = .ok (tokenAt blendLocs k i) := by
  have hloc := twoChunks_getD h hi
  have hget : blendLocs[i]? = some (blendLocs.getD i []) := by
    rw [List.getD_eq_getElem _ _ hi, List.getElem?_eq_getElem hi]
  have hchunks := hloc.chunks
  have hwithin := pyIndex_chunkLocList_within hget (k := k) (by rw [length_diff]; omega)
  rw [tokenAt, ← Nat.cast_add, hwithin]
  cases hcons : blendLocs.getD i [] with
  | nil =>
    rw [hcons] at hchunks
    cases hchunks
  | cons first rest =>
    rw [sum_take_diff first rest (by rw [hcons] at hchunks; simp only [List.length_cons] at hchunks; omega)]
    rfl

theorem reqStartIdxs_eq : (0 :: (prepareBlendLocs blendLocs).reqLenList).dropLast =
    (List.range blendLocs.length).map fun i => ((start (fun loc => (diff loc).length) blendLocs i : Nat) : Int) := by
  have hne : ∀ loc ∈ blendLocs, loc ≠ [] := by
    intro loc hloc hnil
    have := (h loc hloc).chunks
    rw [hnil] at this
    cases this
  have hlen : (prepareBlendLocs blendLocs).reqLenList.length = blendLocs.length := by
    rw [prepareBlendLocs, length_cumsumFrom, List.length_map]
  refine List.ext_getElem? fun i => ?_
  rcases Nat.lt_or_ge i blendLocs.length with hi | hi
  · rw [List.getElem?_dropLast, if_pos (by rw [List.length_cons, hlen]; omega), getElem?_reqLenList hne hi.le,
      List.getElem?_map, List.getElem?_range hi]
    rfl
  · rw [List.getElem?_eq_none (by rw [List.length_dropLast, List.length_cons, hlen]; omega),
      List.getElem?_eq_none (by rw [List.length_map, List.length_range]; omega)]

/-- `chunk_loc_list` at the requests' starts, `k` chunks further on. -/
theorem mapM_tokenAt {k : Nat} (hk : k ≤ 2) :
    ((List.range blendLocs.length).map fun i =>
      ((start (fun loc => (diff loc).length) blendLocs i : Nat) : Int) + (k : Int)).mapM
        (pyIndex (prepareBlendLocs blendLocs).chunkLocList) =
      .ok ((List.range blendLocs.length).map (tokenAt blendLocs k)) :=
  mapM_map_ok fun _ hi => pyIndex_tokenAt h (List.mem_range.mp hi) hk

omit h in
/-- A padded row with the places past a length masked out is the range of that length. -/
theorem maskedRanges_eq {n : Nat} (hn : 0 < n) (starts lengths : Nat → Int) (hlen : ∀ i < n, 0 ≤ lengths i) :
    maskedRanges ((List.range n).map starts) ((List.range n).map lengths) =
      .ok (some ((List.range n).flatMap fun i => pyRange (starts i) (starts i + lengths i))) := by
  obtain ⟨maxLen, hmax⟩ : ∃ m, ((List.range n).map lengths).max? = some m := by
    cases hlist : ((List.range n).map lengths).max? with
    | some m => exact ⟨m, rfl⟩
    | none =>
      rw [List.max?_eq_none_iff, List.map_eq_nil_iff, List.range_eq_nil] at hlist
      omega
  have hle : ∀ i < n, lengths i ≤ maxLen := fun i hi =>
    (List.max?_eq_some_iff.mp hmax).2 _ (List.mem_map_of_mem (List.mem_range.mpr hi))
  have hnonneg : 0 ≤ maxLen := le_trans (hlen 0 hn) (hle 0 hn)
  have hrow : ∀ i < n, ((pyRange 0 maxLen).filter fun k => decide (k < lengths i)).map (starts i + ·) =
      pyRange (starts i) (starts i + lengths i) := by
    intro i hi
    have hlength : (((lengths i).toNat : Nat) : Int) = lengths i := Int.toNat_of_nonneg (hlen i hi)
    have hfit : (lengths i).toNat ≤ (maxLen - 0).toNat := by
      have := hle i hi
      omega
    rw [pyRange, pyRange, List.filter_map, List.map_map, add_sub_cancel_left]
    have hkept : (List.range (maxLen - 0).toNat).filter
        ((fun k : Int => decide (k < lengths i)) ∘ fun k : Nat => 0 + (k : Int)) =
          List.range (lengths i).toNat := by
      rw [← filter_range hfit]
      refine List.filter_congr fun k _ => ?_
      simp only [Function.comp_apply, decide_eq_decide]
      omega
    rw [hkept]
    exact List.map_congr_left fun k _ => by simp only [Function.comp_apply, zero_add]
  rw [maskedRanges, hmax]
  simp only [torchArange, if_neg (not_lt.mpr hnonneg), List.zipWith_map_left, List.zipWith_map_right,
    List.zipWith_self]
  rw [List.flatMap_def, List.map_congr_left fun i hi => (hrow i (List.mem_range.mp hi)).symm]
  rfl

/-- What QCOMPUTE gathers: the second chunks and the first two chunks of all requests. -/
theorem prepareQueryGather_eq (hne : blendLocs ≠ []) :
    prepareQueryGather (prepareBlendLocs blendLocs) = .ok {
      qLens := (List.range blendLocs.length).map fun i => tokenAt blendLocs 2 i - tokenAt blendLocs 1 i
      qOffsets := (List.range blendLocs.length).map fun i => tokenAt blendLocs 1 i - tokenAt blendLocs 0 i
      queryKLens := (List.range blendLocs.length).map fun i => tokenAt blendLocs 2 i - tokenAt blendLocs 0 i
      questIndices := some ((List.range blendLocs.length).flatMap (chunksOf blendLocs 1 2))
      queryIndices := some ((List.range blendLocs.length).flatMap (chunksOf blendLocs 0 2)) } := by
  have hpos := List.length_pos_iff.mpr hne
  have hstarts := mapM_tokenAt h (k := 0) (Nat.zero_le _)
  have hseconds := mapM_tokenAt h (k := 1) (Nat.le_succ 1)
  have hends := mapM_tokenAt h (k := 2) le_rfl
  have hquest := maskedRanges_eq hpos (tokenAt blendLocs 1)
    (fun i => tokenAt blendLocs 2 i - tokenAt blendLocs 1 i)
    fun i hi => sub_nonneg.mpr (tokenAt_mono h hi (Nat.le_succ 1) le_rfl)
  have hquery := maskedRanges_eq hpos (tokenAt blendLocs 0)
    (fun i => tokenAt blendLocs 2 i - tokenAt blendLocs 0 i)
    fun i hi => sub_nonneg.mpr (tokenAt_mono h hi (Nat.zero_le _) le_rfl)
  have hsum : ∀ i, tokenAt blendLocs 1 i - tokenAt blendLocs 0 i + (tokenAt blendLocs 2 i - tokenAt blendLocs 1 i) =
      tokenAt blendLocs 2 i - tokenAt blendLocs 0 i := fun i => by omega
  simp only [Nat.cast_zero, add_zero] at hstarts
  rw [prepareQueryGather, reqStartIdxs_eq h]
  simp only [List.map_map, Function.comp_def, add_assoc]
  norm_num only at hseconds hends ⊢
  rw [hstarts, hseconds, hends]
  simp only [List.zipWith_map_left, List.zipWith_map_right, List.zipWith_self, hsum, bind, Except.bind]
  rw [hquest, hquery]
  simp only [add_sub_cancel]
  rfl

end Gather

/-! ## Cutting back -/

section Cuts

variable {ρ : Type}

theorem sum_take_succ {xs : List Int} {i : Nat} {x : Int} (hx : xs[i]? = some x) :
    (xs.take (i + 1)).sum = (xs.take i).sum + x := by
  rw [List.take_add_one, hx, List.sum_append]
  simp

/-- The rows of a request's turn: from the lengths of the earlier requests on, as many as its own. -/
structure CutAt (gather : QueryGather) (oldQ queryK : List ρ) (cut : RowCut ρ) : Prop where
  inBatch : cut.reqIdx < gather.qLens.length
  q : cut.qChunk =
    sliceRows oldQ (gather.qLens.take cut.reqIdx).sum (gather.qLens.take (cut.reqIdx + 1)).sum
  k : cut.queryK =
    sliceRows queryK (gather.queryKLens.take cut.reqIdx).sum (gather.queryKLens.take (cut.reqIdx + 1)).sum

theorem fusionCuts_at (info : BatchBlendInfo) (gather : QueryGather) (oldQ queryK : List ρ) (count reqIdx : Nat) :
    ∀ cut ∈ fusionCuts info gather oldQ queryK (List.range' reqIdx count) (gather.qLens.take reqIdx).sum
      (gather.queryKLens.take reqIdx).sum, CutAt gather oldQ queryK cut := by
  induction count generalizing reqIdx with
  | zero => exact fun cut hcut => by cases hcut
  | succ count ih =>
    intro cut hcut
    rw [List.range'_succ, fusionCuts] at hcut
    split at hcut
    next => cases hcut
    next r qLen queryKLen hlook =>
      obtain ⟨_, _, hlook⟩ := bind_ok hlook
      obtain ⟨_, hq, hlook⟩ := bind_ok hlook
      obtain ⟨_, _, hlook⟩ := bind_ok hlook
      obtain ⟨_, hk, hlook⟩ := bind_ok hlook
      cases hlook
      rw [pyIndex_ok_iff] at hq hk
      rw [← sum_take_succ hq, ← sum_take_succ hk] at hcut
      rcases List.mem_append.mp hcut with hcut | hcut
      · split at hcut
        · rw [List.mem_singleton.mp hcut]
          exact ⟨(List.getElem?_eq_some_iff.mp hq).1, rfl, rfl⟩
        · cases hcut
      · exact ih (reqIdx + 1) cut hcut

theorem layerFusionCuts_at (info : BatchBlendInfo) (gather : QueryGather) (oldQ queryK : List ρ) :
    ∀ cut ∈ layerFusionCuts info gather oldQ queryK, CutAt gather oldQ queryK cut := by
  intro cut hcut
  rw [layerFusionCuts, List.range_eq_range'] at hcut
  exact fusionCuts_at info gather oldQ queryK _ 0 cut hcut

/-- Where ranges are laid end to end, the running sums of their lengths cut them back. -/
theorem sliceRows_laid {n i : Nat} (hi : i < n) (piece : Nat → List Int) (row : Int → ρ) {lens : List Int}
    (hlens : lens = (List.range n).map fun i => ((piece i).length : Int)) :
    sliceRows (((List.range n).flatMap piece).map row) (lens.take i).sum (lens.take (i + 1)).sum =
      (piece i).map row := by
  have hsum : ∀ j ≤ n, (lens.take j).sum = ((start (fun i => (piece i).length) (List.range n) j : Nat) : Int) := by
    intro j _
    rw [hlens, start, ← List.map_take, Nat.cast_list_sum, List.map_map]
    rfl
  have hlaid := slice_laid (fun i => (piece i).length) (fun i => (piece i).map row)
    (fun i => List.length_map _) (List.range n) (i := i) (by rwa [List.length_range])
  have hsucc := start_succ (fun i => (piece i).length) (List.range n) (i := i) (by rwa [List.length_range])
  rw [List.getElem_range] at hlaid hsucc
  rw [hsum i hi.le, hsum (i + 1) hi, sliceRows, pyTake, if_neg (by omega), if_neg (by omega), Int.toNat_natCast,
    Int.toNat_natCast, hsucc, List.drop_take, Nat.add_sub_cancel_left, List.map_flatMap]
  exact hlaid

end Cuts

end QCFuse.Guarantees
