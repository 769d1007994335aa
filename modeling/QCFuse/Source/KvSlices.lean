/-!
# `MooncakeKVManager.send_kvcache_slice` and the ranks a decode rank selects

Prefill and decode ranks with different attention TP sizes hold different heads of a token. A prefill
rank sends, for every token slot of every page, one slice of heads to a decode rank.
-/

set_option autoImplicit false

namespace QCFuse.Source

/-- What `send_kvcache_slice` reads of a prefill rank's `KVArgs`. -/
structure KvArgs where
  engineRank : Nat
  kvDataPtrs : List Nat
  kvItemLens : List Nat
  kvHeadNum : Nat
  pageSize : Nat
  prefillStartLayer : Nat

/-- One entry of `src_addr_list`, `dst_addr_list` and `length_list`. -/
structure Transfer where
  src : Nat
  dst : Nat
  length : Nat
  deriving DecidableEq, Repr

inductive SliceFailure where
  /-- An `IndexError`. -/
  | outOfRange
  /-- The `-1` after "slice size exceeds target token slot size". -/
  | sliceTooLarge
  deriving DecidableEq, Repr

/-- `target_tp_ranks` of `CommonKVReceiver.__init__`, not MLA. -/
def targetTpRanks (attnTpSize prefillAttnTpSize engineRank : Nat) : List Nat :=
  if attnTpSize = prefillAttnTpSize then
    [engineRank % attnTpSize]
  else if attnTpSize > prefillAttnTpSize then
    [engineRank % attnTpSize / (attnTpSize / prefillAttnTpSize)]
  else
    List.range' (engineRank % attnTpSize * (prefillAttnTpSize / attnTpSize))
      ((engineRank % attnTpSize + 1) * (prefillAttnTpSize / attnTpSize) -
        engineRank % attnTpSize * (prefillAttnTpSize / attnTpSize))

/-- `src_head_start_offset`, `num_heads_to_send` and `dst_head_start_offset`. -/
structure HeadSlice where
  srcHeadStartOffset : Nat
  numHeadsToSend : Nat
  dstHeadStartOffset : Nat

def headSlice (attnTpSize dstAttnTpSize localTpRankInGroup dstTpRankInGroup numKvHeads : Nat) : HeadSlice :=
  let srcHeadsPerRank := numKvHeads
  let dstHeadsPerRank := numKvHeads * attnTpSize / dstAttnTpSize
  if attnTpSize > dstAttnTpSize then
    -- several prefill ranks to one decode rank
    ⟨0, srcHeadsPerRank, localTpRankInGroup * srcHeadsPerRank⟩
  else
    -- one prefill rank to several decode ranks
    ⟨dstTpRankInGroup * dstHeadsPerRank % srcHeadsPerRank, dstHeadsPerRank, 0⟩

/-- The buffers of `get_mha_kv_ptrs_with_pp`, paired layer by layer: all K layers, then all V layers. -/
def mhaKvPtrsWithPp (startLayer : Nat) (srcKvPtrs dstKvPtrs : List Nat) : Option (List (Nat × Nat)) :=
  let numKvLayers := srcKvPtrs.length / 2
  let endLayer := startLayer + numKvLayers
  let dstNumTotalLayers := dstKvPtrs.length / 2
  let srcK := srcKvPtrs.take numKvLayers
  let srcV := srcKvPtrs.drop numKvLayers
  let dstK := (dstKvPtrs.take endLayer).drop startLayer
  let dstV := (dstKvPtrs.take (dstNumTotalLayers + endLayer)).drop (dstNumTotalLayers + startLayer)
  do
    let ks ← (List.range srcK.length).mapM fun layer => do return (← srcK[layer]?, ← dstK[layer]?)
    let vs ← (List.range srcK.length).mapM fun layer => do return (← srcV[layer]?, ← dstV[layer]?)
    return ks ++ vs

/-- `process_layer_tp_aware`: the batch submitted for one buffer. -/
def processLayerTpAware (pageSize srcItemLen dstItemLen srcHeadSliceOffset dstHeadSliceOffset
    headsBytesPerTokenToSend : Nat) (prefillKvIndices dstKvIndices : List Nat) (ptrs : Nat × Nat) :
    Option (List Transfer) := do
  let bytesPerTokenOnPrefill := srcItemLen / pageSize
  let bytesPerTokenOnDecode := dstItemLen / pageSize
  let pages ← (List.range prefillKvIndices.length).mapM fun i => do
    let prefillPageIdx ← prefillKvIndices[i]?
    let decodePageIdx ← dstKvIndices[i]?
    let srcPageStartAddr := ptrs.1 + prefillPageIdx * srcItemLen
    let dstPageStartAddr := ptrs.2 + decodePageIdx * dstItemLen
    return (List.range pageSize).map fun tokenSlotInPage =>
      { src := srcPageStartAddr + tokenSlotInPage * bytesPerTokenOnPrefill + srcHeadSliceOffset
        dst := dstPageStartAddr + tokenSlotInPage * bytesPerTokenOnDecode + dstHeadSliceOffset
        length := headsBytesPerTokenToSend : Transfer }
  return pages.flatten

/-- `send_kvcache_slice`, with the batches it gives the transfer engine. -/
def sendKvcacheSlice (attnTpSize : Nat) (kvArgs : KvArgs) (prefillKvIndices dstKvPtrs dstKvIndices : List Nat)
    (dstTpRank dstAttnTpSize dstKvItemLen : Nat) : Except SliceFailure (List (List Transfer)) :=
  let localTpRankInGroup := kvArgs.engineRank % attnTpSize
  let dstTpRankInGroup := dstTpRank % dstAttnTpSize
  let numKvHeads := kvArgs.kvHeadNum
  let pageSize := kvArgs.pageSize
  let dstHeadsPerRank := numKvHeads * attnTpSize / dstAttnTpSize
  let bytesPerHeadSliceToSend := dstKvItemLen / pageSize / dstHeadsPerRank
  let heads := headSlice attnTpSize dstAttnTpSize localTpRankInGroup dstTpRankInGroup numKvHeads
  let srcHeadSliceOffset := heads.srcHeadStartOffset * bytesPerHeadSliceToSend
  let dstHeadSliceOffset := heads.dstHeadStartOffset * bytesPerHeadSliceToSend
  let headsBytesPerTokenToSend := heads.numHeadsToSend * bytesPerHeadSliceToSend
  match kvArgs.kvItemLens.head? with
  | none => .error .outOfRange
  | some srcKvItemLen =>
    -- the slice is compared with the slot, its offset in the slot is not
    if headsBytesPerTokenToSend > dstKvItemLen / pageSize then .error .sliceTooLarge
    else
      match mhaKvPtrsWithPp kvArgs.prefillStartLayer kvArgs.kvDataPtrs dstKvPtrs with
      | none => .error .outOfRange
      | some layersParams =>
        match layersParams.mapM (processLayerTpAware pageSize srcKvItemLen dstKvItemLen srcHeadSliceOffset
            dstHeadSliceOffset headsBytesPerTokenToSend prefillKvIndices dstKvIndices) with
        | none => .error .outOfRange
        | some batches => .ok batches

end QCFuse.Source
