import QCFuse.Source.BlendRequest

/-!
# Batches of blend requests: token selection and sparse attention

Tensors of locations, lengths and indices are lists of integers. The attention scores are left
out: of the kernel the set of key positions that get one is modelled, for a causal layer.
-/

set_option autoImplicit false

namespace QCFuse.Source

/-- `torch.diff(loc)`. -/
def diff (loc : List Int) : List Int := (chunkAbsRanges loc).map fun r => r.2 - r.1

structure BatchBlendInfo where
  chunkLocList : List Int
  reqLenList : List Int

/-- What `prepare_for_extend` derives from the forward locations of all requests. -/
def prepareBlendLocs (blendLocs : List (List Int)) : BatchBlendInfo where
  chunkLocList := cumsumLens (blendLocs.flatMap diff)
  reqLenList := cumsumFrom 0 (blendLocs.map fun loc => (loc.length : Int) - 1)

/-! ## `IndiceSelector` -/

structure ReqRegion where
  reqStart : Int
  questStart : Int
  questEnd : Int
  ragStart : Int
  ragLen : Int
  deriving DecidableEq, Repr

/-- `_compute_request_boundaries(info)`. -/
def computeRequestBoundaries (info : BatchBlendInfo) : Nat × List Int :=
  (info.reqLenList.length, 0 :: cumsumFrom 0 info.reqLenList)

/-- `_get_request_region(chunk_loc, req_boundaries, req_idx)`. -/
def getRequestRegion (chunkLoc reqBoundaries : List Int) (reqIdx : Nat) : Py ReqRegion := do
  let prefixIdx ← pyIndex reqBoundaries reqIdx
  let reqEndChunk ← pyIndex reqBoundaries (reqIdx + 1 : Nat)
  let questIdx := reqEndChunk - 1
  let reqStart ← pyIndex chunkLoc prefixIdx
  let questStart ← pyIndex chunkLoc questIdx
  let questEnd ← pyIndex chunkLoc (questIdx + 1)
  if prefixIdx + 1 < questIdx then
    let ragStart ← pyIndex chunkLoc (prefixIdx + 1)
    return ⟨reqStart, questStart, questEnd, ragStart, questStart - ragStart⟩
  else return ⟨reqStart, questStart, questEnd, questStart, 0⟩

/-- `torch.arange(start, end)`. -/
def torchArange (first stop : Int) : Py (List Int) :=
  if stop < first then
    .error (.runtimeError "upper bound and lower bound inconsistent with step sign")
  else .ok (pyRange first stop)

/-- The indices and the lengths of a selection, from the per-request lists. -/
def buildFinalOutput : List (List Int) → Py (List Int × List Nat)
  | [] => .error (.runtimeError "torch.cat(): expected a non-empty list of Tensors")
  | perReq => .ok (perReq.flatten, perReq.map List.length)

/-- `_compute_query_only(info)`. -/
def computeQueryOnly (info : BatchBlendInfo) : Py (List Int × List Nat) := do
  let (numReqs, reqBoundaries) := computeRequestBoundaries info
  let perReq ← (List.range numReqs).mapM fun reqIdx => do
    let r ← getRequestRegion info.chunkLocList reqBoundaries reqIdx
    torchArange r.questStart r.questEnd
  buildFinalOutput perReq

/-! ## `TritonAttnBackend` -/

structure TritonBlendMetadata where
  qStartLoc : List Int
  qLens : List Int
  kvStartLoc : List Int
  kvLens : List Int
  maxQLen : Int
  qPositions : List Int
  deriving DecidableEq, Repr

/-- `_init_triton_blend_metadata(blend_info, device, is_do_blend=True)`. -/
def initTritonBlendMetadata (info : BatchBlendInfo) (blendTopIndices blendTopLens : List Int) :
    Py TritonBlendMetadata := do
  let qStartLoc :=
    if 1 < blendTopLens.length then cumsumLens blendTopLens.dropLast
    else List.replicate blendTopLens.length 0
  let kvStartLoc ← (0 :: info.reqLenList.dropLast).mapM (pyIndex info.chunkLocList)
  let kvEnd ← info.reqLenList.mapM (pyIndex info.chunkLocList)
  return {
    qStartLoc := qStartLoc
    qLens := blendTopLens
    kvStartLoc := kvStartLoc
    kvLens := List.zipWith (· - ·) kvEnd kvStartLoc
    maxQLen := (blendTopLens.max?).getD 0
    qPositions := blendTopIndices }

/-- `_is_cuda` and `CUDA_CAPABILITY`. -/
structure CudaDevice where
  isCuda : Bool
  capability : Nat × Nat

/-- `_compute_block_sizes(Lk)`. -/
def computeBlockSizes (device : CudaDevice) (lk : Nat) : Nat × Nat :=
  if device.isCuda then
    if 9 ≤ device.capability.1 then
      if lk ≤ 256 then (128, 64) else (32, 64)
    else if 8 ≤ device.capability.1 then
      if device.capability.2 = 9 ∨ device.capability.2 = 6 then
        if lk ≤ 128 then (64, 128) else if lk ≤ 256 then (64, 64) else (32, 32)
      else
        if lk ≤ 128 then (128, 128) else if lk ≤ 256 then (64, 64) else (32, 64)
    else if lk ≤ 128 then (64, 64) else (32, 32)
  else (64, 64)

theorem computeBlockSizes_pos (device : CudaDevice) (lk : Nat) :
    0 < (computeBlockSizes device lk).1 ∧ 0 < (computeBlockSizes device lk).2 := by
  unfold computeBlockSizes
  split_ifs <;> decide

/-- `_ragged_positions_fwd_kernel` with `IS_CAUSAL`: the key positions of batch entry `batch`
whose score the query row `row` adds to its softmax. Keys are loaded in whole blocks, a position
past `KV_Seqlen` as a zero key, which the causal mask alone does not take out. -/
def attendedKeys (md : TritonBlendMetadata) (blockM blockN : Nat) (slidingWindowSize : Int)
    (batch row : Nat) : List Int :=
  let curQSeqLen := md.qLens.getD batch 0
  let curKvSeqLen := md.kvLens.getD batch 0
  let curQPos := fun offsM : Nat => md.qPositions.getD (md.qStartLoc.getD batch 0 + offsM).toNat 0
  let maxQPos := ((List.range' (row / blockM * blockM) blockM).map fun offsM : Nat =>
    if (offsM : Int) < curQSeqLen then curQPos offsM else -1).foldl max (-1)
  let effectiveKvSeqLen := min (maxQPos + 1) curKvSeqLen
  let loaded := (effectiveKvSeqLen.toNat + blockN - 1) / blockN * blockN
  ((List.range loaded).map fun k : Nat => (k : Int)).filter fun kPos =>
    kPos ≤ curQPos row ∧ (0 < slidingWindowSize → curQPos row - kPos < slidingWindowSize)

end QCFuse.Source
