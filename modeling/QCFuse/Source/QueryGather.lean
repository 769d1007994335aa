import QCFuse.Source.IndiceSelect
import QCFuse.Source.PrefillBatch

/-!
# The queries a selection reads

A QCOMPUTE batch keeps the queries of every request's second chunk and the keys of its first two.
The selection that follows cuts both back into requests. Tensors of all layers are lists of what a
token has in them.
-/

set_option autoImplicit false

namespace QCFuse.Source

/-- `HackBlendKVPool.q_lens`, `q_offsets` and `query_k_lens`, and the two index tensors of the batch. -/
structure QueryGather where
  qLens : List Int
  qOffsets : List Int
  queryKLens : List Int
  questIndices : Option (List Int)
  queryIndices : Option (List Int)
  deriving DecidableEq, Repr

/-- `raw_indices[mask]`: a row of indices as long as the longest range for each of them, and of every
row what lies in its range. -/
def maskedRanges (starts lengths : List Int) : Py (Option (List Int)) :=
  match lengths.max? with
  | none => .ok none
  | some maxLen => do
    let rangeRow ← torchArange 0 maxLen
    return some (List.zipWith (fun first length =>
      (rangeRow.filter fun k => k < length).map (first + ·)) starts lengths).flatten

/-- The QCOMPUTE branch of `prepare_for_extend()`. -/
def prepareQueryGather (info : BatchBlendInfo) : Py QueryGather := do
  let reqStartIdxs := (0 :: info.reqLenList).dropLast
  let secondIdxs := reqStartIdxs.map (· + 1)
  let reqStarts ← reqStartIdxs.mapM (pyIndex info.chunkLocList)
  let starts ← secondIdxs.mapM (pyIndex info.chunkLocList)
  let ends ← (secondIdxs.map (· + 1)).mapM (pyIndex info.chunkLocList)
  let lengths := List.zipWith (· - ·) ends starts
  let qOffsets := List.zipWith (· - ·) starts reqStarts
  let queryLengths := List.zipWith (· + ·) qOffsets lengths
  let questIndices ← maskedRanges starts lengths
  let queryIndices ← maskedRanges reqStarts queryLengths
  return ⟨lengths, qOffsets, queryLengths, questIndices, queryIndices⟩

/-! ## `_compute_layer_fusion` -/

/-- `xs[start:stop]`. -/
def sliceRows {ρ : Type} (xs : List ρ) (start stop : Int) : List ρ :=
  (pyTake xs stop).drop (if start < 0 then start + xs.length else start).toNat

/-- `q_chunk` and `query_k` of a request. -/
structure RowCut (ρ : Type) where
  reqIdx : Nat
  qChunk : List ρ
  queryK : List ρ

section Cuts

variable {ρ : Type} (info : BatchBlendInfo) (gather : QueryGather) (oldQ queryK : List ρ)

/-- What a turn of the loop looks up: the region, `q_len` and `query_k_len`. -/
def lookUpRequest (reqIdx : Nat) : Py (ReqRegion × Int × Int) := do
  let r ← getRequestRegion info.chunkLocList (computeRequestBoundaries info).2 reqIdx
  let qLen ← pyIndex gather.qLens reqIdx
  let _qOffset ← pyIndex gather.qOffsets reqIdx
  let queryKLen ← pyIndex gather.queryKLens reqIdx
  return (r, qLen, queryKLen)

/-- The rows cut out by the rest of the loop, at most: an error that is not modelled may end it before. -/
def fusionCuts : List Nat → Int → Int → List (RowCut ρ)
  | [], _, _ => []
  | reqIdx :: rest, qLoc, queryKLoc =>
    match lookUpRequest info gather reqIdx with
    | .error _ => []
    | .ok (r, qLen, queryKLen) =>
      (if 0 < r.ragLen then
        [⟨reqIdx, sliceRows oldQ qLoc (qLoc + qLen), sliceRows queryK queryKLoc (queryKLoc + queryKLen)⟩]
      else []) ++ fusionCuts rest (qLoc + qLen) (queryKLoc + queryKLen)

/-- The rows `_compute_layer_fusion` cuts out for the batch `info`. -/
def layerFusionCuts : List (RowCut ρ) :=
  fusionCuts info gather oldQ queryK (List.range (computeRequestBoundaries info).1) 0 0

end Cuts

end QCFuse.Source
