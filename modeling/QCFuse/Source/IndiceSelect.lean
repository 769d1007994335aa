import QCFuse.Source.BatchBlendInfo

/-!
# `IndiceSelector.select` and the rows the logits processor reads

The scores `compute_att_full_softmax_importance` gives the keys of a request are a function of the
request and the key; queries, keys and rotary positions only enter there. `torch.topk` is a
parameter.
-/

set_option autoImplicit false

namespace QCFuse.Source

inductive SelectMode where
  | attn
  deriving DecidableEq, Repr

/-- What `select` reads besides the locations. `oldIsCuda` is `none` without `old_k` or `old_q`;
the lists are those of `HackBlendKVPool`, an entry for each request. -/
structure SelectInput (α : Type) where
  ratio : Rat
  selectMode : Option SelectMode
  oldIsCuda : Option Bool
  qLens : List Int
  qOffsets : List Int
  queryKLens : List Int
  score : Nat → Int → α

/-- The indices of `torch.topk(xs, k)`. -/
structure TopK (α : Type) where
  run : List α → Nat → List Nat

/-- `_compute_budget(length, ratio)`; `int` of a product of positive numbers. -/
def computeBudget (length : Int) (ratio : Rat) : Int :=
  if ratio ≤ 0 then 0 else min length (max 1 ⌊(length : Rat) * ratio⌋)

/-- `compute_att_full_softmax_importance` on `seq_k` keys: a score for each target key. -/
def attFullSoftmaxImportance {α : Type} (score : Int → α) (seqK targetStart targetLen : Int) : List α :=
  let targetStart := max 0 (min targetStart seqK)
  let targetLen := max 0 (min targetLen (seqK - targetStart))
  (pyRange targetStart (targetStart + targetLen)).map score

section Select

variable {α : Type} (topk : TopK α) (info : BatchBlendInfo) (input : SelectInput α)

/-- One turn of the loop of `_compute_layer_fusion`. -/
def fuseRequest (reqBoundaries : List Int) (reqIdx : Nat) : Py (List Int) := do
  let r ← getRequestRegion info.chunkLocList reqBoundaries reqIdx
  let _qLen ← pyIndex input.qLens reqIdx
  let _qOffset ← pyIndex input.qOffsets reqIdx
  let queryKLen ← pyIndex input.queryKLens reqIdx
  let questIndices ← torchArange r.questStart r.questEnd
  if 0 < r.ragLen then
    let prefixLen := r.questStart - r.reqStart
    let targetStart := r.ragStart - r.reqStart
    let importance := attFullSoftmaxImportance (input.score reqIdx) (prefixLen + queryKLen) targetStart r.ragLen
    let kBudget := computeBudget r.ragLen input.ratio
    if 0 < kBudget then
      let topIdx := topk.run importance (min kBudget importance.length).toNat
      let selectedRag := (topIdx.map fun i : Nat => (i : Int) + r.ragStart).insertionSort (· ≤ ·)
      return selectedRag ++ questIndices
    else return questIndices
  else return questIndices

/-- `_compute_layer_fusion(info, old_k, old_q, positions)`. -/
def computeLayerFusion : Py (List Int × List Nat) := do
  let (numReqs, reqBoundaries) := computeRequestBoundaries info
  if input.oldIsCuda = some false then .error (.runtimeError "ATTN selection requires CUDA.")
  else
    let perReq ← (List.range numReqs).mapM (fuseRequest topk info input reqBoundaries)
    buildFinalOutput perReq

/-- `IndiceSelector.select(info, old_k, old_q, positions)`. -/
def select : Py (List Int × List Nat) :=
  if input.ratio ≤ 0 then computeQueryOnly info
  else if input.selectMode ≠ some .attn then
    .error (.valueError "Unsupported select mode for release: None")
  else if input.oldIsCuda = none then .error (.valueError "ATTN mode requires old_k and old_q")
  else computeLayerFusion topk info input

end Select

/-- `last_index` of `LogitsProcessor` for a blend. -/
def blendLastIndex (blendSeqLens : List Nat) : List Int :=
  (cumsumFrom 0 (blendSeqLens.map fun len : Nat => (len : Int))).map (· - 1)

/-- `hidden_states[last_index]`: the tokens whose rows are read. -/
def lastRows (indices : List Int) (blendSeqLens : List Nat) : Py (List Int) :=
  (blendLastIndex blendSeqLens).mapM (pyIndex indices)

end QCFuse.Source
