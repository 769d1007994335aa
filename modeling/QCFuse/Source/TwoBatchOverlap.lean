import QCFuse.Source.Python

/-!
# Two-batch overlap

The split index of a forward batch and `TboForwardBatchPreparer.prepare_raw`. A field that the source keeps on the
device and on the host is two fields. The lengths are natural numbers: for the index that was computed for the batch
no difference below is negative. Fields that a child only copies, or drops, are left out.
-/

set_option autoImplicit false

namespace QCFuse.Source

/-- The forward modes that a split is computed for. -/
inductive TboForwardMode where
  | extend
  | decode
  | idle
  | targetVerify
  deriving DecidableEq, Repr

structure EagleVerifyInput where
  draftToken : Option (List Int)
  customMask : Option (List Bool)
  positions : Option (List Nat)
  retriveIndex : Option (List (List Int))
  retriveNextToken : Option (List (List Int))
  retriveNextSibling : Option (List (List Int))
  retriveCumLen : Option (List Int)
  draftTokenNum : Nat
  seqLensCpu : Option (List Nat)
  seqLensSum : Option Nat
  deriving DecidableEq, Repr

structure ForwardBatch where
  forwardMode : TboForwardMode
  batchSize : Nat
  inputIds : List Int
  positions : List Nat
  outCacheLoc : List Nat
  reqPoolIndices : List Nat
  seqLens : List Nat
  seqLensCpu : Option (List Nat)
  seqLensSum : Option Nat
  extendNumTokens : Option Nat
  extendSeqLens : Option (List Nat)
  extendPrefixLens : Option (List Nat)
  extendStartLoc : Option (List Nat)
  extendPrefixLensCpu : Option (List Nat)
  extendSeqLensCpu : Option (List Nat)
  extendLogprobStartLensCpu : Option (List Nat)
  loraIds : Option (List (Option String))
  specInfo : Option EagleVerifyInput
  numTokenNonPadded : Option Nat
  tboSplitSeqIndex : Option Nat
  tboParentTokenRange : Option (Nat × Nat)
  deriving DecidableEq, Repr

/-- `assert`. -/
def pyAssert (condition : Bool) : Py Unit :=
  if condition then .ok () else .error (.runtimeError "AssertionError")

/-- `xs[start:stop]` for indices that are not negative. -/
def sliceOf {α : Type} (xs : List α) (start stop : Nat) : List α := (xs.take stop).drop start

/-- An attribute of an object that may be `None`. -/
def attributeOf {α : Type} (x : Option α) (name : String) : Py α :=
  match x with
  | some a => .ok a
  | none => .error (.attributeError name)

/-! ## Basic information -/

/-- `get_token_num_per_seq(forward_mode, spec_info)`. -/
def getTokenNumPerSeq (mode : TboForwardMode) (spec : Option EagleVerifyInput) : Py (Option Nat) :=
  match mode with
  | .targetVerify => do
    let spec ← attributeOf spec "draft_token_num"
    return some spec.draftTokenNum
  | .decode => .ok (some 1)
  | .idle => .ok (some 0)
  | .extend => .ok none

/-- The loop of `_split_array_by_balanced_sum` from index `i` on, over `arr[i - 1:-1]`; the least difference so far is
`None` for infinity. -/
def balancedLoop (overallSum : Nat) : Nat → Nat → Option Nat → Nat → List Nat → Nat
  | _, _, _, bestIndex, [] => bestIndex
  | i, leftSum, minDiff, bestIndex, x :: xs =>
    let leftSum := leftSum + x
    let diff := ((leftSum : Int) - (overallSum - leftSum)).natAbs
    if minDiff.all (diff ≤ ·) then balancedLoop overallSum (i + 1) leftSum (some diff) i xs else bestIndex

/-- `_split_array_by_balanced_sum(arr)`. -/
def splitArrayByBalancedSum (arr : List Nat) : Nat := balancedLoop arr.sum 1 0 none 0 arr.dropLast

/-- The loop of `_split_array_by_cum_less_than_half` from index `i` on. -/
def cumLoop (halfSum : Nat) : Nat → Nat → List Nat → Nat
  | _, _, [] => 0
  | i, leftSum, x :: xs => if halfSum < leftSum + x then i else cumLoop halfSum (i + 1) (leftSum + x) xs

/-- `_split_array_by_cum_less_than_half(arr)`. -/
def splitArrayByCumLessThanHalf (arr : List Nat) : Nat := cumLoop (arr.sum / 2) 0 0 arr

/-- The comparison of `_is_two_chunk_split_enabled`. -/
def twoChunkSplit (threshold : Rat) (extendLens : List Nat) : Bool :=
  let leftSum : Rat := (extendLens.take (splitArrayByBalancedSum extendLens)).sum
  let overallSum : Rat := extendLens.sum
  leftSum < overallSum * threshold || overallSum * (1 - threshold) < leftSum

/-- `_is_two_chunk_split_enabled(extend_lens)`, where the threshold is a setting. -/
def isTwoChunkSplitEnabled (threshold : Rat) (extendLens : Option (List Nat)) : Py Bool :=
  match extendLens with
  | none => .ok false
  | some extendLens => do
    pyAssert (threshold ≤ 1 / 2)
    return twoChunkSplit threshold extendLens

/-- `_split_extend_seqs(arr)`. -/
def splitExtendSeqs (threshold : Rat) (arr : List Nat) : Py Nat := do
  if ← isTwoChunkSplitEnabled threshold (some arr) then return splitArrayByCumLessThanHalf arr
  return splitArrayByBalancedSum arr

/-- `compute_split_seq_index(forward_mode, num_tokens, extend_lens, token_num_per_seq)`. -/
def computeSplitSeqIndex (threshold : Rat) (mode : TboForwardMode) (numTokens : Nat)
    (extendLens : Option (List Nat)) (tokenNumPerSeq : Option Nat) : Py Nat :=
  match mode with
  | .extend => do
    pyAssert extendLens.isSome
    splitExtendSeqs threshold (extendLens.getD [])
  | .targetVerify | .decode => do
    pyAssert tokenNumPerSeq.isSome
    return numTokens / tokenNumPerSeq.getD 0 / 2
  | .idle => do
    pyAssert (numTokens = 0)
    return 0

/-- `compute_split_token_index(split_seq_index, forward_mode, extend_seq_lens, token_num_per_seq)`. -/
def computeSplitTokenIndex (threshold : Rat) (splitSeqIndex : Nat) (mode : TboForwardMode)
    (extendSeqLens : Option (List Nat)) (tokenNumPerSeq : Option Nat) : Py Nat :=
  match mode with
  | .extend => do
    pyAssert extendSeqLens.isSome
    if ← isTwoChunkSplitEnabled threshold extendSeqLens then return (extendSeqLens.getD []).sum / 2
    return ((extendSeqLens.getD []).take splitSeqIndex).sum
  | .targetVerify | .decode => do
    pyAssert tokenNumPerSeq.isSome
    return splitSeqIndex * tokenNumPerSeq.getD 0
  | .idle => do
    pyAssert (splitSeqIndex = 0)
    return 0

/-- The split index of a local batch, as `TboDPAttentionPreparer.prepare_all_gather` asks for it. -/
def localSplitSeqIndex (threshold : Rat) (batch : ForwardBatch) : Py Nat := do
  let tokenNumPerSeq ← getTokenNumPerSeq batch.forwardMode batch.specInfo
  let numTokens := match batch.forwardMode with
    | .targetVerify | .decode => batch.batchSize * tokenNumPerSeq.getD 0
    | .extend | .idle => batch.extendNumTokens.getD 0
  computeSplitSeqIndex threshold batch.forwardMode numTokens batch.extendSeqLensCpu tokenNumPerSeq

/-! ## The spec info of a child -/

/-- The entries of the mask that a sequence has. -/
def maskSize (draftTokenNum seqLen : Nat) : Nat := (seqLen + draftTokenNum) * draftTokenNum

/-- `_compute_mask_offset(seq_index, spec_info)`. -/
def computeMaskOffset (seqIndex : Nat) (spec : EagleVerifyInput) : Py Nat :=
  if seqIndex = 0 then .ok 0
  else do
    let seqLens ← attributeOf spec.seqLensCpu "shape"
    return ((seqLens.take (min seqIndex seqLens.length)).map (maskSize spec.draftTokenNum)).sum

/-- The mask of a child, in `split_spec_info`. -/
def splitCustomMask (spec : EagleVerifyInput) (startSeqIndex endSeqIndex : Nat) : Py (Option (List Bool)) :=
  match spec.customMask, spec.draftToken with
  | some mask, some _ => do
    let customMaskStart ← computeMaskOffset startSeqIndex spec
    let seqLens ← attributeOf spec.seqLensCpu "shape"
    let customMaskEnd ← if endSeqIndex = seqLens.length then pure mask.length else computeMaskOffset endSeqIndex spec
    return some (if customMaskStart < customMaskEnd then sliceOf mask customMaskStart customMaskEnd else mask)
  | mask, _ => .ok mask

/-- `split_spec_info(...)`. -/
def splitSpecInfo (spec : Option EagleVerifyInput) (startSeqIndex endSeqIndex startTokenIndex endTokenIndex : Nat) :
    Py (Option EagleVerifyInput) :=
  match spec with
  | none => .ok none
  | some spec => do
    let customMask ← splitCustomMask spec startSeqIndex endSeqIndex
    let seqLensCpu := spec.seqLensCpu.map (sliceOf · startSeqIndex endSeqIndex)
    return some { spec with
      customMask
      draftToken := spec.draftToken.map (sliceOf · startTokenIndex endTokenIndex)
      positions := spec.positions.map (sliceOf · startTokenIndex endTokenIndex)
      retriveIndex := spec.retriveIndex.map (sliceOf · startSeqIndex endSeqIndex)
      retriveNextToken := spec.retriveNextToken.map (sliceOf · startSeqIndex endSeqIndex)
      retriveNextSibling := spec.retriveNextSibling.map (sliceOf · startSeqIndex endSeqIndex)
      retriveCumLen := spec.retriveCumLen.map (sliceOf · startSeqIndex endSeqIndex)
      seqLensCpu
      seqLensSum := seqLensCpu.map List.sum }

/-! ## The children -/

/-- `_compute_extend_num_tokens(input_ids, forward_mode)`. -/
def computeExtendNumTokens (inputIds : List Int) : TboForwardMode → Option Nat
  | .extend => some inputIds.length
  | .decode | .idle | .targetVerify => none

/-- The slice of a field with one entry per token. -/
def sliceTokens {α : Type} (numTokens : Nat) (old : List α) (startTokenIndex endTokenIndex : Nat) : Py (List α) := do
  pyAssert (old.length = numTokens)
  return sliceOf old startTokenIndex endTokenIndex

/-- The slice of a field with one entry per sequence, where it is given. -/
def sliceSeqs {α : Type} (numSeqs : Nat) (old : Option (List α)) (startSeqIndex endSeqIndex : Nat) :
    Py (Option (List α)) :=
  match old with
  | none => .ok none
  | some old => do
    pyAssert (old.length = numSeqs)
    return some (sliceOf old startSeqIndex endSeqIndex)

/-- The same for a field of an extend, which a child of a target-verify batch does not have. -/
def sliceExtend {α : Type} (batch : ForwardBatch) (old : Option (List α)) (startSeqIndex endSeqIndex : Nat) :
    Py (Option (List α)) :=
  if batch.forwardMode = .targetVerify then .ok none else sliceSeqs batch.batchSize old startSeqIndex endSeqIndex

/-- `filter_batch(...)`. -/
def filterBatch (batch : ForwardBatch) (startTokenIndex endTokenIndex startSeqIndex endSeqIndex : Nat)
    (outNumTokenNonPadded : Nat) : Py ForwardBatch := do
  pyAssert (startTokenIndex ≤ endTokenIndex)
  let numTokens := batch.inputIds.length
  let inputIds ← sliceTokens numTokens batch.inputIds startTokenIndex endTokenIndex
  let positions ← sliceTokens numTokens batch.positions startTokenIndex endTokenIndex
  let outCacheLoc ← sliceTokens numTokens batch.outCacheLoc startTokenIndex endTokenIndex
  let reqPoolIndices ← sliceTokens batch.batchSize batch.reqPoolIndices startSeqIndex endSeqIndex
  let seqLens ← sliceTokens batch.batchSize batch.seqLens startSeqIndex endSeqIndex
  let seqLensCpu ← sliceSeqs batch.batchSize batch.seqLensCpu startSeqIndex endSeqIndex
  let extendSeqLens ← sliceExtend batch batch.extendSeqLens startSeqIndex endSeqIndex
  let extendPrefixLens ← sliceExtend batch batch.extendPrefixLens startSeqIndex endSeqIndex
  let extendStartLoc ← sliceExtend batch batch.extendStartLoc startSeqIndex endSeqIndex
  let extendPrefixLensCpu ← sliceExtend batch batch.extendPrefixLensCpu startSeqIndex endSeqIndex
  let extendSeqLensCpu ← sliceExtend batch batch.extendSeqLensCpu startSeqIndex endSeqIndex
  let extendLogprobStartLensCpu ← sliceExtend batch batch.extendLogprobStartLensCpu startSeqIndex endSeqIndex
  let loraIds ← sliceSeqs batch.batchSize batch.loraIds startSeqIndex endSeqIndex
  let specInfo ← splitSpecInfo batch.specInfo startSeqIndex endSeqIndex startTokenIndex endTokenIndex
  if batch.forwardMode ≠ .targetVerify then
    pyAssert (computeExtendNumTokens batch.inputIds batch.forwardMode = batch.extendNumTokens)
  return {
    forwardMode := batch.forwardMode
    batchSize := endSeqIndex - startSeqIndex
    inputIds, positions, outCacheLoc, reqPoolIndices, seqLens, seqLensCpu
    seqLensSum := seqLensCpu.map List.sum
    extendNumTokens := computeExtendNumTokens inputIds batch.forwardMode
    extendSeqLens, extendPrefixLens, extendStartLoc, extendPrefixLensCpu, extendSeqLensCpu
    extendLogprobStartLensCpu, loraIds, specInfo
    numTokenNonPadded := some outNumTokenNonPadded
    tboSplitSeqIndex := none
    tboParentTokenRange := some (startTokenIndex, endTokenIndex) }

/-- `_update_device_and_sum_field_from_cpu_field(...)`: the device field. -/
def updatedDevice (cpu device : Option (List Nat)) : Option (List Nat) :=
  match cpu, device with
  | some cpu, some _ => some cpu
  | _, _ => device

/-- The sum field. -/
def updatedSum (cpu device : Option (List Nat)) (sum : Option Nat) : Option Nat :=
  match cpu, device with
  | some cpu, some _ => some cpu.sum
  | _, _ => sum

/-- `compute_position(...)[1]`, the same on every backend. -/
def extendStartLocs (start : Nat) : List Nat → List Nat
  | [] => []
  | len :: lens => start :: extendStartLocs (start + len) lens

/-- A field that an assignment to an entry needs. -/
def subscriptable (x : Option (List Nat)) : Py (List Nat) :=
  match x with
  | some (len :: lens) => .ok (len :: lens)
  | some [] => .error .indexError
  | none => .error (.typeError "'NoneType' object does not support item assignment")

/-- `derive_fields_related_to_seq_len_for_two_chunk(...)`. -/
def deriveFieldsForTwoChunk (batch childA childB : ForwardBatch) (tboSplitSeqIndex : Nat) :
    Py (ForwardBatch × ForwardBatch) := do
  let lens ← subscriptable batch.extendSeqLensCpu
  let halfSeqLensSum := lens.sum / 2
  let leftLastSeqTokenNum := halfSeqLensSum - (lens.take tboSplitSeqIndex).sum
  let cut ← pyIndex lens tboSplitSeqIndex
  let rightFirstSeqTokenNum := cut - leftLastSeqTokenNum
  let lensA ← subscriptable childA.extendSeqLensCpu
  let lensA := lensA.set (lensA.length - 1) leftLastSeqTokenNum
  let lensB ← subscriptable childB.extendSeqLensCpu
  let lensB := lensB.set 0 rightFirstSeqTokenNum
  let childA := { childA with
    extendSeqLensCpu := some lensA
    extendSeqLens := updatedDevice (some lensA) childA.extendSeqLens
    extendNumTokens := updatedSum (some lensA) childA.extendSeqLens childA.extendNumTokens }
  let childB := { childB with
    extendSeqLensCpu := some lensB
    extendSeqLens := updatedDevice (some lensB) childB.extendSeqLens
    extendNumTokens := updatedSum (some lensB) childB.extendSeqLens childB.extendNumTokens }
  pyAssert (childA.extendNumTokens = some halfSeqLensSum)
  let seqLensA ← subscriptable childA.seqLensCpu
  let prefixLensA ← subscriptable childA.extendPrefixLensCpu
  let seqLensA := seqLensA.set (seqLensA.length - 1) (lensA.getLastD 0 + prefixLensA.getLastD 0)
  let childA := { childA with
    seqLensCpu := some seqLensA
    seqLens := seqLensA
    seqLensSum := some seqLensA.sum }
  let prefixLensB ← subscriptable childB.extendPrefixLensCpu
  let prefixLensB := prefixLensB.set 0 (prefixLensB.headD 0 + leftLastSeqTokenNum)
  let childB := { childB with
    extendPrefixLensCpu := some prefixLensB
    extendPrefixLens := updatedDevice (some prefixLensB) childB.extendPrefixLens
    extendStartLoc := childB.extendSeqLens.map (extendStartLocs 0) }
  return (childA, childB)

/-- `_compute_split_token_index(batch)`. -/
def batchSplitTokenIndex (threshold : Rat) (batch : ForwardBatch) (tboSplitSeqIndex : Nat) : Py Nat := do
  let tokenNumPerSeq ← getTokenNumPerSeq batch.forwardMode batch.specInfo
  computeSplitTokenIndex threshold tboSplitSeqIndex batch.forwardMode batch.extendSeqLensCpu tokenNumPerSeq

/-- `compute_tbo_children_num_token_non_padded_raw(...)`. -/
def childrenNumTokenNonPadded (tboSplitTokenIndex numTokenNonPadded : Nat) : Nat × Nat :=
  (min tboSplitTokenIndex numTokenNonPadded, numTokenNonPadded - tboSplitTokenIndex)

/-- `prepare(batch)` of a batch with a split index: the two children. -/
def prepareTbo (threshold : Rat) (batch : ForwardBatch) (tboSplitSeqIndex : Nat) :
    Py (ForwardBatch × ForwardBatch) := do
  let tboSplitTokenIndex ← batchSplitTokenIndex threshold batch tboSplitSeqIndex
  let nonPadded := childrenNumTokenNonPadded tboSplitTokenIndex batch.inputIds.length
  let isEnableTwoChunk ←
    if batch.forwardMode = .extend then isTwoChunkSplitEnabled threshold batch.extendSeqLensCpu else pure false
  let childA ← filterBatch batch 0 tboSplitTokenIndex 0
    (if isEnableTwoChunk then tboSplitSeqIndex + 1 else tboSplitSeqIndex) nonPadded.1
  let childB ← filterBatch batch tboSplitTokenIndex batch.inputIds.length tboSplitSeqIndex batch.batchSize nonPadded.2
  if isEnableTwoChunk then deriveFieldsForTwoChunk batch childA childB tboSplitSeqIndex else return (childA, childB)

end QCFuse.Source
