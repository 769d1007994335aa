import QCFuse.Library.Slices
import QCFuse.Source.Python

/-!
# The overlap loop and its future map

Without speculative decoding. Of a batch its requests, input ids, output ids and what decides
whether they are merged are modelled. What the loop finds when it looks (arrivals, finished
requests, what the prefill policy, the memory checks and the sampler decide) is a `LoopChoice`.
-/

set_option autoImplicit false

namespace QCFuse.Source

open QCFuse.Library

/-! ## `overlap_utils.py` -/

structure FutureMap where
  futureCt : Nat
  futureLimit : Nat
  futureBufferLen : Nat
  tokenIdsBuf : List Int
  deriving DecidableEq, Repr

/-- `FutureMap(max_running_requests, ...)`; `torch.empty` leaves the buffer as it finds it. -/
def FutureMap.new (maxRunningRequests : Nat) (torchEmpty : List Int) : FutureMap where
  futureCt := 0
  futureLimit := maxRunningRequests * 3
  futureBufferLen := maxRunningRequests * 5
  tokenIdsBuf := torchEmpty

/-- The indices from `start` up to `stop`. -/
structure FutureIndices where
  start : Nat
  stop : Nat
  deriving DecidableEq, Repr

def FutureIndices.indices (fi : FutureIndices) : List Int :=
  (List.range' fi.start (fi.stop - fi.start)).map fun i : Nat => (i : Int)

/-- `alloc_future_indices(bs)`. -/
def FutureMap.allocFutureIndices (fm : FutureMap) (bs : Nat) : FutureMap × FutureIndices :=
  ({ fm with futureCt := (fm.futureCt + bs) % fm.futureLimit },
    ⟨fm.futureCt + 1, fm.futureCt + 1 + bs⟩)

/-- `_resolve_future_token_ids(input_ids, future_token_ids_map)`. The map is read for every id. -/
def resolveFutureTokenIds (inputIds futureTokenIdsMap : List Int) : Py (List Int) :=
  inputIds.mapM fun id => do
    let future ← pyIndex futureTokenIdsMap (max (-id) 0)
    return if id < 0 then future else id

/-- `store_to_map(future_indices, batch_result)`. -/
def FutureMap.storeToMap (fm : FutureMap) (fi : FutureIndices) (nextTokenIds : List Int) :
    Py FutureMap :=
  if nextTokenIds.length =
      min fi.stop fm.tokenIdsBuf.length - min fi.start fm.tokenIdsBuf.length then
    .ok { fm with tokenIdsBuf := overwrite fm.tokenIdsBuf fi.start nextTokenIds }
  else .error (.runtimeError "The expanded size of the tensor must match the existing size")

/-! ## `ScheduleBatch` -/

abbrev ReqId := Nat

inductive ForwardMode where
  | extend
  | decode
  | mixed
  deriving DecidableEq, Repr

def ForwardMode.isExtend : ForwardMode → Bool
  | .extend | .mixed => true
  | .decode => false

structure ScheduleBatch where
  reqs : List ReqId
  forwardMode : ForwardMode
  /-- `input_ids`, cut at the requests. -/
  inputIds : List (List Int)
  outputIds : Option (List Int)
  chunkedReq : Option ReqId
  isPrefillOnly : Bool
  deriving DecidableEq, Repr

namespace ScheduleBatch

def empty : ScheduleBatch := ⟨[], .extend, [], none, none, false⟩

/-- `xs[indices]`. -/
def gather {α : Type} (xs : List α) (indices : List Nat) : List α := indices.filterMap (xs[·]?)

/-- `self.output_ids`, where a tensor is needed. -/
def outputTensor (batch : ScheduleBatch) : Py (List Int) :=
  match batch.outputIds with
  | some ids => .ok ids
  | none => .error (.typeError "expected Tensor but got NoneType")

/-- The indices of the requests that are neither finished nor excluded. -/
def unfinished (batch : ScheduleBatch) (finished exclude : List ReqId) : List Nat :=
  (List.range batch.reqs.length).filter fun i =>
    (batch.reqs[i]?).all fun r => r ∉ finished ∧ r ∉ exclude

/-- `filter_batch(keep_indices=...)`. -/
def filterBatch (batch : ScheduleBatch) (keepIndices : List Nat) : Py ScheduleBatch :=
  if keepIndices.length = 0 then .ok { batch with reqs := [] }
  else if keepIndices.length = batch.reqs.length then .ok batch
  else do
    let ids ← batch.outputTensor
    return { batch with reqs := gather batch.reqs keepIndices
                        outputIds := some (gather ids keepIndices) }

/-- `merge_batch(other)`. -/
def mergeBatch (batch other : ScheduleBatch) : Py ScheduleBatch :=
  match batch.outputIds with
  | none => .ok { batch with reqs := batch.reqs ++ other.reqs }
  | some ids => do
    let otherIds ← other.outputTensor
    return { batch with reqs := batch.reqs ++ other.reqs, outputIds := some (ids ++ otherIds) }

/-- `prepare_for_decode()`. -/
def prepareForDecode (batch : ScheduleBatch) : Py ScheduleBatch := do
  let ids ← batch.outputTensor
  return { batch with forwardMode := .decode, inputIds := ids.map ([·]), outputIds := none }

/-- `mix_with_running(running_batch)`. -/
def mixWithRunning (batch running : ScheduleBatch) : Py ScheduleBatch := do
  let merged ← batch.mergeBatch running
  return { merged with forwardMode := .mixed, inputIds := batch.inputIds ++ running.inputIds }

end ScheduleBatch

/-! ## `Scheduler` -/

structure Scheduler where
  futureMap : FutureMap
  runningBatch : ScheduleBatch
  lastBatch : Option ScheduleBatch
  chunkedReq : Option ReqId
  waitingQueue : List ReqId
  deriving DecidableEq, Repr

structure LoopChoice where
  arrived : List ReqId
  finished : List ReqId
  /-- The next chunk of the chunked request, and whether it is still cut short. -/
  chunkIds : List Nat
  truncated : Bool
  /-- Requests admitted from the waiting queue, with the tokens to extend them by, and whether
  the last one is cut short. -/
  admitted : List (ReqId × List Nat)
  newChunked : Bool
  prefillOnly : Bool
  /-- The running requests `preempt_to_schedule` keeps, where it preempts any. -/
  preemptKeep : Option (List Nat)
  /-- Mixed chunked prefill is on and neither batch returns logprobs. -/
  mix : Bool
  /-- The running requests `retract_decode` keeps, by length, where memory runs out. -/
  retractKeep : Option (List Nat)
  nextTokenIds : List Int
  deriving DecidableEq, Repr

/-- Requests kept are distinct requests of the batch. -/
def checkKeep (keep : List Nat) (batch : ScheduleBatch) : Py Unit :=
  if keep.Nodup ∧ ∀ i ∈ keep, i < batch.reqs.length then .ok () else .error .indexError

/-- `get_next_batch_to_run()` up to the prefill: the last prefill batch, less finished requests and
the chunked one, joins the running batch. -/
def mergeLastBatch (s : Scheduler) (c : LoopChoice) : Py Scheduler :=
  match s.lastBatch with
  | none => .ok s
  | some last =>
    if last.forwardMode.isExtend then do
      let exclude := s.chunkedReq.toList ++ last.chunkedReq.toList
      let last ← last.filterBatch (last.unfinished c.finished exclude)
      if last.reqs.isEmpty || last.isPrefillOnly then return s
      else if s.runningBatch.reqs.isEmpty then return { s with runningBatch := last }
      else
        let running ← s.runningBatch.mergeBatch last
        return { s with runningBatch := running }
    else .ok s

/-- The requests of the next prefill batch with the tokens to extend them by: the chunked request
first, then those admitted. -/
def canRunList (s : Scheduler) (c : LoopChoice) : List (ReqId × List Int) :=
  s.chunkedReq.toList.map (fun r => (r, c.chunkIds.map Int.ofNat)) ++
    c.admitted.map fun r => (r.1, r.2.map Int.ofNat)

/-- The running batch after `preempt_to_schedule`, and the preempted requests. -/
def preempt (running : ScheduleBatch) (c : LoopChoice) : Py (ScheduleBatch × List ReqId) :=
  match c.preemptKeep with
  | none => .ok (running, [])
  | some keep => do
    checkKeep keep running
    let kept ← running.filterBatch keep
    return (kept, running.reqs.filter (· ∉ kept.reqs))

/-- `self.chunked_req` after the prefill policy has run. -/
def nextChunkedReq (s : Scheduler) (c : LoopChoice) : Py (Option ReqId) :=
  let chunkedReq := if c.truncated then s.chunkedReq else none
  if c.newChunked then
    match chunkedReq with
    | some _ => .error (.runtimeError "AssertionError")
    | none => .ok (c.admitted.getLast?.map Prod.fst)
  else .ok chunkedReq

/-- `get_new_batch_prefill()`. -/
def getNewBatchPrefill (s : Scheduler) (c : LoopChoice) : Py (Scheduler × Option ScheduleBatch) := do
  let (running, preempted) ← preempt s.runningBatch c
  let canRun := canRunList s c
  if canRun.isEmpty then return ({ s with runningBatch := running }, none)
  else
    let chunkedReq ← nextChunkedReq s c
    let s := { s with
      runningBatch := running
      chunkedReq := chunkedReq
      waitingQueue := s.waitingQueue.filter (· ∉ canRun.map Prod.fst) ++ preempted }
    let batch : ScheduleBatch :=
      { reqs := canRun.map Prod.fst
        forwardMode := .extend
        inputIds := canRun.map Prod.snd
        outputIds := none
        chunkedReq := chunkedReq
        isPrefillOnly := c.prefillOnly }
    if c.mix && !running.reqs.isEmpty then
      let running ← running.filterBatch (running.unfinished c.finished [])
      if running.reqs.isEmpty then return ({ s with runningBatch := .empty }, some batch)
      else
        let running ← running.prepareForDecode
        let batch ← batch.mixWithRunning running
        return ({ s with runningBatch := .empty }, some batch)
    else return (s, some batch)

/-- `update_running_batch(batch)`, and the requests retracted. -/
def updateRunningBatch (batch : ScheduleBatch) (c : LoopChoice) :
    Py (ScheduleBatch × List ReqId) := do
  let batch ← batch.filterBatch (batch.unfinished c.finished [])
  if batch.reqs.isEmpty then return (batch, [])
  else match c.retractKeep with
    | none =>
      let batch ← batch.prepareForDecode
      return (batch, [])
    | some keep =>
      checkKeep keep batch
      let kept ← batch.filterBatch keep
      let running ← kept.prepareForDecode
      return (running, batch.reqs.filter (· ∉ kept.reqs))

/-- `get_next_batch_to_run()`. -/
def getNextBatchToRun (s : Scheduler) (c : LoopChoice) : Py (Scheduler × Option ScheduleBatch) := do
  let s ← mergeLastBatch s c
  let (s, newBatch) ← getNewBatchPrefill s c
  match newBatch with
  | some batch => return (s, some batch)
  | none =>
    if s.runningBatch.reqs.isEmpty then return (s, none)
    else
      let (running, retracted) ← updateRunningBatch s.runningBatch c
      let s := { s with runningBatch := running, waitingQueue := s.waitingQueue ++ retracted }
      return (s, if running.reqs.isEmpty then none else some running)

/-- `run_batch(batch)`: the ids the forward pass reads and the batch with its output ids. Delayed
sampling stores the tokens later in the same iteration. -/
def runBatch (s : Scheduler) (batch : ScheduleBatch) (nextTokenIds : List Int) :
    Py (Scheduler × ScheduleBatch) := do
  let (fm, fi) := s.futureMap.allocFutureIndices batch.reqs.length
  let inputIds ← batch.inputIds.mapM (resolveFutureTokenIds · fm.tokenIdsBuf)
  let fm ← fm.storeToMap fi nextTokenIds
  return ({ s with futureMap := fm },
    { batch with inputIds := inputIds, outputIds := some (fi.indices.map (- ·)) })

/-- One round of `event_loop_overlap()`. A decode batch is the running batch itself. -/
def eventLoopOverlap (s : Scheduler) (c : LoopChoice) : Py (Scheduler × Option ScheduleBatch) := do
  let (s, batch) ← getNextBatchToRun { s with waitingQueue := s.waitingQueue ++ c.arrived } c
  match batch with
  | none => return ({ s with lastBatch := none }, none)
  | some batch =>
    let (s, launched) ← runBatch s batch c.nextTokenIds
    let running := if launched.forwardMode = .decode then launched else s.runningBatch
    return ({ s with runningBatch := running, lastBatch := some launched }, some launched)

end QCFuse.Source
