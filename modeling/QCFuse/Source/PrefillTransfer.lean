import QCFuse.Source.QueryGather

/-!
# Sending a prompt's KV cache from a prefill server

`process_prefill_chunk`, `send_kv_chunk`, the results of a prefill batch and the two event loops of
disaggregated prefill, with the sender and the transfer worker behind them. Which requests a batch takes
and where their chunks end is decided elsewhere and left open here.
-/

set_option autoImplicit false

namespace QCFuse.Source

/-- `xs[::n]`. -/
def strided {α : Type} (xs : List α) (n : Nat) : List α :=
  (List.range ((xs.length + n - 1) / n)).filterMap fun i => xs[i * n]?

/-- `kv_to_page_indices`. -/
def kvToPageIndices (kvIndices : List Int) (pageSize : Nat) : List Int :=
  if pageSize = 1 then kvIndices else (strided kvIndices pageSize).map fun kvIndex => kvIndex / (pageSize : Int)

/-- `kv_to_page_num`. -/
def kvToPageNum (numKvIndices pageSize : Nat) : Nat := (numKvIndices + pageSize - 1) / pageSize

/-- `np.split(xs, indices)`. -/
def npSplit {α : Type} (xs : List α) (indices : List Nat) : List (List α) :=
  List.zipWith (fun start stop => (xs.take stop).drop start) (0 :: indices) (indices ++ [xs.length])

/-- Where `np.diff` of one of the lists is not 1, plus one. -/
def breaks (srcIndices dstIndices : List Int) : List Nat :=
  ((List.range (srcIndices.length - 1)).filter fun i =>
    srcIndices.getD (i + 1) 0 - srcIndices.getD i 0 ≠ 1 ∨ dstIndices.getD (i + 1) 0 - dstIndices.getD i 0 ≠ 1).map
      (· + 1)

/-- `group_concurrent_contiguous`. -/
def groupConcurrentContiguous (srcIndices dstIndices : List Int) : List (List Int) × List (List Int) :=
  if srcIndices = [] then ([], [])
  else (npSplit srcIndices (breaks srcIndices dstIndices), npSplit dstIndices (breaks srcIndices dstIndices))

/-- A call of `MooncakeKVSender.send`: what `add_transfer_request` is given. -/
structure TransferKVChunk where
  prefillKvIndices : List Int
  /-- `index_slice`. -/
  start : Nat
  stop : Nat
  isLast : Bool
  deriving DecidableEq, Repr

/-- A KV sender, with its calls so far and the row that each was read from. -/
structure KvSender where
  currIdx : Nat
  numKvIndices : Nat
  calls : List (List Int × TransferKVChunk)
  deriving DecidableEq, Repr

/-- `send`. -/
def KvSender.send (sender : KvSender) (row kvIndices : List Int) : KvSender :=
  let currIdx := sender.currIdx + kvIndices.length
  { sender with
    currIdx
    calls := sender.calls ++ [(row, ⟨kvIndices, sender.currIdx, currIdx, currIdx = sender.numKvIndices⟩)] }

/-- A block is moved from its first pages on. -/
def blockPairs (block : List Int × List Int) : List (Int × Int) :=
  (List.range block.1.length).map fun (t : Nat) => (block.1.headD 0 + (t : Int), block.2.headD 0 + (t : Int))

/-- The page pairs that the transfer worker moves for a chunk. -/
def transferPairs (chunk : TransferKVChunk) (dstKvIndices : List Int) : List (Int × Int) :=
  let chunkedDst := (dstKvIndices.take chunk.stop).drop chunk.start
  let prefillKvIndices :=
    if chunkedDst.length < chunk.prefillKvIndices.length then chunk.prefillKvIndices.take chunkedDst.length
    else chunk.prefillKvIndices
  let blocks := groupConcurrentContiguous prefillKvIndices chunkedDst
  (blocks.1.zip blocks.2).flatMap blockPairs

/-! ## The requests -/

structure PrefillReq where
  originInputIds : List Int
  outputIds : List Int
  fillIds : List Int
  startSendIdx : Int
  tmpEndIdx : Int
  isChunked : Int
  sender : KvSender
  deriving DecidableEq, Repr

namespace PrefillReq

/-- A bootstrapped request. -/
def new (pageSize : Nat) (originInputIds : List Int) : PrefillReq :=
  ⟨originInputIds, [], [], 0, -1, 0, ⟨0, kvToPageNum originInputIds.length pageSize, []⟩⟩

/-- `min(len(fill_ids), len(origin_input_ids))`. -/
def fillEnd (req : PrefillReq) : Int := min req.fillIds.length req.originInputIds.length

/-- `send_kv_chunk`, where `row` is `req_to_token[req_pool_idx]`. -/
def sendKvChunk (pageSize : Nat) (row : List Int) (req : PrefillReq) (lastChunk : Bool) (endIdx : Option Int) :
    PrefillReq :=
  let startIdx := req.startSendIdx
  let endIdx := endIdx.getD req.fillEnd
  -- the last partial page is delayed to the next send
  let endIdx := if lastChunk then endIdx else endIdx - endIdx % (pageSize : Int)
  let kvIndices := sliceRows row startIdx endIdx
  let req := { req with startSendIdx := endIdx }
  let pageIndices := kvToPageIndices kvIndices pageSize
  if pageIndices.length = 0 then req else { req with sender := req.sender.send row pageIndices }

end PrefillReq

/-! ## The event loops -/

structure PrefillServer where
  enableOverlap : Bool
  pageSize : Nat
  reqs : Nat → PrefillReq
  waitingQueue : List Nat
  chunkedReq : Option Nat
  lastBatch : Option (List Nat)
  resultQueue : List (List Nat)
  /-- `disagg_prefill_inflight_queue`; what polling removes from it stays here. -/
  inflightQueue : List Nat

/-- What an iteration of a loop leaves open. -/
structure PrefillIteration where
  /-- The chunked request's row after `cache_unfinished_req`. -/
  cachedRow : List Int
  /-- The requests of the batch and the lengths of their `fill_ids`. -/
  batch : List (Nat × Nat)
  /-- The requests' rows when the results of a batch are processed. -/
  rows : Nat → List Int
  nextTokenId : Nat → Int

namespace PrefillServer

variable (s : PrefillServer) (c : PrefillIteration)

def modify (r : Nat) (f : PrefillReq → PrefillReq) : PrefillServer :=
  { s with reqs := Function.update s.reqs r (f (s.reqs r)) }

/-- `process_prefill_chunk`. -/
def processPrefillChunk : PrefillServer :=
  match s.lastBatch, s.chunkedReq with
  | some _, some r =>
    if s.enableOverlap then s.modify r fun req => { req with tmpEndIdx := req.fillEnd }
    else s.modify r fun req => req.sendKvChunk s.pageSize c.cachedRow false none
  | _, _ => s

/-- The requests of the batch whose prefill does not end with it. -/
def truncated : List Nat :=
  (c.batch.filter fun entry => entry.2 < (s.reqs entry.1).originInputIds.length).map Prod.fst

/-- What `get_new_batch_prefill` obeys: the chunked request comes first and goes on, the others come from the
waiting queue, and at most one is truncated. -/
structure Schedules : Prop where
  distinct : (c.batch.map Prod.fst).Nodup
  chunked : ∀ r ∈ s.chunkedReq, ∃ stop rest, c.batch = (r, stop) :: rest ∧ (s.reqs r).fillIds.length ≤ stop
  waiting : ∀ entry ∈ c.batch, s.chunkedReq = some entry.1 ∨ entry.1 ∈ s.waitingQueue
  stops : ∀ entry ∈ c.batch, entry.2 ≤ (s.reqs entry.1).originInputIds.length
  oneTruncated : (s.truncated c).length ≤ 1

/-- `get_new_batch_prefill`. -/
def getNewBatchPrefill : PrefillServer × Option (List Nat) :=
  if c.batch = [] then (s, none)
  else
    let chunkedReq := (s.truncated c).head?
    let reqs := fun r =>
      let req := s.reqs r
      let req :=
        match c.batch.lookup r with
        | some stop => { req with fillIds := (req.originInputIds ++ req.outputIds).take stop }
        | none => req
      if chunkedReq = some r then { req with isChunked := req.isChunked + 1 } else req
    ({ s with
      reqs
      chunkedReq
      waitingQueue := s.waitingQueue.filter fun r => r ∉ c.batch.map Prod.fst }, some (c.batch.map Prod.fst))

/-- A turn of the loop of `process_batch_result_disagg_prefill`. -/
def processResult (s : PrefillServer) (r : Nat) : PrefillServer :=
  if (s.reqs r).isChunked ≤ 0 then
    { s.modify r fun req =>
        { req with outputIds := req.outputIds ++ [c.nextTokenId r] }.sendKvChunk s.pageSize (c.rows r) true none with
      inflightQueue := s.inflightQueue ++ [r] }
  else
    s.modify r fun req =>
      let req := { req with isChunked := req.isChunked - 1 }
      if s.enableOverlap then req.sendKvChunk s.pageSize (c.rows r) false (some req.tmpEndIdx) else req

/-- `process_batch_result_disagg_prefill`. -/
def processBatchResult (batch : List Nat) : PrefillServer := batch.foldl (processResult c) s

/-- A turn of `event_loop_normal_disagg_prefill`. -/
def iterateNormal : PrefillServer :=
  let (s, batch) := (s.processPrefillChunk c).getNewBatchPrefill c
  let s := match batch with
    | some batch => s.processBatchResult c batch
    | none => s
  { s with lastBatch := batch }

/-- A turn of `event_loop_overlap_disagg_prefill`. -/
def iterateOverlap : PrefillServer :=
  let lastBatch := s.lastBatch
  let (s, batch) := (s.processPrefillChunk c).getNewBatchPrefill c
  let s := { s with resultQueue := s.resultQueue ++ batch.toList }
  let s := match lastBatch, s.resultQueue with
    | some _, tmpBatch :: resultQueue => { s with resultQueue }.processBatchResult c tmpBatch
    | _, _ => s
  { s with lastBatch := batch }

def iterate : PrefillServer := if s.enableOverlap then s.iterateOverlap c else s.iterateNormal c

/-- A request leaves the bootstrap queue. -/
def arrive (r : Nat) (originInputIds : List Int) : PrefillServer :=
  { s with
    reqs := Function.update s.reqs r (.new s.pageSize originInputIds)
    waitingQueue := s.waitingQueue ++ [r] }

end PrefillServer

end QCFuse.Source
