import QCFuse.Source.PagedAllocator
import QCFuse.Source.Python

/-!
# Pre-allocation on a decode worker

`DecodePreallocQueue`: a request of a decode worker from its arrival to its first slots. A row of `req_to_token` is a
list without a width, and an assertion is its message. What is sent to a receiver, what a retracted request loads back
and the state indices of hybrid models are left out: they allocate nothing.
-/

set_option autoImplicit false

namespace QCFuse.Source

structure DecodeReq where
  originInputIds : List Int
  outputIds : List Int
  /-- `sampling_params.max_new_tokens`. -/
  maxNewTokens : Int
  /-- Whether `finished_reason` is a `FINISH_ABORT`. -/
  finishedAbort : Bool
  isRetracted : Bool
  reqPoolIdx : Option Nat
  fillIds : List Int
  extendInputLen : Nat
  deriving DecidableEq, Repr

structure DecodeRequest where
  req : DecodeReq
  waitingForInput : Bool
  metadataBufferIndex : Option Nat
  deriving DecidableEq, Repr

structure DecodeReqToTokenPool where
  reqToToken : List (List Int)
  freeSlots : List Nat
  deriving DecidableEq

namespace DecodeReqToTokenPool

def availableSize (p : DecodeReqToTokenPool) : Nat := p.freeSlots.length

def alloc (p : DecodeReqToTokenPool) (needSize : Nat) : Option (List Nat) × DecodeReqToTokenPool :=
  if p.freeSlots.length < needSize then (none, p)
  else (some (p.freeSlots.take needSize), { p with freeSlots := p.freeSlots.drop needSize })

/-- `write((index, slice(0, len(values))), values)`. -/
def write (p : DecodeReqToTokenPool) (index : Nat) (values : List Int) : DecodeReqToTokenPool :=
  { p with reqToToken := p.reqToToken.modify index fun row => values ++ row.drop values.length }

end DecodeReqToTokenPool

structure DecodeBatch where
  isExtend : Bool
  reqs : List DecodeReq
  deriving DecidableEq, Repr

/-- What the queue reads of the scheduler and of the transfer queue. -/
structure DecodeScheduler where
  runningBatch : List DecodeReq
  transferQueue : List DecodeRequest
  waitingQueue : List DecodeReq
  lastBatch : Option DecodeBatch

structure DecodeWorker where
  scheduler : DecodeScheduler
  reqToTokenPool : DecodeReqToTokenPool
  allocator : PagedAllocator
  /-- `req_to_metadata_buffer_idx_allocator.free_slots`. -/
  metadataSlots : List Nat
  queue : List DecodeRequest
  retractedQueue : List DecodeReq
  maxTotalNumTokens : Nat
  numReservedDecodeTokens : Nat
  /-- `CLIP_MAX_NEW_TOKEN`. -/
  clipMaxNewToken : Int

inductive KvPoll where
  | failed
  | bootstrapping
  | waitingForInput
  | transferring
  | success
  deriving DecidableEq, Repr

namespace DecodeWorker

/-- `add(req, is_retracted)`. -/
def add (w : DecodeWorker) (req : DecodeReq) (isRetracted : Bool) : DecodeWorker :=
  if w.maxTotalNumTokens < req.originInputIds.length then w
  else if isRetracted then { w with retractedQueue := w.retractedQueue ++ [req] }
  else { w with queue := w.queue ++ [{ req, waitingForInput := false, metadataBufferIndex := none }] }

/-- The tokens that a pre-allocated request holds: the last one has no slot yet. -/
def numTokensOf (req : DecodeReq) : Nat := req.originInputIds.length + (req.outputIds.length - 1)

/-- The allocator's part of `_pre_alloc`. -/
def allocSlots (mem : KernelMemory) (a : PagedAllocator) (numTokens : Nat) : Option (List Int) × PagedAllocator :=
  if a.pageSize = 1 then a.alloc numTokens else a.allocExtend mem [0] [numTokens] [-1] numTokens

/-- `_pre_alloc(req)`: the request with its row. -/
def preAlloc (mem : KernelMemory) (w : DecodeWorker) (req : DecodeReq) : Py (DecodeReq × DecodeWorker) := do
  let (reqPoolIndices, reqToTokenPool) := w.reqToTokenPool.alloc 1
  let some reqPoolIndices := reqPoolIndices
    | throw (.runtimeError "req_pool_indices is full! There is a bug in memory estimation.")
  let reqPoolIdx ← pyIndex reqPoolIndices 0
  let (kvLoc, allocator) := allocSlots mem w.allocator (numTokensOf req)
  let some kvLoc := kvLoc
    | throw (.runtimeError "KV cache is full! There is a bug in memory estimation.")
  let req := { req with
    reqPoolIdx := some reqPoolIdx
    fillIds := req.originInputIds ++ req.outputIds
    extendInputLen := req.originInputIds.length }
  return (req, { w with reqToTokenPool := reqToTokenPool.write reqPoolIdx kvLoc, allocator })

/-! ## The budget -/

/-- What one running request may still need when all others are retracted. -/
def needSpaceForSingleReq (w : DecodeWorker) (retractableTokens : Option Nat) : Int :=
  match retractableTokens with
  | none => 0
  | some retractableTokens =>
    ((w.scheduler.runningBatch.map fun x =>
      min x.maxNewTokens w.clipMaxNewToken + x.originInputIds.length - retractableTokens).max?).getD 0

/-- What a retracted request needs to come back. -/
def retractedTokens (w : DecodeWorker) (req : DecodeReq) : Nat :=
  req.originInputIds.length + req.outputIds.length + w.numReservedDecodeTokens

/-- `_allocatable_tokens(retractable_tokens, count_retracted)`. -/
def allocatableTokens (w : DecodeWorker) (retractableTokens : Option Nat) (countRetracted : Bool) : Int :=
  let reserved : Nat := w.numReservedDecodeTokens *
    (w.scheduler.runningBatch.length + w.scheduler.transferQueue.length + w.scheduler.waitingQueue.length)
  let allocatableTokens : Int :=
    w.allocator.availableSize - max (reserved : Int) (w.needSpaceForSingleReq retractableTokens)
  let lastExtend : Nat := match w.scheduler.lastBatch with
    | some batch => if batch.isExtend then w.numReservedDecodeTokens * batch.reqs.length else 0
    | none => 0
  let retracted : Nat := if countRetracted then (w.retractedQueue.map w.retractedTokens).sum else 0
  allocatableTokens - lastExtend - retracted

/-! ## The two passes -/

/-- The loop of `resume_retracted_reqs` from entry `i` on: the resumed requests and those that stay. -/
def resumeLoop (mem : Nat → KernelMemory) (w : DecodeWorker) (allocatableTokens : Int) (i : Nat) :
    List DecodeReq → Py (List DecodeReq × List DecodeReq × DecodeWorker)
  | [] => .ok ([], [], w)
  | req :: rest =>
    if w.reqToTokenPool.availableSize = 0 then .ok ([], req :: rest, w)
    else if allocatableTokens < w.retractedTokens req then .ok ([], req :: rest, w)
    else do
      let allocatableTokens := allocatableTokens - w.retractedTokens req
      let (resumed, w) ← preAlloc (mem i) w { req with isRetracted := false }
      let (resumedReqs, staying, w) ← resumeLoop mem w allocatableTokens (i + 1) rest
      return (resumed :: resumedReqs, staying, w)

/-- `resume_retracted_reqs()`. -/
def resumeRetractedReqs (mem : Nat → KernelMemory) (w : DecodeWorker) : Py (List DecodeReq × DecodeWorker) := do
  let (resumed, staying, w) ← resumeLoop mem w (w.allocatableTokens none false) 0 w.retractedQueue
  return (resumed, { w with retractedQueue := staying })

/-- One entry of `_update_handshake_waiters`. -/
def handshake (decodeReq : DecodeRequest) : KvPoll → Py DecodeRequest
  | .bootstrapping => .ok decodeReq
  | .waitingForInput => .ok { decodeReq with waitingForInput := true }
  | .failed => .ok { decodeReq with req := { decodeReq.req with finishedAbort := true } }
  | .transferring | .success => .error (.valueError "Unexpected poll case")

/-- `_update_handshake_waiters()`, where every entry has its poll. -/
def updateHandshakeWaiters (queue : List DecodeRequest) (polls : List KvPoll) : Py (List DecodeRequest) :=
  if queue.all (·.waitingForInput) then .ok queue
  else do
    let updated ← (queue.zip polls).mapM fun (decodeReq, poll) => handshake decodeReq poll
    return updated ++ queue.drop polls.length

/-- The tokens that a new request needs. -/
def newTokens (w : DecodeWorker) (req : DecodeReq) : Nat := req.originInputIds.length + w.numReservedDecodeTokens

/-- Whether the budget is too small for a new request. -/
def overBudget (w : DecodeWorker) (retractableTokens : Nat) (allocatableTokens : Int) (req : DecodeReq) : Bool :=
  allocatableTokens < max (w.newTokens req : Int)
      (req.originInputIds.length + min req.maxNewTokens w.clipMaxNewToken - retractableTokens) ||
    allocatableTokens < w.newTokens req

/-- The second loop of `pop_preallocated` from entry `i` on: the preallocated requests and those that stay. -/
def popLoop (mem : Nat → KernelMemory) (w : DecodeWorker) (retractableTokens : Nat) (allocatableTokens : Int)
    (i : Nat) : List DecodeRequest → Py (List DecodeRequest × List DecodeRequest × DecodeWorker)
  | [] => .ok ([], [], w)
  | decodeReq :: rest =>
    if decodeReq.req.finishedAbort then popLoop mem w retractableTokens allocatableTokens (i + 1) rest
    else if !decodeReq.waitingForInput then do
      let (preallocated, staying, w) ← popLoop mem w retractableTokens allocatableTokens (i + 1) rest
      return (preallocated, decodeReq :: staying, w)
    else if w.reqToTokenPool.availableSize = 0 || w.metadataSlots.isEmpty ||
        w.overBudget retractableTokens allocatableTokens decodeReq.req then
      .ok ([], (decodeReq :: rest).filter (!·.req.finishedAbort), w)
    else do
      let allocatableTokens := allocatableTokens - w.newTokens decodeReq.req
      let (req, w) ← preAlloc (mem i) w decodeReq.req
      let metadataBufferIndex :: metadataSlots := w.metadataSlots
        | throw (.runtimeError "AssertionError")
      let decodeReq := { decodeReq with req, metadataBufferIndex := some metadataBufferIndex }
      let w := { w with metadataSlots }
      let (preallocated, staying, w) ← popLoop mem w retractableTokens allocatableTokens (i + 1) rest
      return (decodeReq :: preallocated, staying, w)

/-- `retractable_tokens`. -/
def retractableTokens (w : DecodeWorker) : Nat :=
  (w.scheduler.runningBatch.map fun r => r.originInputIds.length + r.outputIds.length).sum

/-- `pop_preallocated()`. -/
def popPreallocated (mem : Nat → KernelMemory) (w : DecodeWorker) (polls : List KvPoll) :
    Py (List DecodeRequest × DecodeWorker) := do
  let queue ← updateHandshakeWaiters w.queue polls
  let (preallocated, staying, w) ←
    popLoop mem w w.retractableTokens (w.allocatableTokens (some w.retractableTokens) true) 0 queue
  return (preallocated, { w with queue := staying })

end DecodeWorker

end QCFuse.Source
