import Mathlib.Logic.Function.Basic
import QCFuse.Library.Transition
import QCFuse.Source.OverlapSchedule

/-!
# `flush_cache` and the event loops

The scheduler without disaggregation and without speculative decoding, in the normal, the overlap
and the pipeline loop. Of a request, a batch and the pools only what decides who holds which slot
is modelled; what the policy, the memory checks, the sampler and the allocator decide is a choice.
A slot carries the number of resets before it was handed out.
-/

set_option autoImplicit false

namespace QCFuse.Source.Flush

open QCFuse.Library
open QCFuse.Source.ScheduleBatch (gather)

abbrev ReqId := Nat

/-- `era` is the number of resets of the pools before the slot was handed out. -/
structure Slot where
  index : Nat
  era : Nat
  deriving DecidableEq, Repr

structure Req where
  arrived : Bool
  /-- `finished_reason is not None` -/
  finished : Bool
  finishedOutput : Bool
  /-- An `AbortReq` went out for it as its last message. -/
  aborted : Bool
  /-- `len(output_ids) > 0` -/
  hasOutput : Bool
  isChunked : Nat
  isRetracted : Bool
  /-- `blend_style is not None` -/
  blendStyle : Bool
  reqPoolIdx : Slot
  prefixIndices : List Slot
  deriving DecidableEq, Repr

def Req.fresh (finished blendStyle : Bool) : Req where
  arrived := true
  finished := finished
  finishedOutput := false
  aborted := false
  hasOutput := false
  isChunked := 0
  isRetracted := false
  blendStyle := blendStyle
  reqPoolIdx := ⟨0, 0⟩
  prefixIndices := []

/-- The last message about the request is out. -/
def Req.terminal (req : Req) : Bool := req.finishedOutput || req.aborted

structure ServerArgs where
  ppSize : Nat
  enableOverlap : Bool
  isMixedChunk : Bool
  pageSize : Nat
  /-- Pipeline parallelism is refused with the overlap schedule and with mixed prefill. -/
  pipelineApart : 1 < ppSize → enableOverlap = false ∧ isMixedChunk = false

/-! ## The requests and the pools -/

structure Pools where
  reqs : ReqId → Req
  era : Nat
  reqToToken : Nat → List Slot
  /-- The slots the radix tree holds. -/
  treeCache : List Slot
  /-- A slot handed out before the last reset has been read or freed. -/
  stale : Bool

/-- What the tree does with a request's row: the entries it keeps, and its slots found again. -/
structure CacheChoice where
  inserted : ReqId → List Nat
  matched : ReqId → List Nat

namespace Pools

def row (p : Pools) (r : ReqId) : List Slot := p.reqToToken (p.reqs r).reqPoolIdx.index

/-- `slots` are read, or handed back to a pool. -/
def touch (p : Pools) (slots : List Slot) : Pools :=
  { p with stale := p.stale || slots.any fun slot => slot.era != p.era }

def modify (p : Pools) (r : ReqId) (f : Req → Req) : Pools :=
  { p with reqs := Function.update p.reqs r (f (p.reqs r)) }

def writeRow (p : Pools) (r : ReqId) (slots : List Slot) : Pools :=
  { p with reqToToken := Function.update p.reqToToken (p.reqs r).reqPoolIdx.index slots }

/-- Slots handed out by a pool. -/
def alloc (p : Pools) (indices : List Nat) : List Slot := indices.map (⟨·, p.era⟩)

def insert (p : Pools) (slots : List Slot) : Pools :=
  { p with treeCache := p.treeCache ++ slots }

/-- `evict_from_tree_cache(...)`. -/
def evict (p : Pools) (choice : List Nat) : Pools :=
  let freed := gather p.treeCache choice
  { p.touch freed with treeCache := p.treeCache.filter (· ∉ freed) }

/-- `init_next_round_input(tree_cache)`. -/
def initNextRoundInput (p : Pools) (r : ReqId) (choice : List Nat) : Pools :=
  let found := gather p.treeCache choice
  (p.touch found).modify r fun req => { req with prefixIndices := found }

/-- `cache_unfinished_req(req)`. -/
def cacheUnfinishedReq (args : ServerArgs) (p : Pools) (c : CacheChoice) (r : ReqId) : Pools :=
  if (p.reqs r).blendStyle then p
  else
    let row := p.row r
    let p := (p.touch row).insert (gather row (c.inserted r))
    let found := gather p.treeCache (c.matched r)
    let rest := row.drop found.length
    ((p.touch found).writeRow r (found ++ rest)).modify r fun req =>
      { req with prefixIndices := if args.pageSize ≠ 1 then found ++ rest else found }

/-- `cache_finished_req(req, is_insert)`: the row's slots go to the tree or back to the allocator,
and the row to its pool. -/
def cacheFinishedReq (p : Pools) (c : CacheChoice) (r : ReqId) (isInsert : Bool) : Pools :=
  let row := p.row r
  let kept := if isInsert && !(p.reqs r).blendStyle then gather row (c.inserted r) else []
  (p.touch ((p.reqs r).reqPoolIdx :: row)).insert kept

/-- `release_req(idx, ...)`. -/
def releaseReq (p : Pools) (c : CacheChoice) (evicted : List Nat) (r : ReqId) : Pools :=
  ((p.cacheFinishedReq c r false).evict evicted).modify r fun req =>
    { req with prefixIndices := [], isRetracted := true, isChunked := 0 }

/-- A request's part of `prepare_for_extend()`: its row and the slots to extend it by. -/
def extendReq (p : Pools) (poolIdx : Nat) (slots : List Nat) (r : ReqId) : Pools :=
  let pre := (p.reqs r).prefixIndices
  ((p.touch pre).modify r fun req =>
    { req with reqPoolIdx := ⟨poolIdx, p.era⟩, isRetracted := false }).writeRow r
      (pre ++ p.alloc slots)

/-- A request's part of `alloc_for_decode(...)`. -/
def decodeReq (p : Pools) (slot : Nat) (r : ReqId) : Pools :=
  p.writeRow r (p.row r ++ p.alloc [slot])

/-- `tree_cache.reset()`, `req_to_token_pool.clear()` and `token_to_kv_pool_allocator.clear()`. -/
def reset (p : Pools) : Pools := { p with era := p.era + 1, treeCache := [] }

end Pools

/-! ## Batches -/

inductive ForwardMode where
  | extend
  | decode
  | mixed
  | idle
  deriving DecidableEq, Repr

def ForwardMode.isExtend : ForwardMode → Bool
  | .extend | .mixed => true
  | .decode | .idle => false

structure ScheduleBatch where
  reqs : List ReqId
  forwardMode : ForwardMode
  outCacheLoc : List Slot
  chunkedReq : Option ReqId
  decodingReqs : List ReqId
  isPrefillOnly : Bool
  deriving DecidableEq, Repr

namespace ScheduleBatch

def empty : ScheduleBatch := ⟨[], .decode, [], none, [], false⟩

/-- `get_idle_batch()`. -/
def idle : ScheduleBatch := ⟨[], .idle, [], none, [], false⟩

/-- `filter_batch(keep_indices=...)`. -/
def keep (batch : ScheduleBatch) (kept : ReqId → Bool) : ScheduleBatch :=
  { batch with
    reqs := batch.reqs.filter kept
    outCacheLoc := if batch.reqs.all kept then batch.outCacheLoc else [] }

/-- `filter_batch(chunked_req_to_exclude=exclude)`. -/
def filterBatch (batch : ScheduleBatch) (p : Pools) (exclude : List ReqId) : ScheduleBatch :=
  batch.keep fun r => !(p.reqs r).finished && r ∉ exclude

/-- `merge_batch(other)`. -/
def mergeBatch (batch other : ScheduleBatch) : ScheduleBatch :=
  { batch with reqs := batch.reqs ++ other.reqs, outCacheLoc := [] }

/-- `mix_with_running(running_batch)`. -/
def mixWithRunning (batch running : ScheduleBatch) : ScheduleBatch :=
  { batch with
    reqs := batch.reqs ++ running.reqs
    forwardMode := .mixed
    outCacheLoc := batch.outCacheLoc ++ running.outCacheLoc }

end ScheduleBatch

/-- A reference to a batch. The running batch is one object with what refers to it. -/
inductive BatchRef where
  | running
  | own (batch : ScheduleBatch)
  deriving DecidableEq, Repr

def BatchRef.deref (running : ScheduleBatch) : BatchRef → ScheduleBatch
  | .running => running
  | .own batch => batch

/-! ## The scheduler -/

/-- Between two rounds. `runningMbs`, `mbs` and `lastMbs` are those of the pipeline loop;
`resultQueue` is that of the overlap loop. -/
structure Scheduler where
  pools : Pools
  waitingQueue : List ReqId
  grammarQueue : List ReqId
  runningBatch : ScheduleBatch
  lastBatch : Option BatchRef
  chunkedReq : Option ReqId
  resultQueue : List ScheduleBatch
  mbId : Nat
  runningMbs : Nat → ScheduleBatch
  mbs : Nat → Option BatchRef
  lastMbs : Nat → Option BatchRef

/-- `_abort_on_queued_limit(recv_req)`. -/
inductive QueueLimit where
  | room
  | reject
  | displace (victim : ReqId)
  deriving DecidableEq, Repr

/-- `_add_request_to_queue(req)`. -/
def addRequestToQueue (s : Scheduler) (limit : QueueLimit) (r : ReqId) : Scheduler :=
  match limit with
  | .room => { s with waitingQueue := s.waitingQueue ++ [r] }
  | .reject => { s with pools := s.pools.modify r fun req => { req with aborted := true } }
  | .displace victim =>
    { s with
      pools := s.pools.modify victim fun req => { req with aborted := true }
      waitingQueue := s.waitingQueue.erase victim ++ [r] }

inductive AddReqResult where
  | admitted
  | truncated
  | refused
  deriving DecidableEq, Repr

/-- One turn of the loop over the waiting queue. -/
structure AddChoice where
  req : ReqId
  preempted : List ReqId
  matched : List Nat
  evicted : List Nat
  result : AddReqResult

/-- What a round finds when it looks. -/
structure LoopChoice where
  cache : CacheChoice
  limit : ReqId → QueueLimit
  /-- How many grammars are ready, and which of them are invalid or timed out. -/
  numReadyReqs : Nat
  invalid : List ReqId
  /-- The chunked request is cut short again. -/
  truncated : Bool
  adds : List AddChoice
  evicted : List Nat
  poolIdx : ReqId → Nat
  slots : ReqId → List Nat
  decodeSlot : ReqId → Nat
  prefillOnly : Bool
  /-- Neither the new nor the running batch returns logprobs. -/
  mix : Bool
  retracted : List ReqId
  /-- Another rank of the data parallel group has a batch. -/
  idle : Bool
  finishing : List ReqId
  /-- The extra token of the request lies in a page of its own. -/
  newPage : ReqId → Bool
  /-- The entries of a retracted request's row that are freed late. -/
  delayed : ReqId → List Nat

structure Adder where
  canRunList : List ReqId
  preemptList : List ReqId
  newChunkedReq : Option ReqId

/-- What `add_one_req(...)` leaves in the adder. -/
def Adder.add (adder : Adder) (r : ReqId) : AddReqResult → Adder
  | .refused => adder
  | .admitted => { adder with canRunList := adder.canRunList ++ [r] }
  | .truncated => { adder with canRunList := adder.canRunList ++ [r], newChunkedReq := some r }

namespace Scheduler

/-- `move_ready_grammar_requests()`. -/
def moveReadyGrammarRequests (s : Scheduler) (c : LoopChoice) : Scheduler :=
  let ready := s.grammarQueue.take c.numReadyReqs
  let s := { s with
    pools := (ready.filter (· ∈ c.invalid)).foldl
      (fun p r => p.modify r fun req => { req with finished := true }) s.pools
    grammarQueue := s.grammarQueue.drop c.numReadyReqs }
  ready.foldl (fun s r => addRequestToQueue s (c.limit r) r) s

/-- The chunked request leaves its slots to the tree and gives its row back. -/
def stashChunkedReq (args : ServerArgs) (s : Scheduler) (c : LoopChoice) : Scheduler :=
  match s.chunkedReq with
  | none => s
  | some r =>
    let p := s.pools.cacheUnfinishedReq args c.cache r
    { s with pools := p.touch [(p.reqs r).reqPoolIdx] }

/-- The last prefill batch, as filtered, joins the running batch. -/
def joinRunning (s : Scheduler) (last : ScheduleBatch) : BatchRef → Scheduler
  | .running =>
    if last.reqs.isEmpty || last.isPrefillOnly then { s with runningBatch := last }
    else { s with runningBatch := last.mergeBatch last }
  | .own _ =>
    if last.reqs.isEmpty || last.isPrefillOnly then { s with lastBatch := some (.own last) }
    else if s.runningBatch.reqs.isEmpty then
      { s with runningBatch := last, lastBatch := some .running }
    else
      { s with runningBatch := s.runningBatch.mergeBatch last, lastBatch := some (.own last) }

/-- `get_next_batch_to_run()` up to the prefill. -/
def mergeLastBatch (s : Scheduler) : Scheduler :=
  match s.lastBatch with
  | none => s
  | some ref =>
    let last := ref.deref s.runningBatch
    if last.forwardMode.isExtend then
      s.joinRunning
        (last.filterBatch s.pools (s.chunkedReq.toList ++ last.chunkedReq.toList)) ref
    else s

/-- `preempt_to_schedule(...)`, and the requests preempted. -/
def preemptToSchedule (s : Scheduler) (c : LoopChoice) (chosen : List ReqId) :
    Scheduler × List ReqId :=
  let preempted := s.runningBatch.reqs.filter (· ∈ chosen)
  ({ s with
      pools := preempted.foldl (fun p r => p.releaseReq c.cache c.evicted r) s.pools
      runningBatch := s.runningBatch.keep (· ∉ chosen) }, preempted)

/-- One turn of the loop over the waiting queue. A request that has finished before it runs has a
single token, which is not cut. -/
def addOneReq (s : Scheduler) (c : LoopChoice) (adder : Adder) (a : AddChoice) :
    Option (Scheduler × Adder) :=
  if a.req ∈ s.waitingQueue ∧ a.req ∉ adder.canRunList ∧
      (a.result = .truncated → (s.pools.reqs a.req).finished = false) then
    let (s, preempted) := s.preemptToSchedule c a.preempted
    let s := { s with pools := (s.pools.initNextRoundInput a.req a.matched).evict a.evicted }
    some (s, { adder with preemptList := adder.preemptList ++ preempted }.add a.req a.result)
  else none

def addReqs (c : LoopChoice) : List AddChoice → Scheduler → Adder → Option (Scheduler × Adder)
  | [], s, adder => some (s, adder)
  | a :: rest, s, adder => (addOneReq s c adder a).bind fun (s, adder) => addReqs c rest s adder

/-- `prepare_for_decode()` of the running batch. -/
def prepareForDecode (s : Scheduler) (c : LoopChoice) : Scheduler :=
  let reqs := s.runningBatch.reqs
  { s with
    pools := reqs.foldl (fun p r => p.decodeReq (c.decodeSlot r) r) (s.pools.evict c.evicted)
    runningBatch := { s.runningBatch with
      forwardMode := .decode
      outCacheLoc := s.pools.alloc (reqs.map c.decodeSlot) } }

/-- `self.running_batch = ScheduleBatch(reqs=[], ...)`: what referred to the old one still does. -/
def dropRunning (s : Scheduler) : Scheduler :=
  { s with
    runningBatch := .empty
    lastBatch := s.lastBatch.map fun ref => .own (ref.deref s.runningBatch) }

/-- Mixed chunked prefill: the running batch becomes part of the prefill batch. -/
def mixBatch (s : Scheduler) (c : LoopChoice) (batch : ScheduleBatch) : Scheduler × ScheduleBatch :=
  let s := { s with runningBatch := s.runningBatch.filterBatch s.pools [] }
  if s.runningBatch.reqs.isEmpty then (s.dropRunning, batch)
  else
    let s := s.prepareForDecode c
    let batch := batch.mixWithRunning s.runningBatch
    (s.dropRunning, { batch with decodingReqs := s.runningBatch.reqs })

/-- The new prefill batch, with rows and slots for its requests. -/
def extendBatch (s : Scheduler) (c : LoopChoice) (canRunList : List ReqId) :
    Scheduler × ScheduleBatch :=
  ({ s with
      pools := canRunList.foldl (fun p r => p.extendReq (c.poolIdx r) (c.slots r) r)
        (s.pools.evict c.evicted) },
    { reqs := canRunList
      forwardMode := .extend
      outCacheLoc := s.pools.alloc (canRunList.flatMap c.slots)
      chunkedReq := s.chunkedReq
      decodingReqs := []
      isPrefillOnly := c.prefillOnly })

/-- `self.chunked_req` once the policy has run; a second chunked request fails the assertion. -/
def nextChunkedReq (s : Scheduler) (c : LoopChoice) (adder : Adder) : Option (Option ReqId) :=
  let chunkedReq := if c.truncated then s.chunkedReq else none
  match adder.newChunkedReq with
  | none => some chunkedReq
  | some r => if chunkedReq.isSome then none else some (some r)

/-- `get_new_batch_prefill()` once there is something to run. -/
def newPrefillBatch (args : ServerArgs) (s : Scheduler) (c : LoopChoice) (adder : Adder)
    (chunkedReq : Option ReqId) : Scheduler × ScheduleBatch :=
  let s := { s with waitingQueue := s.waitingQueue.filter (· ∉ adder.canRunList) }
  let s := adder.preemptList.foldl (fun s r => addRequestToQueue s (c.limit r) r) s
  let s := { s with
    chunkedReq := chunkedReq
    pools := chunkedReq.toList.foldl
      (fun p r => p.modify r fun req => { req with isChunked := req.isChunked + 1 }) s.pools }
  let (s, batch) := s.extendBatch c adder.canRunList
  if args.isMixedChunk && !s.runningBatch.reqs.isEmpty && c.mix then s.mixBatch c batch
  else (s, batch)

/-- `get_new_batch_prefill()`. -/
def getNewBatchPrefill (args : ServerArgs) (s : Scheduler) (c : LoopChoice) :
    Option (Scheduler × Option ScheduleBatch) := do
  let s := s.moveReadyGrammarRequests c
  let (s, adder) ← addReqs c c.adds s ⟨s.chunkedReq.toList, [], none⟩
  if adder.canRunList.isEmpty then return (s, none)
  else
    let chunkedReq ← s.nextChunkedReq c adder
    let (s, batch) := s.newPrefillBatch args c adder chunkedReq
    return (s, some batch)

/-- `update_running_batch(self.running_batch)`. One request is left where any are retracted. -/
def updateRunningBatch (s : Scheduler) (c : LoopChoice) : Option Scheduler :=
  let s := { s with runningBatch := s.runningBatch.filterBatch s.pools [] }
  if s.runningBatch.reqs.isEmpty then some s
  else
    let s := { s with pools := s.pools.evict c.evicted }
    let retracted := s.runningBatch.reqs.filter (· ∈ c.retracted)
    if retracted.isEmpty then some (s.prepareForDecode c)
    else
      let s := { s with
        pools := retracted.foldl (fun p r => p.releaseReq c.cache c.evicted r) s.pools
        runningBatch := s.runningBatch.keep (· ∉ c.retracted) }
      if s.runningBatch.reqs.isEmpty then none
      else
        let s := retracted.foldl (fun s r => addRequestToQueue s (c.limit r) r) s
        some (s.prepareForDecode c)

/-- `get_next_batch_to_run()`. -/
def getNextBatchToRun (args : ServerArgs) (s : Scheduler) (c : LoopChoice) :
    Option (Scheduler × Option BatchRef) := do
  let idle := if c.idle then some (BatchRef.own .idle) else none
  let (s, newBatch) ← ((s.stashChunkedReq args c).mergeLastBatch).getNewBatchPrefill args c
  match newBatch with
  | some batch => return (s, some (.own batch))
  | none =>
    if s.runningBatch.reqs.isEmpty then return (s, idle)
    else
      let s ← s.updateRunningBatch c
      return (s, if s.runningBatch.reqs.isEmpty then idle else some .running)

end Scheduler

/-- `run_batch(batch)`: the forward pass reads the rows and writes the new slots. -/
def runBatch (p : Pools) (batch : ScheduleBatch) : Pools :=
  p.touch (batch.reqs.flatMap p.row ++ batch.outCacheLoc)

/-- `stream_output(reqs, ..., skip_req)`. -/
def streamOutput (p : Pools) (reqs : List ReqId) (skipReq : Option ReqId) : Pools :=
  reqs.foldl (fun p r =>
    if skipReq = some r then p
    else p.modify r fun req =>
      { req with finishedOutput := req.finishedOutput || req.finished }) p

/-- The next token is appended and `check_finished()` looks at it. -/
def appendToken (p : Pools) (c : LoopChoice) (r : ReqId) : Pools :=
  p.modify r fun req =>
    { req with hasOutput := true, finished := req.finished || decide (r ∈ c.finishing) }

/-- One turn of the loop of `process_batch_result_prefill(batch, result)`. -/
def processPrefillReq (args : ServerArgs) (c : LoopChoice) (batch : ScheduleBatch)
    (acc : Pools × Option ReqId) (entry : ReqId × Nat) : Pools × Option ReqId :=
  let (p, skipReq) := acc
  let (r, i) := entry
  let req := p.reqs r
  if args.enableOverlap && req.isRetracted && req.hasOutput then
    (p.touch (gather (p.row r) (c.delayed r)), skipReq)
  else if args.isMixedChunk && args.enableOverlap && (req.finished || req.isRetracted) then
    let j := batch.outCacheLoc.length - batch.reqs.length + i
    (p.touch ((batch.outCacheLoc.drop j).take 1), skipReq)
  else if req.isRetracted then (p, skipReq)
  else if req.isChunked = 0 then
    let p := appendToken p c r
    if (p.reqs r).finished then (p.cacheFinishedReq c.cache r true, skipReq)
    else if r ∈ batch.decodingReqs then (p, skipReq)
    else (p.cacheUnfinishedReq args c.cache r, skipReq)
  else (p.modify r fun req => { req with isChunked := req.isChunked - 1 }, some r)

/-- One turn of the loop of `process_batch_result_decode(batch, result)`. -/
def processDecodeReq (args : ServerArgs) (c : LoopChoice) (batch : ScheduleBatch) (p : Pools)
    (entry : ReqId × Nat) : Pools :=
  let (r, i) := entry
  let req := p.reqs r
  if args.enableOverlap && (req.finished || req.isRetracted) then
    if args.pageSize = 1 ∨ c.newPage r then p.touch ((batch.outCacheLoc.drop i).take 1) else p
  else if req.isRetracted then p
  else
    let p := appendToken p c r
    if (p.reqs r).finished then p.cacheFinishedReq c.cache r true else p

/-- `process_batch_result(batch, result)`. -/
def processBatchResult (args : ServerArgs) (c : LoopChoice) (p : Pools) (batch : ScheduleBatch) :
    Pools :=
  match batch.forwardMode with
  | .decode =>
    streamOutput (batch.reqs.zipIdx.foldl (processDecodeReq args c batch) p) batch.reqs none
  | .extend | .mixed =>
    let (p, skipReq) := batch.reqs.zipIdx.foldl (processPrefillReq args c batch) (p, none)
    streamOutput p batch.reqs skipReq
  | .idle => p

namespace Scheduler

/-- The rest of a round of `event_loop_normal()`, once the messages are processed. -/
def roundNormal (args : ServerArgs) (s : Scheduler) (c : LoopChoice) : Option Scheduler := do
  let (s, ref) ← s.getNextBatchToRun args c
  match ref with
  | none => return { s with lastBatch := none }
  | some ref =>
    let batch := ref.deref s.runningBatch
    return { s with
      pools := processBatchResult args c (runBatch s.pools batch) batch
      lastBatch := some ref }

/-- The batch is run and its result queued. -/
def launchOverlap (s : Scheduler) : Option BatchRef → Scheduler
  | none => s
  | some ref =>
    let batch := ref.deref s.runningBatch
    { s with pools := runBatch s.pools batch, resultQueue := s.resultQueue ++ [batch] }

/-- The rest of a round of `event_loop_overlap()`. -/
def roundOverlap (args : ServerArgs) (s : Scheduler) (c : LoopChoice) : Option Scheduler := do
  let processed := s.lastBatch.isSome
  let (s, ref) ← s.getNextBatchToRun args c
  let s := { s.launchOverlap ref with lastBatch := ref }
  if processed then
    match s.resultQueue with
    | [] => none
    | batch :: rest =>
      return { s with pools := processBatchResult args c s.pools batch, resultQueue := rest }
  else return s

/-- The microbatch's batch is run, and the microbatch's containers are written back. A `last_batch`
that a flush has cleared is still in `last_mbs`. -/
def launchPp (s : Scheduler) (ref : Option BatchRef) : Scheduler :=
  { s with
    pools := match ref with
      | none => s.pools
      | some ref => runBatch s.pools (ref.deref s.runningBatch)
    runningMbs := Function.update s.runningMbs s.mbId s.runningBatch
    mbs := Function.update s.mbs s.mbId ref
    lastMbs := if s.lastBatch.isSome then Function.update s.lastMbs s.mbId s.lastBatch
      else s.lastMbs }

/-- The result of the next microbatch is received and processed. -/
def receivePp (args : ServerArgs) (s : Scheduler) (c : LoopChoice) (nextMbId : Nat) : Scheduler :=
  match s.mbs nextMbId with
  | none => s
  | some ref =>
    { s with
      pools := processBatchResult args c s.pools (ref.deref (s.runningMbs nextMbId))
      lastMbs := Function.update s.lastMbs nextMbId (some ref) }

/-- The start of a microbatch's turn. -/
def turnPp (s : Scheduler) (mbId : Nat) : Scheduler :=
  { s with mbId := mbId, runningBatch := s.runningMbs mbId, lastBatch := s.lastMbs mbId }

/-- The rest of a microbatch's turn in `event_loop_pp()`, and the start of the next one's. -/
def roundPp (args : ServerArgs) (s : Scheduler) (c : LoopChoice) : Option Scheduler := do
  let (s, ref) ← s.getNextBatchToRun args c
  let nextMbId := (s.mbId + 1) % args.ppSize
  return ((s.launchPp ref).receivePp args c nextMbId).turnPp nextMbId

/-- The event loop that the arguments select. -/
def round (args : ServerArgs) (s : Scheduler) (c : LoopChoice) : Option Scheduler :=
  if 1 < args.ppSize then s.roundPp args c
  else if args.enableOverlap then s.roundOverlap args c
  else s.roundNormal args c

/-- What `flush_cache()` looks at. -/
def flushTest (args : ServerArgs) (s : Scheduler) : Bool :=
  s.waitingQueue.isEmpty && s.runningBatch.reqs.isEmpty &&
    (args.ppSize == 1 || (List.range args.ppSize).all fun j => (s.runningMbs j).reqs.isEmpty)

/-- `flush_cache()`. -/
def flushCache (args : ServerArgs) (s : Scheduler) : Bool × Scheduler :=
  if s.flushTest args then (true, { s with lastBatch := none, pools := s.pools.reset })
  else (false, s)

/-- `abort_request(recv_req)`. A running request is only marked, for `check_finished()` to see. -/
def abortRequest (s : Scheduler) (rids : List ReqId) : Scheduler :=
  let popped := s.waitingQueue.filter (· ∈ rids)
  let cancelled := s.grammarQueue.filter (· ∈ rids)
  let p := popped.foldl (fun p r => p.modify r fun req => { req with aborted := true }) s.pools
  { s with
    waitingQueue := s.waitingQueue.filter (· ∉ rids)
    pools := cancelled.foldl (fun p r => p.modify r fun req => { req with finished := true }) p }

/-- `handle_generate_request(recv_req)`: to the grammar queue, or to the waiting queue, where it may
have finished already. -/
def handleGenerateRequest (s : Scheduler) (r : ReqId) (grammar finished blendStyle : Bool)
    (limit : QueueLimit) : Scheduler :=
  let s := { s with pools := s.pools.modify r fun _ => .fresh finished blendStyle }
  if grammar && !finished then { s with grammarQueue := s.grammarQueue ++ [r] }
  else addRequestToQueue s limit r

end Scheduler

inductive Label where
  | generate (r : ReqId) (grammar finished blendStyle : Bool) (limit : QueueLimit)
  | abort (rids : List ReqId)
  | flush
  | round (c : LoopChoice)

/-- A message is processed, or the rest of a round is run. -/
def step (args : ServerArgs) : Label → Scheduler → Option Scheduler
  | .generate r grammar finished blendStyle limit, s =>
    if (s.pools.reqs r).arrived then none
    else some (s.handleGenerateRequest r grammar finished blendStyle limit)
  | .abort rids, s => some (s.abortRequest rids)
  | .flush, s => some (s.flushCache args).2
  | .round c, s => s.round args c

def machine (args : ServerArgs) : Machine Scheduler Label := ⟨step args⟩

def Pools.initial : Pools where
  reqs := fun _ => { Req.fresh false false with arrived := false }
  era := 0
  reqToToken := fun _ => []
  treeCache := []
  stale := false

def Scheduler.initial : Scheduler where
  pools := .initial
  waitingQueue := []
  grammarQueue := []
  runningBatch := .empty
  lastBatch := none
  chunkedReq := none
  resultQueue := []
  mbId := 0
  runningMbs := fun _ => .empty
  mbs := fun _ => none
  lastMbs := fun _ => none

end QCFuse.Source.Flush
