import QCFuse.Source.PrefillBatch

/-!
# Preemption by a waiting request

`PrefillAdder.preempt_to_schedule` next to `add_one_req`. A request object is its `ref`. What a
request has in the tensors of the running batch is one row of type `ρ`; the cache is known by its
answers, here the tokens a release makes free or evictable.
-/

set_option autoImplicit false

namespace QCFuse.Source

structure PriorityReq where
  ref : Nat
  priority : Int
  waitQueueEntryTime : Rat
  req : Req
  deriving DecidableEq

/-- `reset_for_retract()`. -/
def PriorityReq.resetForRetract (r : PriorityReq) : PriorityReq :=
  { r with req := { r.req with prefixIndices := [], extendInputLen := 0 } }

structure RunningBatch (ρ : Type) where
  reqs : List PriorityReq
  rows : List ρ

/-- `filter_batch(keep_indices=...)`. -/
def RunningBatch.filterBatch {ρ : Type} (batch : RunningBatch ρ) (keepIndices : List Nat) : RunningBatch ρ :=
  if keepIndices.length = 0 then { batch with reqs := [] }
  else if keepIndices.length = batch.reqs.length then batch
  else ⟨keepIndices.filterMap (batch.reqs[·]?), keepIndices.filterMap (batch.rows[·]?)⟩

/-- `_get_running_request_total_token_offset(req)`. -/
def PrefillAdder.runningRequestTotalTokenOffset (adder : PrefillAdder) (req : Req) : Rat :=
  (min ((req.maxNewTokens : Int) - req.outputIds.length) adder.clipMaxNewTokens : Rat) * adder.newTokenRatio

structure PreemptionArgs where
  scheduleLowPriorityValuesFirst : Bool
  priorityThreshold : Int

/-- The priority of a running request is below that of `req` by more than the threshold. -/
def PreemptionArgs.preemptible (args : PreemptionArgs) (req runningReq : PriorityReq) : Bool :=
  let priorityDiff := req.priority - runningReq.priority
  args.priorityThreshold < if args.scheduleLowPriorityValuesFirst then priorityDiff * -1 else priorityDiff

/-- `sorted_running_reqs`: least important first, and of those the latest. -/
def PreemptionArgs.sortedRunningReqs (args : PreemptionArgs) (reqs : List PriorityReq) : List PriorityReq :=
  let key := fun x : PriorityReq =>
    if args.scheduleLowPriorityValuesFirst then -x.priority else x.priority
  reqs.mergeSort fun a b => key a < key b ∨ key a = key b ∧ -a.waitQueueEntryTime ≤ -b.waitQueueEntryTime

/-- A `PrefillAdder` with its running batch. -/
structure Preempting (ρ : Type) where
  adder : PrefillAdder
  batch : RunningBatch ρ
  preemptList : List PriorityReq

namespace Preempting

variable {ρ : Type}

/-- `PrefillAdder(...)` with the settings of the scheduler. -/
def new (s : PrefillState) (mixedWithDecodeTokens : Int) (batch : RunningBatch ρ) : Preempting ρ where
  adder :=
    { pageSize := s.pageSize
      clipMaxNewTokens := s.clipMaxNewTokens
      truncationAlignSize := s.truncationAlignSize
      newTokenRatio := s.newTokenRatio
      running := batch.reqs.map (·.req)
      availableAndEvictable := s.availableAndEvictable
      remInputTokens := s.maxPrefillTokens - mixedWithDecodeTokens
      remChunkTokens := s.chunkedPrefillSize.map (· - mixedWithDecodeTokens)
      remTotalTokenOffset := mixedWithDecodeTokens + (batch.reqs.map fun r =>
        (min ((r.req.maxNewTokens : Int) - r.req.outputIds.length) s.clipMaxNewTokens : Rat) *
          s.newTokenRatio).sum
      curRemTokenOffset := mixedWithDecodeTokens
      reqStates := none
      canRunList := []
      newChunkedReq := none }
  batch := batch
  preemptList := []

/-- The first loop: the requests to preempt and the tokens still missing. -/
def collect (args : PreemptionArgs) (s : Preempting ρ) (req : PriorityReq) : List PriorityReq × Rat :=
  let minTokensToRemove : Rat := req.req.extendInputLen + min req.req.maxNewTokens s.adder.clipMaxNewTokens -
    s.adder.remTotalTokens
  (args.sortedRunningReqs s.batch.reqs).foldl (fun (preemptibleReqs, minTokensToRemove) runningReq =>
    if runningReq.ref ∈ s.preemptList.map (·.ref) then (preemptibleReqs, minTokensToRemove)
    else if args.preemptible req runningReq then
      (preemptibleReqs ++ [runningReq],
        minTokensToRemove - s.adder.runningRequestTotalTokenOffset runningReq.req)
    else (preemptibleReqs, minTokensToRemove)) ([], minTokensToRemove)

/-- What the second loop changes: the budget, the requests released, and the indices to keep. -/
structure Releasing where
  adder : PrefillAdder
  released : List PriorityReq
  keepIndices : List Nat

/-- The second loop, over the running requests from index `i` on. Of a release the budget sees the tokens that
`releaseSize` gives back, and takes off the reservation of `req`. -/
def releaseLoop (releaseSize : List PriorityReq → PriorityReq → Nat) (req : PriorityReq)
    (preemptibleReqs : List PriorityReq) : Nat → List PriorityReq → Releasing → Releasing
  | _, [], s => s
  | i, runningReq :: rest, s =>
    releaseLoop releaseSize req preemptibleReqs (i + 1) rest <|
      if runningReq.ref ∈ preemptibleReqs.map (·.ref) then
        { s with
          adder := { s.adder with
            remTotalTokenOffset := s.adder.remTotalTokenOffset - s.adder.runningRequestTotalTokenOffset req.req
            availableAndEvictable := s.adder.availableAndEvictable + releaseSize s.released runningReq }
          released := s.released ++ [runningReq] }
      else { s with keepIndices := s.keepIndices ++ [i] }

/-- `preempt_to_schedule(req, server_args)`: the answer, what is released and the state afterwards. -/
def preemptToSchedule (args : PreemptionArgs) (releaseSize : List PriorityReq → PriorityReq → Nat)
    (s : Preempting ρ) (req : PriorityReq) : Bool × List PriorityReq × Preempting ρ :=
  let (preemptibleReqs, minTokensToRemove) := s.collect args req
  if preemptibleReqs = [] ∨ 0 < minTokensToRemove then (false, [], s)
  else
    let loop := releaseLoop releaseSize req preemptibleReqs 0 s.batch.reqs ⟨s.adder, [], []⟩
    let batch := s.batch.filterBatch loop.keepIndices
    (true, loop.released, {
      adder := { loop.adder with running := batch.reqs.map (·.req) }
      batch
      -- the objects of a set, in some order, which the releases have reset
      preemptList := s.preemptList ++ preemptibleReqs.map PriorityReq.resetForRetract })

/-- `add_one_req(...)`. -/
def addOneReq (tree : TreeCache) (s : Preempting ρ) (req : Req) : Preempting ρ :=
  { s with adder := (s.adder.addOneReq tree req).1 }

end Preempting

end QCFuse.Source
