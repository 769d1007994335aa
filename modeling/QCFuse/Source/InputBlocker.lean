import QCFuse.Source.Python

/-!
# Input blocker

`SchedulerInputBlocker` with its `PollBasedBarrier`, and a call of `handle` on every rank of the world group. The
all-reduce makes the calls of the ranks one step: what each rank received is handled, then the flags of all ranks
are combined.
-/

set_option autoImplicit false

namespace QCFuse.Source

/-- A received request: `BlockReqInput`, or another one. -/
inductive BlockerMsg (ρ : Type) where
  | block
  | unblock
  | req (r : ρ)
  deriving DecidableEq

/-- `_State`. -/
inductive BlockerState where
  | unblocked
  | blocked
  | globalUnblockBarrier
  deriving DecidableEq, Repr

structure PollBasedBarrier where
  noop : Bool
  localArrived : Bool
  deriving DecidableEq

namespace PollBasedBarrier

def localArrive (b : PollBasedBarrier) : Py PollBasedBarrier :=
  if b.localArrived then .error (.runtimeError "AssertionError") else .ok { b with localArrived := true }

/-- What the rank gives to the all-reduce. -/
def arrivedFlag (b : PollBasedBarrier) : Bool := b.noop || b.localArrived

/-- `poll_global_arrived`, with the result of the all-reduce. -/
def pollGlobalArrived (b : PollBasedBarrier) (globalArrived : Bool) : PollBasedBarrier × Bool :=
  let output := b.localArrived && globalArrived
  (if output then { b with localArrived := false } else b, output)

end PollBasedBarrier

structure SchedulerInputBlocker (ρ : Type) where
  state : BlockerState
  pendingReqs : List ρ
  noop : Bool
  globalUnblockBarrier : PollBasedBarrier

namespace SchedulerInputBlocker

variable {ρ : Type}

def new (noop : Bool) : SchedulerInputBlocker ρ := ⟨.unblocked, [], noop, ⟨noop, false⟩⟩

/-- `_change_state`. -/
def changeState (b : SchedulerInputBlocker ρ) (original target : BlockerState) : Py (SchedulerInputBlocker ρ) :=
  if b.state = original then .ok { b with state := target } else .error (.runtimeError "AssertionError")

/-- `_handle_recv_req`. -/
def handleRecvReq (b : SchedulerInputBlocker ρ) : BlockerMsg ρ → Py (SchedulerInputBlocker ρ × List ρ)
  | .block => do
    let b ← b.changeState .unblocked .blocked
    return (b, [])
  | .unblock => do
    let b ← b.changeState .blocked .globalUnblockBarrier
    let globalUnblockBarrier ← b.globalUnblockBarrier.localArrive
    return ({ b with globalUnblockBarrier }, [])
  | .req r =>
    if b.state = .unblocked then .ok (b, [r]) else .ok ({ b with pendingReqs := b.pendingReqs ++ [r] }, [])

/-- The loop over what was received. -/
def handleRecvReqs (b : SchedulerInputBlocker ρ) : List (BlockerMsg ρ) → Py (SchedulerInputBlocker ρ × List ρ)
  | [] => .ok (b, [])
  | msg :: msgs => do
    let (b, out) ← b.handleRecvReq msg
    let (b, outs) ← b.handleRecvReqs msgs
    return (b, out ++ outs)

/-- `handle` up to the all-reduce. -/
def handleLocal (b : SchedulerInputBlocker ρ) (recvReqs : Option (List (BlockerMsg ρ))) :
    Py (SchedulerInputBlocker ρ × List ρ) :=
  if recvReqs.isNone ≠ b.noop then .error (.runtimeError "AssertionError")
  else b.handleRecvReqs (recvReqs.getD [])

/-- `_handle_arrive_unblock_barrier`. -/
def handleArriveUnblockBarrier (b : SchedulerInputBlocker ρ) : Py (SchedulerInputBlocker ρ × List ρ) := do
  let b ← b.changeState .globalUnblockBarrier .unblocked
  return ({ b with pendingReqs := [] }, b.pendingReqs)

/-- `handle` behind the all-reduce, with what was output before it. -/
def handleGlobal (b : SchedulerInputBlocker ρ) (outputReqs : List ρ) (globalArrived : Bool) :
    Py (SchedulerInputBlocker ρ × List ρ) :=
  let (globalUnblockBarrier, arrived) := b.globalUnblockBarrier.pollGlobalArrived globalArrived
  let b := { b with globalUnblockBarrier }
  if b.state = .globalUnblockBarrier ∧ arrived then do
    let (b, released) ← b.handleArriveUnblockBarrier
    return (b, outputReqs ++ released)
  else .ok (b, outputReqs)

end SchedulerInputBlocker

/-- A rank with what it has received and output. -/
structure BlockerRank (ρ : Type) where
  blocker : SchedulerInputBlocker ρ
  received : List (BlockerMsg ρ)
  output : List ρ

section World

variable {ρ : Type}

/-- A rank's part of a step up to the all-reduce. -/
def BlockerRank.local (rank : BlockerRank ρ) (recvReqs : Option (List (BlockerMsg ρ))) : Py (BlockerRank ρ) := do
  let (blocker, out) ← rank.blocker.handleLocal recvReqs
  return ⟨blocker, rank.received ++ recvReqs.getD [], rank.output ++ out⟩

/-- A rank's part of a step behind the all-reduce. -/
def BlockerRank.global (globalArrived : Bool) (rank : BlockerRank ρ) : Py (BlockerRank ρ) := do
  let (blocker, output) ← rank.blocker.handleGlobal rank.output globalArrived
  return { rank with blocker, output }

/-- A call of `handle` on every rank. -/
def handleAll (ranks : List (BlockerRank ρ)) (recvReqs : List (Option (List (BlockerMsg ρ)))) :
    Py (List (BlockerRank ρ)) := do
  let ranks ← (ranks.zip recvReqs).mapM fun part => part.1.local part.2
  let globalArrived := ranks.all fun rank => rank.blocker.globalUnblockBarrier.arrivedFlag
  ranks.mapM (BlockerRank.global globalArrived)

end World

end QCFuse.Source
