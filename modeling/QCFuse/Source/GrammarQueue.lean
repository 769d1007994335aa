import Mathlib.Data.Rat.Defs
import QCFuse.Library.Dict

/-!
# The grammar queue

`move_ready_grammar_requests` on the ranks of a tensor-parallel group. Each rank has its own futures
and wait counts. Compilation is a parameter, the same on all ranks; which futures are done within
the wait of one call is an argument of each rank. A copy of a grammar is the grammar.
-/

set_option autoImplicit false

namespace QCFuse.Source

open QCFuse.Library

/-- Key type and key string. -/
abbrev GrammarKey := String × String

/-- What a future gives: a grammar, `INVALID_GRAMMAR_OBJ`, `None` for a kind that the backend does not
support, or an exception. -/
inductive Compiled (Γ : Type) where
  | object (grammar : Γ)
  | invalid
  | unsupported
  | raises (message : String)
  deriving DecidableEq, Repr

/-- `req.grammar`. -/
inductive GrammarSlot (Γ : Type) where
  | none
  | future
  | object (grammar : Γ)
  | invalid
  deriving DecidableEq, Repr

inductive GrammarError where
  | attributeError
  | indexError
  | other (message : String)
  deriving DecidableEq, Repr

/-- What `move_ready_grammar_requests` reads and writes of a request. -/
structure GrammarReq (Γ : Type) where
  rid : String
  finishedReason : Option String
  grammarKey : GrammarKey
  grammar : GrammarSlot Γ
  grammarWaitCt : Nat
  deriving DecidableEq, Repr

/-- The queue and the grammar cache of a rank. -/
structure GrammarRank (Γ : Type) where
  grammarQueue : List (GrammarReq Γ)
  cache : Dict GrammarKey (Compiled Γ)

section

variable {Γ : Type} (compile : GrammarKey → Compiled Γ)

def GrammarReq.finished (req : GrammarReq Γ) : Bool := req.finishedReason.isSome

/-- `set_finish_with_abort`, as far as the grammar goes. -/
def GrammarReq.setFinishWithAbort (req : GrammarReq Γ) (message : String) : GrammarReq Γ :=
  { req with grammar := .none, finishedReason := some message }

def keyText (key : GrammarKey) : String := "('" ++ key.1 ++ "', '" ++ key.2 ++ "')"

/-- The result of the future of a request goes into the request and into the cache. -/
def takeResult (req : GrammarReq Γ) (cache : Dict GrammarKey (Compiled Γ)) :
    Except GrammarError (GrammarReq Γ × Dict GrammarKey (Compiled Γ)) :=
  match compile req.grammarKey with
  | .object grammar => .ok ({ req with grammar := .object grammar }, cache.set req.grammarKey (.object grammar))
  | .invalid => .ok (req.setFinishWithAbort ("Invalid grammar request: req.grammar_key=" ++ keyText req.grammarKey),
      cache.set req.grammarKey .invalid)
  | .unsupported => .error .attributeError
  | .raises message => .error (.other message)

/-- The first loop: the queue it leaves, the number of ready requests, the number of timed out ones. -/
def readyLoop (grammarTimeout : Rat) : List (GrammarReq Γ) → (Nat → Bool) → Dict GrammarKey (Compiled Γ) →
    Except GrammarError (List (GrammarReq Γ) × Nat × Nat × Dict GrammarKey (Compiled Γ))
  | [], _, cache => .ok ([], 0, 0, cache)
  | req :: rest, ready, cache =>
    if req.finished then do
      let (rest, numReady, numTimeout, cache) ← readyLoop grammarTimeout rest (fun i => ready (i + 1)) cache
      return (req :: rest, numReady + 1, numTimeout, cache)
    else if ready 0 then do
      let (req, cache) ← takeResult compile req cache
      let (rest, numReady, numTimeout, cache) ← readyLoop grammarTimeout rest (fun i => ready (i + 1)) cache
      return (req :: rest, numReady + 1, numTimeout, cache)
    else
      let req := { req with grammarWaitCt := req.grammarWaitCt + 1 }
      .ok (req :: rest, 0, if (req.grammarWaitCt : Rat) > grammarTimeout / (3 / 100) then 1 else 0, cache)

/-- One turn of the second loop. -/
def completeAt (rank : GrammarRank Γ) (i : Nat) : Except GrammarError (GrammarRank Γ) :=
  match rank.grammarQueue[i]? with
  | none => .error .indexError
  | some req =>
    if req.finished then .ok rank
    else do
      let (req, cache) ← takeResult compile req rank.cache
      return ⟨rank.grammarQueue.set i req, cache⟩

/-- One turn of the third loop; only a future has `cancel`. -/
def timeOutAt (rank : GrammarRank Γ) (i : Nat) : Except GrammarError (GrammarRank Γ) :=
  match rank.grammarQueue[i]? with
  | none => .error .indexError
  | some req =>
    match req.grammar with
    | .future => .ok ⟨rank.grammarQueue.set i (req.setFinishWithAbort
        ("Grammar preprocessing timed out for req.grammar_key=" ++ keyText req.grammarKey)),
        rank.cache.set req.grammarKey .invalid⟩
    | _ => .error .attributeError

/-- A rank after its first loop. -/
structure CountedRank (Γ : Type) where
  rank : GrammarRank Γ
  numReadyReqs : Nat
  numTimeoutReqs : Nat

def GrammarRank.count (grammarTimeout : Rat) (rank : GrammarRank Γ) (ready : Nat → Bool) :
    Except GrammarError (CountedRank Γ) := do
  let (queue, numReady, numTimeout, cache) ← readyLoop compile grammarTimeout rank.grammarQueue ready rank.cache
  return ⟨⟨queue, cache⟩, numReady, numTimeout⟩

/-- What a rank does once the two maxima are known: the requests given to `_add_request_to_queue`, in
order, and the rank. -/
def CountedRank.move (counted : CountedRank Γ) (numReadyReqsMax numTimeoutReqsMax : Nat) :
    Except GrammarError (List (GrammarReq Γ) × GrammarRank Γ) := do
  let rank ← (List.range' counted.numReadyReqs (numReadyReqsMax - counted.numReadyReqs)).foldlM
    (completeAt compile) counted.rank
  let rank ← (List.range' counted.numReadyReqs numTimeoutReqsMax).foldlM timeOutAt rank
  let numReadyReqs := numReadyReqsMax + numTimeoutReqsMax
  return (rank.grammarQueue.take numReadyReqs, { rank with grammarQueue := rank.grammarQueue.drop numReadyReqs })

/-- `all_reduce` with `MAX`. -/
def reduceMax (xs : List Nat) : Nat := xs.foldr max 0

/-- `move_ready_grammar_requests` on all ranks. One rank alone reduces nothing, which is the same. -/
def moveReadyGrammarRequests (grammarTimeout : Rat) (ranks : List (GrammarRank Γ × (Nat → Bool))) :
    Except GrammarError (List (List (GrammarReq Γ) × GrammarRank Γ)) := do
  let counted ← ranks.mapM fun (rank, ready) => rank.count compile grammarTimeout ready
  counted.mapM fun rank => rank.move compile (reduceMax (counted.map CountedRank.numReadyReqs))
    (reduceMax (counted.map CountedRank.numTimeoutReqs))

end

end QCFuse.Source
