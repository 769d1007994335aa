import Mathlib

/-!
# Dispatch budget

`DPBudget` of the data parallel controller: the queue of ranks that `update_budget` builds from the ranks' loads,
and `dispatch`. The `while` loop takes its number of rounds as fuel; an exhausted loop and a `min` of nothing are
`none`.
-/

set_option autoImplicit false

namespace QCFuse.Source

/-- The fields of `GetLoadReqOutput` that are read. -/
structure RankLoad where
  dpRank : Nat
  numReqs : Nat
  deriving DecidableEq, Repr

structure DPBudget where
  budgetQueue : List Nat
  deriving DecidableEq, Repr

namespace DPBudget

/-- `any(x != num_reqs[0] for x in num_reqs)`. -/
def unequal (numReqs : List Nat) : Bool := numReqs.any fun x => some x ≠ numReqs.head?

/-- A round of the loop: what the queue is extended by, and the new numbers. -/
def raiseLeast (loads : List RankLoad) (numReqs : List Nat) : Option (List Nat × List Nat) := do
  let minLoad ← numReqs.min?
  let minRanks := ((loads.zip numReqs).filter fun entry => entry.2 = minLoad).map fun entry => entry.1.dpRank
  let secondMinLoad ← (numReqs.filter fun x => minLoad < x).min?
  return ((List.replicate (secondMinLoad - minLoad) minRanks).flatten,
    numReqs.map fun x => if x = minLoad then secondMinLoad else x)

def raiseLoop (loads : List RankLoad) : Nat → List Nat → List Nat → Option (List Nat)
  | fuel, numReqs, queue =>
    if unequal numReqs then
      match fuel with
      | 0 => none
      | fuel + 1 => do
        let (extension, numReqs) ← raiseLeast loads numReqs
        raiseLoop loads fuel numReqs (queue ++ extension)
    else some queue

/-- `update_budget`, which clears the queue first. -/
def updateBudget (_ : DPBudget) (fuel : Nat) (loads : List RankLoad) : Option DPBudget :=
  let numReqs := loads.map RankLoad.numReqs
  match numReqs.max? with
  | none => some ⟨[]⟩
  | some maxNumReqs =>
    if numReqs.all fun x => x = maxNumReqs then some ⟨[]⟩
    else (raiseLoop loads fuel numReqs []).map DPBudget.mk

def dispatch (b : DPBudget) : DPBudget × Option Nat :=
  match b.budgetQueue with
  | [] => (b, none)
  | rank :: queue => (⟨queue⟩, some rank)

/-- The results of dispatches one after the other. -/
def dispatches : Nat → DPBudget → List (Option Nat)
  | 0, _ => []
  | n + 1, b => b.dispatch.2 :: dispatches n b.dispatch.1

end DPBudget

end QCFuse.Source
