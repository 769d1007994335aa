import QCFuse.Source.RadixCache
import Mathlib.Logic.Function.Basic

/-!
# The waiting queue in depth-first order

`SchedulePolicy` under the policy `dfs-weight`: every waiting request is matched against the tree
cache, then the queue is rebuilt by a walk through the tree. A dictionary keyed by nodes is a
function of their ids.
-/

set_option autoImplicit false

namespace QCFuse.Source

open QCFuse.Library

/-- What `_compute_prefix_matches` reads of a request. -/
structure WaitingReq where
  rid : String
  originInputIds : List Int
  outputIds : List Int
  extraKey : Option String
  deriving DecidableEq, Repr

/-- A request with the fields its match sets. -/
structure MatchedReq where
  req : WaitingReq
  prefixIndices : List Int
  lastNode : Nat
  deriving DecidableEq, Repr

/-! ## `_compute_prefix_matches` -/

/-- The state of the loop; `waitingTree` is `waiting_queue_radix_tree`. -/
structure PrefixMatches (Tok : Type) where
  matched : List MatchedReq
  treeCache : RadixCache Tok
  waitingTree : RadixCache Int
  temporaryDeprioritized : List String

/-- The two `IN_BATCH_PREFIX_CACHING` thresholds. -/
structure InBatchThresholds where
  check : Int
  deprioritize : Int

section Matches

variable {Tok : Type} [DecidableEq Tok]

/-- One pass of the loop. `clock` reads the time of the pass's three calls of a tree, and
`keyConvert` is the tree cache's `key_convert_fn`. -/
def PrefixMatches.matchReq (keyConvert : List Int → List Tok) (thresholds : InBatchThresholds)
    (clock : Nat → Int) (s : PrefixMatches Tok) (r : WaitingReq) : PrefixMatches Tok :=
  let prefixIds := r.originInputIds ++ r.outputIds
  let (result, treeCache) := s.treeCache.matchPrefix (clock 0) ⟨keyConvert prefixIds, r.extraKey⟩
  let s := { s with
    matched := s.matched ++ [⟨r, result.deviceIndices, result.lastDeviceNode⟩]
    treeCache }
  if result.deviceIndices.length ≤ thresholds.check then
    let (inBatch, waitingTree) := s.waitingTree.matchPrefix (clock 1) ⟨prefixIds, r.extraKey⟩
    if thresholds.deprioritize ≤ inBatch.deviceIndices.length then
      { s with waitingTree, temporaryDeprioritized := r.rid :: s.temporaryDeprioritized }
    else
      -- the values inserted are a dummy
      { s with
        waitingTree := (waitingTree.insert (clock 2) ⟨prefixIds, r.extraKey⟩
          (List.replicate prefixIds.length 0)).2 }
  else s

def computePrefixMatches (keyConvert : List Int → List Tok) (thresholds : InBatchThresholds)
    (clock : Nat → Nat → Int) (waitingQueue : List WaitingReq) (treeCache : RadixCache Tok) :
    PrefixMatches Tok :=
  waitingQueue.foldl (fun s r => s.matchReq keyConvert thresholds (clock (s.matched.length + 1)) r)
    { matched := []
      treeCache
      waitingTree := RadixCache.reset 1 Nat.zero_lt_one .lru (clock 0 0)
      temporaryDeprioritized := [] }

end Matches

/-! ## `_sort_by_dfs_weight` -/

section Sorting

variable {Tok : Type}

def lastNodeToReqs (waitingQueue : List MatchedReq) : Nat → List MatchedReq :=
  waitingQueue.foldl
    (fun reqs req => Function.update reqs req.lastNode (reqs req.lastNode ++ [req])) fun _ => []

/-- `_calc_weight` at a node with the children given. -/
def calcWeight (cur : Nat) : Children Tok → (Nat → Nat) → Nat → Nat
  | .nil, weight => weight
  | .cons _ child below rest, weight =>
    let weight := calcWeight child.id below weight
    calcWeight cur rest (Function.update weight cur (weight cur + weight child.id))

/-- The children's requests, the children in a stable order by falling weight. -/
def heaviestFirst (weight : Nat → Nat) (runs : List (Nat × List MatchedReq)) : List MatchedReq :=
  (runs.mergeSort fun a b => decide (weight b.1 ≤ weight a.1)).flatMap (·.2)

/-- What `_get_dfs_priority` appends to the queue for each entry of a dictionary of children. The
calls only append, so they may be run before their order is known. -/
def dfsRuns (weight : Nat → Nat) (reqs : Nat → List MatchedReq) :
    Children Tok → List (Nat × List MatchedReq)
  | .nil => []
  | .cons _ child below rest =>
    (child.id, heaviestFirst weight (dfsRuns weight reqs below) ++ reqs child.id) ::
      dfsRuns weight reqs rest

/-- `_get_dfs_priority` at a node with the children given. -/
def getDfsPriority (weight : Nat → Nat) (reqs : Nat → List MatchedReq) (cur : Nat)
    (children : Children Tok) : List MatchedReq :=
  heaviestFirst weight (dfsRuns weight reqs children) ++ reqs cur

def sortByDfsWeight (waitingQueue : List MatchedReq) (treeCache : RadixCache Tok) : List MatchedReq :=
  let reqs := lastNodeToReqs waitingQueue
  let weight := calcWeight treeCache.rootNode.id treeCache.children fun node => (reqs node).length
  getDfsPriority weight reqs treeCache.rootNode.id treeCache.children

end Sorting

end QCFuse.Source
