import QCFuse.Source.PrefillBatch
import QCFuse.Source.RequestPool

/-!
# A prefill round over the tree and the pool

The calls of a `PrefillAdder` on the tree its requests are locked in, and `alloc_for_extend` on the
list they leave. The budgets read the tree and the pool as they are at each call. There is no host
tier, and enough request slots.
-/

set_option autoImplicit false

namespace QCFuse.Source

/-- The scheduler in a prefill round. -/
structure AdmissionRound where
  cache : RadixCache Nat
  /-- `disable_radix_cache`: nothing is ever put into the tree. -/
  disable : Bool
  pool : PagedAllocator
  adder : PrefillAdder

namespace AdmissionRound

/-- `available_size() + evictable_size()`. -/
def availableAndEvictable (s : AdmissionRound) : Int := s.pool.availableSize + s.cache.evictableSize

/-- The adder with its budgets as they read now. -/
def current (s : AdmissionRound) : PrefillAdder :=
  { s.adder with availableAndEvictable := s.availableAndEvictable }

/-- The tree, for a request with that `last_node`. -/
def tree (s : AdmissionRound) (lastNode : Nat) : TreeCache where
  disable := s.disable
  matchPrefix tokenIds extraKey :=
    (s.cache.matchPrefix 0 ⟨tokenIds, extraKey⟩).1.deviceIndices.map Int.toNat
  lockSize _ := (s.cache.pathSize lastNode 0).toNat

/-- `match_prefix`, which may split nodes. -/
def matchPrefix (s : AdmissionRound) (now : Int) (key : RadixKey Nat) : AdmissionRound :=
  { s with cache := (s.cache.matchPrefix now key).2 }

/-- `add_chunked_req`. -/
def addChunkedReq (s : AdmissionRound) (req : Req) : Option AdmissionRound :=
  match s.current.addChunkedReq req with
  | .error _ => none
  | .ok (adder, _) => some { s with adder }

/-- `add_one_req`; the lock is given back unless the request is put on the list. -/
def addOneReq (s : AdmissionRound) (req : Req) (lastNode : Nat) : AdmissionRound :=
  let (adder, _) := s.current.addOneReq (s.tree lastNode) req
  { s with
    adder
    cache := if s.adder.canRunList.length < adder.canRunList.length then s.cache.incLockRef lastNode
      else s.cache }

/-- `t[-1:] if len(t) > 0 else torch.tensor([-1])`. -/
def lastLoc (req : Req) : Int := (req.prefixIndices.getLast?.map fun slot : Nat => (slot : Int)).getD (-1)

/-- The K/V part of `alloc_for_extend` on `can_run_list`: `out_cache_loc`, with the tree and the
pool, or nothing where it raises for want of memory. -/
def allocForExtend (mem : KernelMemory) (s : AdmissionRound) :
    Option (List Int × RadixCache Nat × PagedAllocator) :=
  let reqs := s.adder.canRunList
  let extendNumTokens := (extendNumTokens reqs).toNat
  let kv : KvState := ⟨s.cache, s.pool, []⟩
  if s.cache.pageSize = 1 then
    let kv := kv.evictFromTreeCache extendNumTokens
    let (outCacheLoc, pool) := kv.pool.alloc extendNumTokens
    outCacheLoc.map (·, kv.cache, pool)
  else
    let kv := kv.evictFromTreeCache (extendNumTokens + reqs.length * s.pool.pageSize)
    let (outCacheLoc, pool) := kv.pool.allocExtend mem (reqs.map fun r => r.prefixIndices.length)
      (reqs.map fun r => r.fillIds.length) (reqs.map lastLoc) extendNumTokens
    outCacheLoc.map (·, kv.cache, pool)

end AdmissionRound

end QCFuse.Source
