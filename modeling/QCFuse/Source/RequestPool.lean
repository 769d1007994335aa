import QCFuse.Source.PagedAllocator
import QCFuse.Source.RequestCache

/-!
# Requests and the K/V pool

`alloc_for_extend`, `alloc_for_decode`, and the steps of a request from its match to its end. A
request that waits for its slots has no row: the scheduler frees the row of a chunked request
between two rounds. An allocation that fails ends the scheduler, so that step is not possible.
-/

set_option autoImplicit false

namespace QCFuse.Source

open QCFuse.Library

/-- `free` of `TokenToKVPoolAllocator`, which serves pages of one token. -/
def PagedAllocator.freeTokens (a : PagedAllocator) (freeIndex : List Int) : PagedAllocator :=
  if freeIndex = [] then a
  else if a.isNotInFreeGroup then
    if a.needSort then { a with releasePages := a.releasePages ++ freeIndex }
    else { a with freePages := a.freePages ++ freeIndex }
  else { a with freeGroup := a.freeGroup ++ [freeIndex] }

/-- `token_to_kv_pool_allocator.free`. -/
def PagedAllocator.release (a : PagedAllocator) (freeIndex : List Int) : PagedAllocator :=
  if a.pageSize = 1 then a.freeTokens freeIndex else a.free freeIndex

/-- One call of `free` after the other. -/
def PagedAllocator.releaseAll (a : PagedAllocator) (freed : List (List Int)) : PagedAllocator :=
  freed.foldl PagedAllocator.release a

structure InFlight where
  rid : Nat
  req : CachedReq
  /-- Whether the slots up to `fill_ids` are allocated and in the row. -/
  allocated : Bool
  /-- Whether this is `chunked_req`: its prompt is cut short. -/
  chunked : Bool
  deriving DecidableEq

namespace InFlight

/-- The slots the request knows of: its row, and before it has one `prefix_indices`. -/
def slots (r : InFlight) : List Int := if r.allocated then r.req.row else r.req.prefixIndices

/-- `t[-1:] if len(t) > 0 else torch.tensor([-1])`. -/
def lastLoc (r : InFlight) : Int := r.slots.getLast?.getD (-1)

end InFlight

structure KvState where
  cache : RadixCache Nat
  pool : PagedAllocator
  reqs : List InFlight

namespace KvState

/-- `evict_from_tree_cache`. -/
def evictFromTreeCache (s : KvState) (numTokens : Nat) : KvState :=
  if s.pool.availableSize < numTokens then
    let (evicted, cache) := s.cache.evict numTokens
    { s with cache, pool := s.pool.releaseAll (evicted.map (·.value)) }
  else s

end KvState

/-- The requests with their part of `out_cache_loc` written. -/
def writeSlots (want : InFlight → Nat) (write : InFlight → List Int → InFlight) :
    List Int → List InFlight → List InFlight
  | _, [] => []
  | outCacheLoc, r :: rest =>
    (if want r = 0 then r else write r (outCacheLoc.take (want r))) ::
      writeSlots want write (outCacheLoc.drop (want r)) rest

namespace KvState

/-- `write_cache_indices` for one request. -/
def writeCacheIndices (r : InFlight) (outCacheLoc : List Int) : InFlight :=
  { r with allocated := true, req := { r.req with row := r.req.prefixIndices ++ outCacheLoc } }

/-- The slots a request asks `alloc_for_extend` for. -/
def extendLen (r : InFlight) : Nat :=
  if r.allocated then 0 else r.req.fillIds.length - r.req.prefixIndices.length

/-- `alloc_for_extend` on the requests that wait for their slots. -/
def allocForExtend (mem : KernelMemory) (s : KvState) : Option KvState :=
  let batch := s.reqs.filter (0 < extendLen ·)
  let extendNumTokens := (batch.map extendLen).sum
  let (s, outCacheLoc, pool) :=
    if s.cache.pageSize = 1 then
      let s := s.evictFromTreeCache extendNumTokens
      (s, s.pool.alloc extendNumTokens)
    else
      let s := s.evictFromTreeCache (extendNumTokens + batch.length * s.pool.pageSize)
      (s, s.pool.allocExtend mem (batch.map fun r => r.req.prefixIndices.length)
        (batch.map fun r => r.req.fillIds.length) (batch.map InFlight.lastLoc) extendNumTokens)
  outCacheLoc.map fun outCacheLoc =>
    { s with pool, reqs := writeSlots extendLen writeCacheIndices outCacheLoc s.reqs }

/-- The slot a running request asks `alloc_for_decode` for. -/
def decodeLen (rids : List Nat) (r : InFlight) : Nat :=
  if r.allocated = true ∧ r.chunked = false ∧ r.rid ∈ rids then 1 else 0

/-- `req_to_token_pool.write` of the new slot. -/
def writeDecode (r : InFlight) (outCacheLoc : List Int) : InFlight :=
  { r with req := { r.req with row := r.req.row ++ outCacheLoc } }

/-- `alloc_for_decode` on a running batch, a token for each request. -/
def allocForDecode (mem : KernelMemory) (s : KvState) (rids : List Nat) : Option KvState :=
  let batch := s.reqs.filter (0 < decodeLen rids ·)
  let bs := batch.length
  let (s, outCacheLoc, pool) :=
    if s.cache.pageSize = 1 then
      let s := s.evictFromTreeCache bs
      (s, s.pool.alloc bs)
    else
      let s := s.evictFromTreeCache (bs * s.pool.pageSize)
      (s, s.pool.allocDecode mem (batch.map fun r => r.req.row.length + 1) (batch.map InFlight.lastLoc))
  outCacheLoc.map fun outCacheLoc =>
    { s with pool, reqs := writeSlots (decodeLen rids) writeDecode outCacheLoc s.reqs }

def get? (s : KvState) (rid : Nat) : Option InFlight := s.reqs.find? fun r => r.rid = rid

def put (s : KvState) (r : InFlight) : KvState :=
  { s with reqs := s.reqs.map fun q => if q.rid = r.rid then r else q }

def remove (s : KvState) (rid : Nat) : KvState := { s with reqs := s.reqs.filter fun r => r.rid ≠ rid }

/-- `init_next_round_input(tree_cache)` and the admission: the prefix is matched and locked, and a
first chunk of `extendLen` tokens is to be computed. -/
def admitReq (s : KvState) (rid : Nat) (originInputIds outputIds : List Nat) (extraKey : Option String)
    (blendStyle : Option BlendStyle) (maxPrefixLen extendLen : Nat) (now : Int) : Option KvState :=
  let input := originInputIds ++ outputIds
  let (result, cache) := s.cache.matchPrefix now
    ⟨input.take (min maxPrefixLen (input.length - 1)), extraKey⟩
  let prefixLen := result.deviceIndices.length
  if (s.get? rid).isSome ∨ extendLen = 0 ∨ input.length < prefixLen + extendLen then none
  else some { s with
    cache := cache.incLockRef result.lastDeviceNode
    reqs := {
      rid
      req := {
        originInputIds
        outputIds
        fillIds := input.take (prefixLen + extendLen)
        extraKey
        blendStyle
        prefixIndices := result.deviceIndices
        lastNode := result.lastDeviceNode
        lastMatchedPrefixLen := prefixLen
        row := [] }
      allocated := false
      chunked := decide (prefixLen + extendLen < input.length) } :: s.reqs }

/-- A result appended to `output_ids`. -/
def output (s : KvState) (rid token : Nat) : Option KvState :=
  match s.get? rid with
  | none => none
  | some r =>
    if r.allocated = false ∨ r.chunked = true then none
    else some (s.put { r with req := { r.req with outputIds := r.req.outputIds ++ [token] } })

/-- `cache_unfinished_req` after the last round of a prefill. -/
def unfinished (s : KvState) (rid : Nat) (now later : Int) : Option KvState :=
  match s.get? rid with
  | none => none
  | some r =>
    if r.allocated = false ∨ r.chunked = true then none
    else
      let (req, freed, cache) := s.cache.cacheUnfinishedReq now later r.req
      some ({ s with cache, pool := s.pool.releaseAll freed }.put { r with req })

/-- A chunked request between two rounds: `cache_unfinished_req`, its row is freed, and the next
`extendLen` tokens are to be computed. -/
def nextChunk (s : KvState) (rid extendLen : Nat) (now later : Int) : Option KvState :=
  match s.get? rid with
  | none => none
  | some r =>
    let input := r.req.originInputIds ++ r.req.outputIds
    let (req, freed, cache) := s.cache.cacheUnfinishedReq now later r.req
    let prefixLen := req.prefixIndices.length
    if r.allocated = false ∨ r.chunked = false ∨ extendLen = 0 ∨ input.length < prefixLen + extendLen then
      none
    else some ({ s with cache, pool := s.pool.releaseAll freed }.put { r with
      req := { req with fillIds := input.take (prefixLen + extendLen), row := [] }
      allocated := false
      chunked := decide (prefixLen + extendLen < input.length) })

/-- `cache_finished_req` of a request with all tokens but the last output computed. -/
def finish (s : KvState) (rid : Nat) (now : Int) (isInsert : Bool) : Option KvState :=
  match s.get? rid with
  | none => none
  | some r =>
    if r.allocated = false ∨ r.chunked = true ∨
        r.req.row.length ≠ r.req.originInputIds.length + (r.req.outputIds.length - 1) then none
    else
      let (freed, cache) := s.cache.cacheFinishedReq now r.req isInsert
      some ({ s with cache, pool := s.pool.releaseAll freed }.remove rid)

/-- `evict`. -/
def evict (s : KvState) (numTokens : Int) : KvState :=
  let (evicted, cache) := s.cache.evict numTokens
  { s with cache, pool := s.pool.releaseAll (evicted.map (·.value)) }

end KvState

end QCFuse.Source
