import QCFuse.Source.BatchBlendInfo

/-!
# Prefill batches

How requests get into a prefill batch, and what `prepare_for_extend` derives from the blend
attributes of the batch. LoRA, priority preemption, hierarchical and hybrid caches are off. The
tree is known by its answers: the slots of a matched prefix and the tokens a lock takes out of
the evictable ones. Digest metadata and the SSD threads that follow are left out.
-/

set_option autoImplicit false

namespace QCFuse.Source

/-- The attributes of a blend request. Its location list starts with 0; a prompt shorter than the
separator has none. -/
structure BlendPart where
  blendStyle : BlendStyle
  blendLocList : Option (List Int)
  located : ∀ locs, blendLocList = some locs → locs.head? = some 0
  method : Option String
  ratio : Option Rat
  start : Option Int
  attnStart : Int
  attnEnd : Int
  isContextblend : Bool
  contextCacheSource : Option String
  contextNSink : Option Int
  digestRatio : Option Rat
  digestIndexMethod : Option String
  criticalLayers : Option (List Int)
  ssdCachePathChunk : Option String
  ssdCachePathQuery : Option String
  deriving DecidableEq

/-- A request of the scheduler; a plain one has no blend attributes. -/
structure Req where
  originInputIds : List Nat
  outputIds : List Nat
  fillIds : List Nat
  prefixIndices : List Nat
  extendInputLen : Int
  maxNewTokens : Nat
  ignoreEos : Bool
  extraKey : Option String
  /-- `logprob_start_len`, where logprobs are returned. -/
  logprobStartLen : Option Nat
  blend : Option BlendPart
  deriving DecidableEq

/-! ## `PrefillAdder` -/

structure TreeCache where
  disable : Bool
  matchPrefix : List Nat → Option String → List Nat
  lockSize : Req → Nat

/-- `init_next_round_input(tree_cache)`; without a tree the prefix stays. -/
def initNextRoundInput (tree : Option TreeCache) (req : Req) : Req :=
  let fillIds := req.originInputIds ++ req.outputIds
  let maxPrefixLen := match req.logprobStartLen with
    | none => fillIds.length - 1
    | some logprobStartLen => min (fillIds.length - 1) logprobStartLen
  let prefixIndices := match tree with
    | none => req.prefixIndices
    | some tree => tree.matchPrefix (fillIds.take maxPrefixLen) req.extraKey
  { req with fillIds, prefixIndices, extendInputLen := (fillIds.length : Int) - prefixIndices.length }

inductive AddReqResult where
  | continue | noToken | other
  deriving DecidableEq, Repr

structure PrefillAdder where
  pageSize : Nat
  clipMaxNewTokens : Nat
  truncationAlignSize : Option Int
  newTokenRatio : Rat
  running : List Req
  availableAndEvictable : Int
  remInputTokens : Int
  remChunkTokens : Option Int
  remTotalTokenOffset : Rat
  curRemTokenOffset : Int
  reqStates : Option (List (Rat × Nat))
  canRunList : List Req
  newChunkedReq : Option Req

namespace PrefillAdder

def remTotalTokens (adder : PrefillAdder) : Rat :=
  adder.availableAndEvictable - adder.remTotalTokenOffset

def curRemTokens (adder : PrefillAdder) : Int :=
  adder.availableAndEvictable - adder.curRemTokenOffset

/-- `ceil_paged_tokens(tokens)`. -/
def ceilPagedTokens (adder : PrefillAdder) (tokens : Int) : Int :=
  -((-tokens) / adder.pageSize) * adder.pageSize

def budgetState (adder : PrefillAdder) : AddReqResult :=
  if adder.remTotalTokens ≤ 0 ∨ adder.curRemTokens ≤ 0 then .noToken
  else if adder.remInputTokens ≤ 0 ∨ (adder.remChunkTokens.any (· ≤ 0)) then .other
  else .continue

/-- `_update_prefill_budget(...)`. -/
def updatePrefillBudget (adder : PrefillAdder) (extendInputLen maxNewTokens : Int) : PrefillAdder :=
  let extendInputLen := adder.ceilPagedTokens extendInputLen
  { adder with
    remTotalTokenOffset := adder.remTotalTokenOffset + (extendInputLen + maxNewTokens : Int)
    curRemTokenOffset := adder.curRemTokenOffset + extendInputLen
    remInputTokens := adder.remInputTokens - extendInputLen
    remChunkTokens := adder.remChunkTokens.map (· - extendInputLen) }

/-- `can_run_list.append(req)`. -/
def append (adder : PrefillAdder) (req : Req) : PrefillAdder :=
  { adder with canRunList := adder.canRunList ++ [req] }

/-- `add_chunked_req(req)`; the request comes back where it is still cut short. -/
def addChunkedReq (adder : PrefillAdder) (req : Req) : Py (PrefillAdder × Option Req) :=
  match adder.remChunkTokens with
  | none => .error (.typeError "'<' not supported between instances of 'int' and 'NoneType'")
  | some remChunkTokens =>
    let total := adder.remTotalTokens
    let remTokens := min remChunkTokens (if 0 ≤ total then total.floor else total.ceil)
    let truncated := decide (remTokens < req.extendInputLen)
    let extendInputLen := min req.extendInputLen remTokens
    let req := { req with
      extendInputLen
      fillIds := pyTake req.fillIds (req.prefixIndices.length + extendInputLen) }
    let maxNewTokens : Int := if truncated then 0 else min req.maxNewTokens adder.clipMaxNewTokens
    .ok ((adder.append req).updatePrefillBudget extendInputLen maxNewTokens,
      if truncated then some req else none)

/-- `add_req_state(r, insert_sort)`: where no entry is as large, it goes before the last. -/
def addReqState (adder : PrefillAdder) (states : List (Rat × Nat)) (r : Req) (insertSort : Bool) :
    List (Rat × Nat) :=
  let ratio := if r.ignoreEos then 1 else adder.newTokenRatio
  let tokensLeft : Rat := r.maxNewTokens * ratio - r.outputIds.length
  let entry := (tokensLeft, r.originInputIds.length + r.outputIds.length)
  if tokensLeft ≤ 0 then states
  else if insertSort then
    let i := match states.findIdx? (fun state => tokensLeft ≤ state.1) with
      | some i => i
      | none => states.length - 1
    states.insertIdx i entry
  else states ++ [entry]

/-- `self.req_states` once the request is among them. -/
def statesWith (adder : PrefillAdder) (req : Req) : List (Rat × Nat) :=
  match adder.reqStates with
  | none => ((req :: adder.running ++ adder.canRunList).foldl
      (fun states r => adder.addReqState states r false) []).mergeSort (fun a b => a.1 ≤ b.1)
  | some states => adder.addReqState states req true

/-- Whether the tokens last until the requests, shortest first, are done. -/
def tokensSuffice (curRemTokens : Int) : Nat → List (Rat × Nat) → Bool
  | _, [] => true
  | tokensFreed, (tokensLeft, tokensOccupied) :: states =>
    let bs : Rat := (states.length + 1 : Nat)
    if (curRemTokens + tokensFreed : Rat) - tokensLeft * bs ≤ 1 * bs then false
    else tokensSuffice curRemTokens (tokensFreed + tokensOccupied) states

/-- `add_one_req_ignore_eos(req, has_chunked_req)`. -/
def addOneReqIgnoreEos (adder : PrefillAdder) (req : Req) : PrefillAdder × AddReqResult :=
  if min (adder.curRemTokens : Rat) adder.remTotalTokens < adder.ceilPagedTokens req.extendInputLen then
    (adder, .noToken)
  else
    let states := adder.statesWith req
    let adder := { adder with reqStates := some states }
    if ¬ tokensSuffice (adder.curRemTokens - adder.ceilPagedTokens req.extendInputLen) 0 states then
      (adder, .noToken)
    else
      let add := fun (req : Req) (maxNewTokens : Int) =>
        (adder.append req).updatePrefillBudget req.extendInputLen maxNewTokens
      match adder.remChunkTokens with
      | none =>
        let adder := add req (min req.maxNewTokens adder.clipMaxNewTokens)
        (adder, adder.budgetState)
      | some truncLen =>
        if req.extendInputLen ≤ truncLen then
          let adder := add req (min req.maxNewTokens adder.clipMaxNewTokens)
          (adder, adder.budgetState)
        else if truncLen = 0 then (adder, .other)
        else
          let req := { req with extendInputLen := truncLen, fillIds := pyTake req.fillIds truncLen }
          let adder := { add req 0 with newChunkedReq := some req }
          (adder, adder.budgetState)

/-- How long a chunk of `add_one_req` is, if there is room for one. -/
def truncLen (adder : PrefillAdder) (remChunkTokens : Int) : Option Int :=
  let truncLen := remChunkTokens / adder.pageSize * adder.pageSize
  if truncLen ≤ 0 then none
  else match adder.truncationAlignSize with
    | none => some truncLen
    | some align => if truncLen < align then none else some (align * (truncLen / align))

/-- `add_one_req(req, has_chunked_req, truncation_align_size)`. -/
def addOneReq (tree : TreeCache) (adder : PrefillAdder) (req : Req) : PrefillAdder × AddReqResult :=
  if req.ignoreEos && tree.disable then adder.addOneReqIgnoreEos req
  else
    let newTokens : Nat := min (req.maxNewTokens - req.outputIds.length) adder.clipMaxNewTokens
    let totalTokens : Rat := req.extendInputLen + newTokens
    let inputTokens := adder.ceilPagedTokens req.extendInputLen
    let locked := { adder with availableAndEvictable := adder.availableAndEvictable - tree.lockSize req }
    if adder.remTotalTokens ≤ totalTokens then (adder, .noToken)
    else if adder.remInputTokens ≤ inputTokens ∧ adder.canRunList ≠ [] then (adder, .other)
    else if locked.remTotalTokens ≤ totalTokens then (adder, .noToken)
    else
      let whole := (locked.append req).updatePrefillBudget inputTokens
        (min req.maxNewTokens adder.clipMaxNewTokens)
      match adder.remChunkTokens with
      | none => (whole, whole.budgetState)
      | some remChunkTokens =>
        if inputTokens ≤ remChunkTokens then (whole, whole.budgetState)
        else match adder.truncLen remChunkTokens with
          | none => (adder, .other)
          | some truncLen =>
            let req := { req with
              extendInputLen := truncLen
              fillIds := pyTake req.fillIds (req.prefixIndices.length + truncLen) }
            let chunk := { (locked.append req).updatePrefillBudget truncLen 0 with
              newChunkedReq := some req }
            (chunk, chunk.budgetState)

end PrefillAdder

/-! ## `get_new_batch_prefill` -/

structure PrefillState where
  tree : TreeCache
  pageSize : Nat
  clipMaxNewTokens : Nat
  maxPrefillTokens : Int
  chunkedPrefillSize : Option Int
  truncationAlignSize : Option Int
  isMixedChunk : Bool
  newTokenRatio : Rat
  availableAndEvictable : Int
  numAllocatableReqs : Int
  batchIsFull : Bool
  running : List Req
  chunkedReq : Option Req
  /-- In the order of the scheduling policy. -/
  waitingQueue : List Req

/-- `PrefillAdder(...)`. -/
def PrefillState.adder (s : PrefillState) : PrefillAdder :=
  let mixedWithDecodeTokens : Int := if s.isMixedChunk then s.running.length else 0
  { pageSize := s.pageSize
    clipMaxNewTokens := s.clipMaxNewTokens
    truncationAlignSize := s.truncationAlignSize
    newTokenRatio := s.newTokenRatio
    running := s.running
    availableAndEvictable := s.availableAndEvictable
    remInputTokens := s.maxPrefillTokens - mixedWithDecodeTokens
    remChunkTokens := s.chunkedPrefillSize.map (· - mixedWithDecodeTokens)
    remTotalTokenOffset := mixedWithDecodeTokens + (s.running.map fun r =>
      (min ((r.maxNewTokens : Int) - r.outputIds.length) s.clipMaxNewTokens : Rat) * s.newTokenRatio).sum
    curRemTokenOffset := mixedWithDecodeTokens
    reqStates := none
    canRunList := []
    newChunkedReq := none }

/-- The loop over the waiting queue. -/
def admitQueue (s : PrefillState) : List Req → Bool → PrefillAdder → PrefillAdder
  | [], _, adder => adder
  | req :: queue, batchIsFull, adder =>
    if batchIsFull || s.numAllocatableReqs ≤ adder.canRunList.length then adder
    else match PrefillAdder.addOneReq s.tree adder (initNextRoundInput (some s.tree) req) with
      | (adder, .continue) => admitQueue s queue batchIsFull adder
      | (adder, _) => adder

/-- `get_new_batch_prefill()`: the requests handed to `prepare_for_extend`, if there are any. -/
def newPrefillBatch (s : PrefillState) : Py (Option (List Req)) :=
  match s.chunkedReq with
  | none =>
    if s.batchIsFull || s.waitingQueue.isEmpty || s.numAllocatableReqs ≤ 0 then .ok none
    else
      let adder := admitQueue s s.waitingQueue s.batchIsFull s.adder
      .ok (if adder.canRunList.isEmpty then none else some adder.canRunList)
  | some chunkedReq => do
    let (adder, _) ← s.adder.addChunkedReq (initNextRoundInput none chunkedReq)
    return some (admitQueue s s.waitingQueue s.batchIsFull adder).canRunList

/-! ## The blend part of `prepare_for_extend` -/

/-- What `DO_BLEND` selects with. -/
structure SelectSettings where
  ratio : Option Rat
  start : Option Int
  keepLayersSet : List Int
  deriving DecidableEq

/-- The style and parameters a batch is run with. -/
structure BlendSettings where
  blendStyle : BlendStyle
  attnStart : Int
  attnEnd : Int
  isContextblend : Bool
  contextCacheSource : String
  contextNSink : Int
  digestRatio : Rat
  digestIndexMethod : String
  criticalLayers : List Int
  qcomputeEnd : Option Int
  select : Option SelectSettings
  /-- The directories the SSD manager is configured with. -/
  sampleDirs : Option (Option String × Option String)
  deriving DecidableEq

namespace BlendPart

/-- `is_query_offline`. -/
def isQueryOffline (blend : BlendPart) : Bool :=
  blend.blendStyle = .kvCompute && blend.isContextblend && blend.ssdCachePathQuery.isSome

/-- `context_cache_source`, checked. -/
def contextSource (blend : BlendPart) : Py String :=
  let source := if blend.isContextblend then
    match blend.contextCacheSource with
    | none => "query"
    | some source => if source = "" then "query" else source
  else "none"
  if source = "query" ∨ source = "none" then .ok source
  else .error (.valueError ("Unsupported context_cache_source='" ++ source ++ "'"))

/-- `select_mode`, `ratio`, `start` and `keep_layers_set` of a DO_BLEND batch. -/
def selectSettings (numLayers : Int) (blend : BlendPart) : Py (Option SelectSettings) :=
  if blend.blendStyle = .doBlend ∨ blend.blendStyle = .doBlendFinish then
    match blend.method with
    | none => .error (.valueError "None is not a valid SelectMode")
    | some method =>
      if method = "attn" then
        let criticalLayers := blend.criticalLayers.getD []
        let attnEnd := if blend.attnEnd = -1 then numLayers else blend.attnEnd
        .ok (some {
          ratio := blend.ratio
          start := blend.start
          keepLayersSet :=
            if criticalLayers ≠ [] then criticalLayers
            else if blend.attnStart = 0 ∧ attnEnd = numLayers then pyRange 0 numLayers
            else [blend.attnStart] })
      else .error (.valueError ("'" ++ method ++ "' is not a valid SelectMode"))
  else .ok none

/-- The settings `prepare_for_extend` reads off a request. -/
def settings (numLayers : Int) (blend : BlendPart) : Py BlendSettings := do
  let contextCacheSource ← blend.contextSource
  let select ← blend.selectSettings numLayers
  let criticalLayers := blend.criticalLayers.getD []
  return {
    blendStyle := blend.blendStyle
    attnStart := blend.attnStart
    attnEnd := if blend.attnEnd = -1 then numLayers else blend.attnEnd
    isContextblend := blend.isContextblend
    contextCacheSource
    contextNSink := blend.contextNSink.getD 4
    digestRatio := blend.digestRatio.getD defaultDigestRatio
    digestIndexMethod :=
      if blend.digestIndexMethod.getD "" = "" then "kvzip" else blend.digestIndexMethod.getD ""
    criticalLayers
    qcomputeEnd := criticalLayers.max?.map (· + 1)
    select
    sampleDirs :=
      if blend.ssdCachePathChunk.isSome || blend.ssdCachePathQuery.isSome then
        some (blend.ssdCachePathChunk, blend.ssdCachePathQuery)
      else none }

end BlendPart

/-- `r.fill_ids[len(r.prefix_indices) :]`, the tokens a request has in the batch. -/
def Req.inputIds (req : Req) : List Nat := req.fillIds.drop req.prefixIndices.length

/-- `extend_num_tokens`. -/
def extendNumTokens (reqs : List Req) : Int := (reqs.map fun r => (r.inputIds.length : Int)).sum

/-- `list(r.blend_loc_list)`. -/
def Req.rawBlendLocs (req : Req) : Py (List Int) :=
  match req.blend.bind BlendPart.blendLocList with
  | some locs => .ok locs
  | none => .error (.typeError "'NoneType' object is not iterable")

/-- The forward locations of an augmented prompt. -/
def forwardLocs (rawLocs : List Int) : Py (List Int) :=
  match prepareAugmentedLocsForRequest rawLocs with
  | some locs => .ok locs.forwardLocs
  | none => .error (.valueError ("ContextBlend query KVCOMPUTE expects augmented chunks " ++
      "with layout sys, doc, zipprompt, ..., query."))

/-- `q_lens` and `q_offsets` of the request whose chunks start at `chunk`. -/
def questWindow (chunkLocList : List Int) (chunk : Int) : Py (Int × Int) := do
  let reqStart ← pyIndex chunkLocList chunk
  let start ← pyIndex chunkLocList (chunk + 1)
  let stop ← pyIndex chunkLocList (chunk + 2)
  return (stop - start, start - reqStart)

/-- `forward_blend_locs`. -/
def BlendPart.forwardBlendLocs (blend : BlendPart) (rawBlendLocs : List (List Int)) :
    Py (List (List Int)) :=
  if blend.isQueryOffline then rawBlendLocs.mapM forwardLocs else .ok rawBlendLocs

/-- The question windows of a QCOMPUTE batch. -/
def BlendPart.questWindows (blend : BlendPart) (info : BatchBlendInfo) : Py (List (Int × Int)) :=
  if blend.blendStyle = .qCompute then
    (0 :: info.reqLenList.dropLast).mapM (questWindow info.chunkLocList)
  else .ok []

/-- What a batch is run with. -/
structure PreparedBlend where
  settings : BlendSettings
  forwardBlendLocs : List (List Int)
  info : BatchBlendInfo
  questWindows : List (Int × Int)

/-- The blend part of `prepare_for_extend()`, which looks at the first request for the style and
every parameter. -/
def prepareBlend (numLayers : Int) (reqs : List Req) : Py (Option PreparedBlend) :=
  match reqs with
  | [] => .error .indexError
  | first :: _ =>
    match first.blend with
    | none => .ok none
    | some blend => do
      let rawBlendLocs ← reqs.mapM Req.rawBlendLocs
      let forwardBlendLocs ← blend.forwardBlendLocs rawBlendLocs
      let info := prepareBlendLocs forwardBlendLocs
      let settings ← blend.settings numLayers
      let questWindows ← blend.questWindows info
      return some { settings, forwardBlendLocs, info, questWindows }

end QCFuse.Source
