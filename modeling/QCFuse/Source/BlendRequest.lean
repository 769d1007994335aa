import QCFuse.Source.CacheBlender

/-!
# Blend requests and what `prepare_for_extend` derives from them

A batch is represented by its first request: its style and parameters drive the whole batch.
What the model's layers compute for it (queries, K/V, scores, the rotated and blended tensors)
is data of the request. Layer ids are natural numbers; `attn_end` is `none` for -1.
-/

set_option autoImplicit false

namespace QCFuse.Source

inductive BlendStyle where
  | kvCompute | qCompute | doBlend | doBlendFinish
  deriving DecidableEq, Repr

/-- A path of the request, or `None`. -/
abbrev Dir := Option String

/-- What the forward pass computes, a layer at a time. -/
structure ForwardResults where
  q : Nat → Tensor
  queryK : Nat → Tensor
  kv : Nat → KvPair
  kvzipScores : Nat → List (Option (List Rat))
  rotateContext : Nat → Tensor → Tensor
  blend : Nat → KvPair → KvPair

structure BlendRequest where
  client : Nat
  blendStyle : BlendStyle
  isContextblend : Bool
  contextCacheSource : Option String
  contextNSink : Option Int
  digestRatio : Option Rat
  digestIndexMethod : Option String
  criticalLayers : List Nat
  attnStart : Nat
  attnEnd : Option Nat
  start : Nat
  ratio : Rat
  blendLocList : List Int
  ssdCachePathChunk : Dir
  ssdCachePathQuery : Dir
  forward : ForwardResults

/-- `context_cache_source` after the check against `("query", "none")`. -/
inductive ContextSource where
  | query | none
  deriving DecidableEq, Repr

namespace BlendRequest

def hasSsdPaths (req : BlendRequest) : Bool :=
  req.ssdCachePathChunk.isSome || req.ssdCachePathQuery.isSome

/-- `(source or "query") if is_contextblend else "none"`. -/
def contextSource (req : BlendRequest) : Py ContextSource :=
  if req.isContextblend then
    match req.contextCacheSource with
    | Option.none => .ok .query
    | some source =>
      if source = "" ∨ source = "query" then .ok .query
      else if source = "none" then .ok .none
      else .error (.valueError "Unsupported context_cache_source")
  else .ok .none

/-- `attn_end if attn_end != -1 else num_hidden_layers`. -/
def attnEndLayer (req : BlendRequest) (numLayers : Nat) : Nat := req.attnEnd.getD numLayers

/-- `max(critical_layers) + 1 if critical_layers else None`. -/
def qcomputeEnd (req : BlendRequest) : Option Nat := req.criticalLayers.max?.map (· + 1)

/-- `qcompute_end or attn_end`: the layers QCOMPUTE runs, and the digest layers it loads. -/
def endLayer (req : BlendRequest) (numLayers : Nat) : Nat :=
  req.qcomputeEnd.getD (req.attnEndLayer numLayers)

/-- The layers ATTN selection reads, as both uses below compute them. -/
def selectionLayers (req : BlendRequest) (numLayers : Nat) : List Nat :=
  if req.criticalLayers ≠ [] then req.criticalLayers
  else if req.attnStart = 0 ∧ req.attnEndLayer numLayers = numLayers then List.range numLayers
  else [req.attnStart]

/-- `_selection_chunk_layers()`. -/
def selectionChunkLayers (req : BlendRequest) (numLayers : Nat) : List Nat :=
  req.selectionLayers numLayers

/-- `keep_layers_set`. -/
def keepLayersSet (req : BlendRequest) (numLayers : Nat) : List Nat :=
  req.selectionLayers numLayers

/-- `should_collect_q(layer_id)` of a QCOMPUTE. -/
def shouldCollectQ (req : BlendRequest) (numLayers layerId : Nat) : Bool :=
  if req.criticalLayers ≠ [] then layerId ∈ req.criticalLayers
  else req.attnStart ≤ layerId ∧ layerId < req.attnEndLayer numLayers

/-- The layers `DO_BLEND` selects with: the critical ones or `attn_start:attn_end`. -/
def fusionLayers (req : BlendRequest) (numLayers : Nat) : List Nat :=
  if req.criticalLayers ≠ [] then req.criticalLayers
  else List.range' req.attnStart (req.attnEndLayer numLayers - req.attnStart)

/-- `is_query_offline`. -/
def isQueryOffline (req : BlendRequest) : Bool :=
  req.blendStyle = .kvCompute ∧ req.isContextblend ∧ req.ssdCachePathQuery.isSome

/-- The augmented layout of the prompt, for the requests that must have one. -/
def augmentedLocs (req : BlendRequest) : Option AugmentedLocs :=
  if req.isQueryOffline then prepareAugmentedLocsForRequest req.blendLocList else none

/-- `digest_keep_indices`. -/
def keepIndices (req : BlendRequest) : Option (List Int) :=
  req.augmentedLocs.map AugmentedLocs.keepIndices

/-- `torch.diff` and the padded cumulative sum. -/
def chunkLocList (locs : List Int) : List Int :=
  cumsumLens ((chunkAbsRanges locs).map fun r => r.2 - r.1)

/-- The parameters of the digest index. -/
def digestParams (req : BlendRequest) (numLayers : Nat) : DigestParams where
  attNumLayers := some numLayers
  qcomputeEnd := req.qcomputeEnd.map fun n : Nat => (n : Int)
  digestRatio := some (req.digestRatio.getD defaultDigestRatio)
  digestIndexMethod :=
    .str (if req.digestIndexMethod.getD "" = "" then Source.digestIndexMethod
      else req.digestIndexMethod.getD "")
  criticalLayers := req.criticalLayers.map fun id : Nat => (id : Int)
  digestOriginalChunkLocList := req.augmentedLocs.map AugmentedLocs.originalLocs
  chunkLocList := chunkLocList ((req.augmentedLocs.map AugmentedLocs.forwardLocs).getD
    req.blendLocList)
  contextNSink := some (req.contextNSink.getD 4)

end BlendRequest

end QCFuse.Source
