import QCFuse.Source.QueryCache

/-!
# `SSDPipelineEngine._has_cache` and the load it stands for

Whether the offline stage of a sample is skipped, and what a later QCOMPUTE on the same directories
reads: the query metadata, the context positions, the requested layers, and the chunk metadata of the
DO_BLEND round behind it. A file that exists holds a JSON value.
-/

set_option autoImplicit false

namespace QCFuse.Source

/-- `x == n` for a number `n`. -/
def Json.equalsInt (n : Int) : Json → Bool
  | .int i => i = n
  | .bool b => (if b then 1 else 0) = n
  | .float q => q = n
  | _ => false

/-- `x is True`. -/
def Json.isTrue : Json → Bool
  | .bool b => b
  | _ => false

/-- `x == s` for a string `s`. -/
def Json.equalsStr (s : String) : Json → Bool
  | .str t => t = s
  | _ => false

/-- What `_has_cache` and the request arguments read of an engine. Layer ids are 0-based. -/
structure PipelineEngine where
  digestIndexMethod : String
  digestRatio : Rat
  contextNSink : Int
  criticalLayers : List Nat

/-- The metadata file and the bin file exist, and the metadata names the format. -/
def hasFormat (format : String) (files : CacheFiles) : Py Bool :=
  match files.binFile, files.metaFile with
  | some _, some info => do return (← info.get "format").equalsStr format
  | _, _ => .ok false

/-- `_has_packed_cache(sample_dir)`. -/
def hasPackedCache (files : CacheFiles) : Py Bool := hasFormat packedFormat files

/-- `_has_query_cache(sample_dir)`. -/
def hasQueryCache (files : CacheFiles) : Py Bool := hasFormat queryCacheFormat files

/-- `max(critical_layers) + 1`. -/
def qcomputeEnd (criticalLayers : List Nat) : Nat := criticalLayers.foldl max 0 + 1

/-- `abs(float(digest_ratio) - self.digest_ratio) < 1e-9`, and `False` where `float` raises. -/
def digestRatioMatches (stored : Json) (digestRatio : Rat) : Bool :=
  match stored.toFloat? with
  | some q => |q - digestRatio| < 1 / 10 ^ 9
  | none => false

/-- `int(context_n_sink) == self.context_n_sink`, and `False` where `int` raises. -/
def contextNSinkMatches (stored : Json) (contextNSink : Int) : Bool :=
  match stored.toInt with
  | .ok n => n = contextNSink
  | .error _ => false

/-- The checks of `_has_cache` on the query metadata. -/
def queryMetaMatches (engine : PipelineEngine) (criticalLayers : List Nat) (queryMeta : Json) : Py Bool := do
  let info ← queryMeta.getD "metadata" (.obj [])
  let method ← normalizeMethod (.str engine.digestIndexMethod)
  let digestRatio ← info.get "digest_ratio"
  let storedLayers ← (← info.getD "critical_layers" (.arr [])).intList
  let storedEnd ← info.get "qcompute_end"
  let indexPayload ← (← queryMeta.getD "indices_by_method" (.obj [])).getD method (.obj [])
  let contextNSink ← indexPayload.getD "context_n_sink" (.int (-1))
  let version ← info.get "digest_index_version"
  let materialized ← info.get "materialized_digest"
  if version.equalsInt digestIndexVersion && materialized.isTrue &&
      digestRatioMatches digestRatio engine.digestRatio &&
      decide (storedLayers = criticalLayers.map Int.ofNat) &&
      storedEnd.equalsInt (qcomputeEnd criticalLayers) then
    let numLayers ← (← queryMeta.getD "digest" (.obj [])).get "num_layers"
    if numLayers.equalsInt (qcomputeEnd criticalLayers) &&
        contextNSinkMatches contextNSink engine.contextNSink then
      let layerIds ← (← (← queryMeta.getD "critical" (.obj [])).getD "layer_ids" (.arr [])).intList
      return criticalLayers.all fun layer => decide ((layer : Int) ∈ layerIds)
    else return false
  else return false

/-- `_has_cache(sample_dir_chunk, sample_dir_query, require_query, query_critical_layers)`. -/
def hasCache (engine : PipelineEngine) (chunk query : CacheFiles) (requireQuery : Bool)
    (queryCriticalLayers : Option (List Nat)) : Py Bool := do
  if !(← hasPackedCache chunk) then return false
  else if !requireQuery then return true
  else
    let criticalLayers := queryCriticalLayers.getD engine.criticalLayers
    if criticalLayers = [] then return true
    else if !(← hasQueryCache query) then return false
    else
      match query.metaFile with
      | some queryMeta => queryMetaMatches engine criticalLayers queryMeta
      | none => .error (.fileNotFound "No such file or directory")

/-! ## The online load -/

/-- The checks of `start_query_cache` before its loaders start. -/
def startQueryCacheCheck (numDigestLayers : Nat) (criticalLayers : List Nat) (queryMeta : Json) : Py Unit := do
  let digest ← queryMeta.getD "digest" (.obj [])
  let critical ← queryMeta.getD "critical" (.obj [])
  let available ← (← digest.getD "num_layers" (.int 0)).toInt
  if available < numDigestLayers then
    .error (.valueError "Query cache has fewer digest layers than requested")
  else
    let availableCritical ← (← critical.getD "layer_ids" (.arr [])).intList
    if criticalLayers.all fun layer => decide ((layer : Int) ∈ availableCritical) then return ()
    else .error (.valueError "Query cache missing critical layers")

/-- What a QCOMPUTE with the engine's arguments and the DO_BLEND round behind it check of the two
directories, and the context pool they leave; `configure` has forgotten the metadata of earlier loads. -/
def onlineLoad (engine : PipelineEngine) (numLayers : Nat) (queryDir : String) (chunk query : CacheFiles)
    (pool : ContextPool) : Py ContextPool := do
  let (queryMeta, _) ← loadQueryMeta none queryDir query
  let pool ← restoreQueryMetadata numLayers queryMeta (.str engine.digestIndexMethod)
    (some engine.digestRatio) (pool.initBuffers numLayers)
  startQueryCacheCheck (qcomputeEnd engine.criticalLayers) engine.criticalLayers queryMeta
  let _ ← loadPackedMeta chunk (some numLayers)
  return pool

end QCFuse.Source
