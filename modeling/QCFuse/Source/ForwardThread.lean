import QCFuse.Library.Transition
import QCFuse.Source.LoaderThread

/-!
# The forward thread and the whole process

A request is `prepare_for_extend`, the forward pass through `CacheBlender.blend`, and the
cleanup after the forward, each a list of statements between which loader threads may run.
Only the forward thread writes the mode flags, so `is_online()` and `is_offline()` are read
when the request begins. An exception in the forward thread ends the scheduler process.
-/

set_option autoImplicit false

namespace QCFuse.Source

open QCFuse.Library

/-- `wait_layer_ready(layer_id)` or `wait_task_b()`. -/
inductive Wait where
  | layer (layerId : Nat)
  | taskB
  deriving DecidableEq, Repr

/-- Statements of the forward thread. A wait is the wait for its event, then the check for a
loader error, after which it returns. -/
inductive MainOp where
  | run (stmt : Stmt)
  | start (loader : Loader)
  | raiseError
  | restoreQueryMetadata
  | wait (w : Wait)
  | raiseLoaderError (w : Wait)
  | loadedContext (layerId : Nat)
  | pooledContext (layerId : Nat)
  | select
  | blendLayer (layerId : Nat) (direct : Bool)
  | finishKvCompute (offline : Bool)

/-! ## `KVSSDManager` methods of the forward thread -/

/-- `configure(online, offline, sample_dir_chunk, sample_dir_query)`. -/
def configure (online offline : Bool) (chunk query : Dir) : List MainOp :=
  [.run (.setMode online offline), .run (.setSampleDirs chunk query), .run .newLayerEvents,
    .run .clearTaskB, .run .clearLoaderError] ++
    if offline then [.run .clearDigestIndex] else []

/-- `reset_layer_events()`, and the loop over the events in two other methods. -/
def resetLayerEvents (numLayers : Nat) : List MainOp :=
  (List.range numLayers).map fun layerId => .run (.clearLayerEvent layerId)

/-- `reset()`. -/
def reset (numLayers : Nat) : List MainOp :=
  [.run (.setMode false false), .run .clearTaskB, .run .clearLoaderError] ++
    resetLayerEvents numLayers

/-- `cleanup_runtime_state()`. -/
def cleanupRuntimeState (numLayers : Nat) : List MainOp :=
  [.run .clearHackPool, .run .clearContextPool, .run .clearDigestIndex] ++ reset numLayers

/-- `clear_do_blend_layers(num_layers, keep_layers_set)`. -/
def clearDoBlendLayers (numLayers : Nat) (keep : List Nat) : List MainOp :=
  ((List.range numLayers).flatMap fun layerId =>
    if layerId ∈ keep then [] else [.run (.clearLayerK layerId), .run (.clearLayerV layerId)]) ++
    resetLayerEvents numLayers

/-- The wait and the check of `wait_layer_ready` and `wait_task_b`. -/
def waitFor (w : Wait) : List MainOp := [.wait w, .raiseLoaderError w]

/-! ## `prepare_for_extend` -/

/-- The QCOMPUTE part: pools, configuration, and the loaders of the context source. -/
def prepareQCompute (numLayers : Nat) (req : BlendRequest) (source : ContextSource) :
    List MainOp :=
  [.run .initHackBuffers, .run .initContextBuffers] ++
    configure true false req.ssdCachePathChunk req.ssdCachePathQuery ++
    if req.isContextblend ∧ source = .query then
      if req.criticalLayers = [] then [.raiseError]
      else [.restoreQueryMetadata, .start (.queryCache req.client (req.endLayer numLayers)
        req.criticalLayers req.ssdCachePathQuery)]
    else [.start (.taskB req.client (req.selectionChunkLayers numLayers))]

/-- The DO_BLEND part: a full initialization when not online, then the layer prefetch. -/
def prepareDoBlend (numLayers : Nat) (online : Bool) (req : BlendRequest) : List MainOp :=
  (if online then [] else .run .initHackBuffers ::
    configure true false req.ssdCachePathChunk req.ssdCachePathQuery) ++
    resetLayerEvents numLayers ++
    [.start (.doBlendPrefetch req.client (req.start + 1) numLayers)]

/-- `prepare_for_extend`, as far as the blend state goes. -/
def prepareForExtend (numLayers : Nat) (online : Bool) (req : BlendRequest) : List MainOp :=
  if req.isQueryOffline ∧ req.augmentedLocs.isNone then [.raiseError]
  else match req.contextSource with
    | .error _ => [.raiseError]
    | .ok source =>
      if req.hasSsdPaths then
        match req.blendStyle with
        | .kvCompute => configure false true req.ssdCachePathChunk req.ssdCachePathQuery
        | .qCompute => prepareQCompute numLayers req source
        | .doBlend | .doBlendFinish => prepareDoBlend numLayers online req
      else []

/-- `is_online()` during the forward pass and its cleanup. -/
def onlineAfterPrepare (online : Bool) (req : BlendRequest) : Bool :=
  if req.hasSsdPaths then req.blendStyle ≠ .kvCompute else online

/-- `is_offline()` during the forward pass and its cleanup. -/
def offlineAfterPrepare (online offline : Bool) (req : BlendRequest) : Bool :=
  if req.hasSsdPaths then
    match req.blendStyle with
    | .kvCompute => true
    | .qCompute => false
    | .doBlend | .doBlendFinish => online && offline
  else offline

/-! ## The forward pass -/

/-- One layer of a KVCOMPUTE. -/
def kvComputeLayer (numLayers : Nat) (offline : Bool) (req : BlendRequest) (layerId : Nat) :
    List MainOp :=
  [.run (.putKv layerId (req.forward.kv layerId))] ++
    (if req.isContextblend ∧ layerId < req.qcomputeEnd.getD numLayers ∧
        req.augmentedLocs.isSome then
      [.run (.accumulateKvzipLayerScore layerId (req.forward.kvzipScores layerId))] else []) ++
    if layerId + 1 = numLayers then [.finishKvCompute offline] else []

/-- One layer of a QCOMPUTE; `self.layers` has no layer past `num_hidden_layers`. -/
def qComputeLayer (numLayers : Nat) (online : Bool) (req : BlendRequest) (layerId : Nat) :
    List MainOp :=
  (if numLayers ≤ layerId then [.raiseError] else []) ++
  (if req.shouldCollectQ numLayers layerId then
    [.run (.putQ layerId (req.forward.q layerId)),
      .run (.putQueryK layerId (req.forward.queryK layerId))] else []) ++
    if req.isContextblend then
      if online then waitFor (.layer layerId) ++ [.loadedContext layerId]
      else [.pooledContext layerId]
    else []

/-- One layer of a DO_BLEND or DO_BLEND_FINISH: the pool's tensors are overwritten in place
in the last round and, online, at the layers loaded again in every round. -/
def doBlendLayer (numLayers : Nat) (online : Bool) (req : BlendRequest) (layerId : Nat) :
    List MainOp :=
  if layerId < req.start then []
  else if layerId = req.start then
    if req.ratio ≤ 0 then []
    else (if online then waitFor .taskB else []) ++ [.select]
  else (if online then waitFor (.layer layerId) else []) ++
    [.blendLayer layerId (req.blendStyle = .doBlendFinish ∨
      (online = true ∧ layerId ∉ req.keepLayersSet numLayers))]

/-- The layers of the request's forward pass. -/
def forwardOps (numLayers : Nat) (online offline : Bool) (req : BlendRequest) : List MainOp :=
  match req.blendStyle with
  | .kvCompute => (List.range numLayers).flatMap (kvComputeLayer numLayers offline req)
  | .qCompute => (List.range (req.endLayer numLayers)).flatMap (qComputeLayer numLayers online req)
  | .doBlend | .doBlendFinish => (List.range numLayers).flatMap (doBlendLayer numLayers online req)

/-- `_post_forward_blend_cleanup`. -/
def postForwardBlendCleanup (numLayers : Nat) (online offline : Bool) (req : BlendRequest) :
    List MainOp :=
  match req.blendStyle with
  | .kvCompute => if offline then [.run .clearHackPool, .run .clearContextPool] else []
  | .qCompute => []
  | .doBlend => if online then clearDoBlendLayers numLayers (req.keepLayersSet numLayers) else []
  | .doBlendFinish => cleanupRuntimeState numLayers

/-- The prefill of a request. -/
def prefillOps (numLayers : Nat) (rt : Runtime) (req : BlendRequest) : List MainOp :=
  let online := onlineAfterPrepare rt.online req
  let offline := offlineAfterPrepare rt.online rt.offline req
  prepareForExtend numLayers rt.online req ++ forwardOps numLayers online offline req ++
    postForwardBlendCleanup numLayers online offline req

/-- `cache_finished_req`, as far as the blend state goes. -/
def cacheFinishedReq (numLayers : Nat) (req : BlendRequest) : List MainOp :=
  if req.blendStyle = .doBlendFinish then cleanupRuntimeState numLayers else []

/-! ## Single statements -/

/-- The state the forward thread and the loaders share. -/
structure Shared where
  rt : Runtime
  loaders : List Loader

inductive MainResult where
  | next (s : Shared)
  | blocked
  | raised

/-- The event of a wait; `none` for a layer past the end of the list. -/
def Runtime.eventOf (rt : Runtime) : Wait → Option Bool
  | .layer layerId => rt.layerReady[layerId]?
  | .taskB => some rt.taskB

/-- The last layer of a KVCOMPUTE: the digest index, and offline the cache files. -/
def offlineSave (cfg : Config) (req : BlendRequest) (rt : Runtime) :
    Py (CacheFiles × Option CacheFiles) :=
  saveOffline cfg.argsort req.isContextblend (req.digestParams cfg.numLayers)
    rt.hack.kBuffer.length (fun layerId => (rt.kvzipScores.lookup layerId).getD [])
    rt.hack.getKv req.keepIndices

/-- The digest index built at the last layer of a contextblend KVCOMPUTE. -/
def buildContextPool (cfg : Config) (req : BlendRequest) (rt : Runtime) : Py Runtime :=
  if req.isContextblend then do
    let (_, context) ← buildAllIndices cfg.argsort (req.digestParams cfg.numLayers)
      rt.hack.kBuffer.length (fun layerId => (rt.kvzipScores.lookup layerId).getD []) .cleared
    return { rt with context := context, kvzipScores := [] }
  else .ok rt

/-- The context rows of a layer that was loaded: positions and rows must agree in number, and
the rotation overwrites K. -/
def contextFromQueryCache (req : BlendRequest) (rt : Runtime) (layerId : Nat) : Py Runtime :=
  match rt.context.kvOf layerId with
  | none => .error (.attributeError "shape")
  | some kv => do
    let (_, context) ← contextForLayer rt.context layerId
      (some (req.digestRatio.getD defaultDigestRatio)) kv.1.rows
    let context ← context.assign layerId (req.forward.rotateContext layerId kv.1, kv.2)
    return { rt with context := context }

/-- The context rows of a layer taken from the tensors KVCOMPUTE left in the pool. -/
def contextFromPool (req : BlendRequest) (rt : Runtime) (layerId : Nat) : Py Runtime :=
  let context := if rt.context.getContextPositions layerId = [] then
    rt.context.buildContextPositions (req.digestRatio.getD defaultDigestRatio) else rt.context
  match rt.hack.kvOf layerId with
  | none => .error (.attributeError "index_select")
  | some kv => do
    let _ ← kv.1.indexSelect (context.getContextPositions layerId)
    let _ ← kv.2.indexSelect (context.getContextPositions layerId)
    return { rt with context := context }

/-- ATTN selection stacks old K, Q and query K of every selection layer. -/
def selectable (numLayers : Nat) (req : BlendRequest) (rt : Runtime) : Bool :=
  req.fusionLayers numLayers ≠ [] ∧ ∀ layerId ∈ req.fusionLayers numLayers,
    (layerOf rt.hack.kBuffer layerId).isSome ∧ (layerOf rt.hack.qBuffer layerId).isSome ∧
      (layerOf rt.hack.queryKBuffer layerId).isSome

/-- Runs a computation of the state. -/
def Shared.after (s : Shared) : Py Runtime → MainResult
  | .ok rt => .next { s with rt := rt }
  | .error _ => .raised

/-- One statement of the forward thread. -/
def MainOp.exec (cfg : Config) (req : BlendRequest) (s : Shared) : MainOp → MainResult
  | .run stmt => s.after (stmt.run cfg.numLayers s.rt)
  | .start loader => .next { s with loaders := s.loaders ++ [loader] }
  | .raiseError => .raised
  | .restoreQueryMetadata => s.after do
      let queryMeta ← cfg.disk.queryMeta req.ssdCachePathQuery
      let context ← Source.restoreQueryMetadata cfg.numLayers queryMeta
        (.str (if req.digestIndexMethod.getD "" = "" then digestIndexMethod
          else req.digestIndexMethod.getD ""))
        (some (req.digestRatio.getD defaultDigestRatio)) s.rt.context
      return { s.rt with context := context }
  | .wait w =>
    match s.rt.eventOf w with
    | none => .raised
    | some true => .next s
    | some false => .blocked
  | .raiseLoaderError _ => if s.rt.loaderError then .raised else .next s
  | .loadedContext layerId => s.after (contextFromQueryCache req s.rt layerId)
  | .pooledContext layerId => s.after (contextFromPool req s.rt layerId)
  | .select => if selectable cfg.numLayers req s.rt then .next s else .raised
  | .blendLayer layerId direct =>
    match s.rt.hack.kvOf layerId with
    | none => .raised
    | some kv =>
      if direct then s.after do
        let hack ← s.rt.hack.assign layerId (req.forward.blend layerId kv)
        return { s.rt with hack := hack }
      else .next s
  | .finishKvCompute offline => s.after do
      if offline then
        let _ ← offlineSave cfg req s.rt
        buildContextPool cfg req s.rt
      else buildContextPool cfg req s.rt

/-! ## The process -/

inductive Main where
  | idle
  | running (req : BlendRequest) (ops : List MainOp)
  | crashed

structure Process where
  shared : Shared
  main : Main

/-- `begin`: a request's prefill is scheduled. `finish`: `cache_finished_req` runs for a request.
`main`: the forward thread runs one statement. `loader`: a loader thread runs one, or raises. -/
inductive Label where
  | begin (req : BlendRequest)
  | finish (req : BlendRequest)
  | main
  | loader (index : Nat) (fails : Bool)

/-- A loader's step: its event wakes the threads blocked on it, and the threads it starts join. -/
def Shared.loaderStep (disk : Disk) (index : Nat) (fails : Bool) (s : Shared) : Option Shared :=
  (s.loaders[index]?).bind fun t => (t.step disk fails s.rt).map fun r =>
    { rt := r.rt
      loaders := (match r.set with
        | some layerId => (s.loaders.set index r.loader).map (.wake r.rt.generation layerId)
        | none => s.loaders.set index r.loader) ++ r.started }

def Process.step (cfg : Config) : Label → Process → Option Process
  | .begin req, p =>
    match p.main with
    | .idle => some { p with main := .running req (prefillOps cfg.numLayers p.shared.rt req) }
    | _ => none
  | .finish req, p =>
    match p.main with
    | .idle => some { p with main := .running req (cacheFinishedReq cfg.numLayers req) }
    | _ => none
  | .main, p =>
    match p.main with
    | .running _ [] => some { p with main := .idle }
    | .running req (op :: ops) =>
      match op.exec cfg req p.shared with
      | .next s => some ⟨s, .running req ops⟩
      | .blocked => none
      | .raised => some { p with main := .crashed }
    | _ => none
  | .loader index fails, p =>
    (p.shared.loaderStep cfg.disk index fails).map fun s => { p with shared := s }

/-- The blend machinery of one process. -/
def blendMachine (cfg : Config) : Machine Process Label := ⟨Process.step cfg⟩

/-- A process that has handled no request. -/
def Process.initial : Process := ⟨⟨.initial, []⟩, .idle⟩

end QCFuse.Source
