import QCFuse.Source.SsdRuntime

/-!
# The loader threads of `KVSSDManager`

A thread is the list of what it still has to do inside its `try`, followed by what it does on
return or on an exception. A load may raise at any point of the `try`. A lock-protected section
is one step, and so is a read into the thread's own pinned slot.
-/

set_option autoImplicit false

namespace QCFuse.Source

/-- Statements of a `load_fn`. `blockedOn` is `Event.wait` once the event was found clear: it
ends when that event object is set, even if it is cleared again before the thread runs. -/
inductive LoadOp where
  | checkQueryMeta
  | waitLayer (layerId : Nat)
  | blockedOn (generation layerId : Nat)
  | raiseLoaderError
  | openQuery
  | readDigest (layerId : Nat)
  | putDigest (layerId : Nat) (kv : KvPair)
  | setLayerReady (layerId : Nat)
  | readCritical (layerIds : List Nat)
  | putHack (layerId : Nat) (kv : KvPair)
  | loadPackedMeta
  | prefetchLayer (layerId : Nat)
  | readChunk (layerId : Nat)

/-- Statements after the `try`; `setLayerReady` has the range check of `_set_layers_ready`. -/
inductive LeaveOp where
  | recordLoaderError
  | setLayerReady (layerId : Nat)
  | setTaskB
  | startDigest (queryDir : Dir) (layerIds : List Nat)
  | startCritical (queryDir : Dir) (digestLayerIds criticalLayerIds : List Nat)

inductive Phase where
  | trying (body : List LoadOp)
  | leaving (rest : List LeaveOp)

/-- `client` is the request's; `metaDir` and `binDir` are where the metadata and the open file
of the thread come from; `failed` notes that the thread has recorded an error. -/
structure Loader where
  client : Nat
  metaDir : Dir
  binDir : Dir
  phase : Phase
  onReturn : List LeaveOp
  onError : List LeaveOp
  failed : Bool

namespace Loader

/-- Nothing left to do. -/
def Ended (t : Loader) : Prop :=
  match t.phase with
  | .leaving [] => True
  | _ => False

instance (t : Loader) : Decidable t.Ended := by
  unfold Ended
  split <;> infer_instance

/-- The rest of the `try`, or what follows it. -/
def continueWith (t : Loader) (body : List LoadOp) : Loader :=
  { t with phase := if body.isEmpty then .leaving t.onReturn else .trying body }

/-- The exception handler. -/
def raise (t : Loader) : Loader := { t with phase := .leaving t.onError }

/-- What `_start_loader_thread` does on an exception. -/
def releaseOps (layerIds : List Nat) (releaseTaskB : Bool) : List LeaveOp :=
  .recordLoaderError :: layerIds.map .setLayerReady ++ if releaseTaskB then [.setTaskB] else []

/-- `start_query_cache(num_digest_layers, critical_layers, query_meta)` started. -/
def queryCache (client numDigestLayers : Nat) (criticalLayers : List Nat) (queryDir : Dir) :
    Loader where
  client := client
  metaDir := queryDir
  binDir := none
  phase := .trying [.checkQueryMeta]
  onReturn := [.startDigest queryDir (List.range numDigestLayers),
    .startCritical queryDir (List.range numDigestLayers) criticalLayers]
  onError := releaseOps (List.range numDigestLayers ++ criticalLayers) true
  failed := false

/-- The digest thread, which loads the digest layers one by one. -/
def digest (client : Nat) (metaDir : Dir) (layerIds : List Nat) : Loader :=
  continueWith ⟨client, metaDir, none, .leaving [], [], releaseOps layerIds false, false⟩
    (if layerIds = [] then []
      else .openQuery :: layerIds.flatMap fun layerId =>
        [.readDigest layerId, .setLayerReady layerId])

/-- The critical thread, which waits for the first digest layer and loads one block. -/
def critical (client : Nat) (metaDir : Dir) (digestLayerIds criticalLayerIds : List Nat) :
    Loader :=
  continueWith ⟨client, metaDir, none, .leaving [], [.setTaskB], releaseOps criticalLayerIds true,
      false⟩
    ((match digestLayerIds with
      | first :: _ => [.waitLayer first, .raiseLoaderError]
      | [] => []) ++ [.readCritical criticalLayerIds])

/-- `start_task_b(layer_list)` started. -/
def taskB (client : Nat) (layerIds : List Nat) : Loader where
  client := client
  metaDir := none
  binDir := none
  phase := .trying (.loadPackedMeta :: layerIds.map .readChunk)
  onReturn := [.setTaskB]
  onError := releaseOps layerIds true
  failed := false

/-- `start_do_blend_prefetch(prefetch_from, num_layers)` started. -/
def doBlendPrefetch (client prefetchFrom numLayers : Nat) : Loader where
  client := client
  metaDir := none
  binDir := none
  phase := .trying (.loadPackedMeta ::
    (List.range' prefetchFrom (numLayers - prefetchFrom)).map .prefetchLayer)
  onReturn := []
  onError := releaseOps (List.range' prefetchFrom (numLayers - prefetchFrom)) false
  failed := false

/-- A thread blocked on the event wakes up when it is set. -/
def wake (generation layerId : Nat) (t : Loader) : Loader :=
  match t.phase with
  | .trying (.blockedOn g l :: body) =>
    if g = generation ∧ l = layerId then t.continueWith body else t
  | _ => t

/-- The state, the thread, the event set and the threads started by one step of a thread. -/
structure StepResult where
  rt : Runtime
  loader : Loader
  set : Option Nat
  started : List Loader

/-- An exception inside the `try`. -/
def raised (t : Loader) (rt : Runtime) : StepResult := ⟨rt, t.raise, none, []⟩

/-- The next statement of the `try` without an exception of its own from outside; `none` while
the thread is blocked. -/
def tryStep (disk : Disk) (rt : Runtime) (t : Loader) (body : List LoadOp) :
    LoadOp → Option StepResult
  | .checkQueryMeta => some ⟨rt, t.continueWith body, none, []⟩
  | .waitLayer layerId =>
    if rt.layerReady.length ≤ layerId then some (t.raised rt)
    else if rt.isReady layerId then some ⟨rt, t.continueWith body, none, []⟩
    else some ⟨rt, t.continueWith (.blockedOn rt.generation layerId :: body), none, []⟩
  | .blockedOn _ _ => none
  | .raiseLoaderError =>
    if rt.loaderError then some (t.raised rt) else some ⟨rt, t.continueWith body, none, []⟩
  | .openQuery =>
    some ⟨rt, { t with binDir := rt.sampleDirQuery }.continueWith body, none, []⟩
  | .readDigest layerId =>
    some ⟨rt, t.continueWith (.putDigest layerId (disk.digest t.metaDir t.binDir layerId) :: body),
      none, []⟩
  | .putDigest layerId kv =>
    match rt.context.assign layerId kv with
    | .ok context => some ⟨{ rt with context := context }, t.continueWith body, none, []⟩
    | .error _ => some (t.raised rt)
  | .setLayerReady layerId =>
    if rt.layerReady.length ≤ layerId then some (t.raised rt)
    else some ⟨{ rt with layerReady := rt.layerReady.set layerId true }, t.continueWith body,
      some layerId, []⟩
  | .readCritical layerIds =>
    some ⟨rt, t.continueWith ((layerIds.map fun layerId =>
      .putHack layerId (disk.critical t.metaDir rt.sampleDirQuery layerId)) ++ body), none, []⟩
  | .putHack layerId kv =>
    match rt.hack.assign layerId kv with
    | .ok hack => some ⟨{ rt with hack := hack }, t.continueWith body, none, []⟩
    | .error _ => some (t.raised rt)
  | .loadPackedMeta =>
    some ⟨rt, { t with metaDir := rt.sampleDirChunk }.continueWith body, none, []⟩
  | .prefetchLayer layerId =>
    if rt.hack.hasKv layerId then
      if rt.layerReady.length ≤ layerId then some (t.raised rt)
      else some ⟨{ rt with layerReady := rt.layerReady.set layerId true }, t.continueWith body,
        some layerId, []⟩
    else some ⟨rt, t.continueWith (.readChunk layerId :: .setLayerReady layerId :: body), none, []⟩
  | .readChunk layerId =>
    some ⟨rt, t.continueWith
      (.putHack layerId (disk.chunk t.metaDir rt.sampleDirChunk layerId) :: body), none, []⟩

/-- The next statement after the `try`. -/
def leaveStep (rt : Runtime) (t : Loader) (rest : List LeaveOp) : LeaveOp → StepResult
  | .recordLoaderError =>
    ⟨{ rt with loaderError := true }, { t with phase := .leaving rest, failed := true }, none, []⟩
  | .setLayerReady layerId =>
    if rt.layerReady.length ≤ layerId then ⟨rt, { t with phase := .leaving rest }, none, []⟩
    else ⟨{ rt with layerReady := rt.layerReady.set layerId true },
      { t with phase := .leaving rest }, some layerId, []⟩
  | .setTaskB => ⟨{ rt with taskB := true }, { t with phase := .leaving rest }, none, []⟩
  | .startDigest queryDir layerIds =>
    ⟨rt, { t with phase := .leaving rest }, none, [digest t.client queryDir layerIds]⟩
  | .startCritical queryDir digestLayerIds criticalLayerIds =>
    ⟨rt, { t with phase := .leaving rest }, none,
      [critical t.client queryDir digestLayerIds criticalLayerIds]⟩

/-- Whether the thread sits in `Event.wait`. -/
def blocked : LoadOp → Bool
  | .blockedOn _ _ => true
  | _ => false

/-- One step of a thread; `fails` lets the `try` raise. -/
def step (disk : Disk) (fails : Bool) (rt : Runtime) (t : Loader) : Option StepResult :=
  match t.phase with
  | .trying [] => none
  | .trying (op :: body) =>
    if fails then if blocked op then none else some (t.raised rt)
    else t.tryStep disk rt body op
  | .leaving [] => none
  | .leaving (op :: rest) => if fails then none else some (t.leaveStep rt rest op)

end Loader

end QCFuse.Source
