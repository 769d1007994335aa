import QCFuse.Source.BlendRequest

/-!
# The process-global blend state: `HackBlendKVPool`, `ContextBlendPool`, `KVSSDManager`

One record for the class attributes the forward thread and the loader threads share. The
layer events are the current list of `_layer_ready_events`; `generation` counts the lists made
so far, so that a thread waiting on an event of an old list can be told apart. Left out:
`q_lens` and its companions, which nothing reads, the device, the metadata cache and the pinned
transfer pools, whose locks make the read of a layer one step.
-/

set_option autoImplicit false

namespace QCFuse.Source

/-! ## `HackBlendKVPool` -/

structure HackPool where
  kBuffer : List (Option Tensor)
  vBuffer : List (Option Tensor)
  qBuffer : List (Option Tensor)
  queryKBuffer : List (Option Tensor)
  deriving DecidableEq, Repr

/-- `buffer[layer_id]` of a list of optional tensors; `none` also past the end. -/
def layerOf (buffer : List (Option Tensor)) (layerId : Nat) : Option Tensor :=
  (buffer[layerId]?).join

theorem layerOf_set {buffer : List (Option Tensor)} {layerId : Nat} (entry : Option Tensor)
    (i : Nat) (h : layerId < buffer.length) :
    layerOf (buffer.set layerId entry) i = if i = layerId then entry else layerOf buffer i := by
  unfold layerOf
  split
  next heq => rw [heq, List.getElem?_set_self h, Option.join_some]
  next hne => rw [List.getElem?_set_ne (Ne.symm hne)]

/-- The append loop and the concatenation of `put_kv`, `put_q` and `put_query_k`. -/
def putLayer (buffer : List (Option Tensor)) (layerId : Nat) (t : Tensor) :
    Py (List (Option Tensor)) :=
  let padded := buffer ++ List.replicate (layerId + 1 - buffer.length) none
  match layerOf padded layerId with
  | none => .ok (padded.set layerId (some t))
  | some old => do
    let joined ← old.cat t
    return padded.set layerId (some joined)

namespace HackPool

/-- `clear()`; also the class-level initial values. -/
def cleared : HackPool := ⟨[], [], [], []⟩

/-- `init_buffers(num_layers)`. -/
def initBuffers (numLayers : Nat) : HackPool :=
  ⟨List.replicate numLayers none, List.replicate numLayers none, [], []⟩

/-- `has_kv(layer_id)`. -/
def hasKv (pool : HackPool) (layerId : Nat) : Bool :=
  match layerOf pool.kBuffer layerId with
  | some k => 0 < k.numel
  | none => false

/-- `put_kv(k, v, layer_id)`. -/
def putKv (pool : HackPool) (layerId : Nat) (kv : KvPair) : Py HackPool := do
  let k ← putLayer pool.kBuffer layerId kv.1
  let v ← putLayer pool.vBuffer layerId kv.2
  return { pool with kBuffer := k, vBuffer := v }

/-- `get_kv(layer_id)`. -/
def getKv (pool : HackPool) : LayerSource := fun layerId => do
  let k ← pyIndex pool.kBuffer layerId
  let v ← pyIndex pool.vBuffer layerId
  return (k, v)

/-- `k_buffer[layer_id] = k; v_buffer[layer_id] = v`, as every loader does under the lock. -/
def assign (pool : HackPool) (layerId : Nat) (kv : KvPair) : Py HackPool :=
  if layerId < pool.kBuffer.length ∧ layerId < pool.vBuffer.length then
    .ok { pool with
      kBuffer := pool.kBuffer.set layerId (some kv.1)
      vBuffer := pool.vBuffer.set layerId (some kv.2) }
  else .error .indexError

/-- Both tensors of a layer, where there are both. -/
def kvOf (pool : HackPool) (layerId : Nat) : Option KvPair :=
  match layerOf pool.kBuffer layerId, layerOf pool.vBuffer layerId with
  | some k, some v => some (k, v)
  | _, _ => none

theorem assign_ok {pool pool' : HackPool} {layerId : Nat} {kv : KvPair}
    (h : pool.assign layerId kv = .ok pool') (i : Nat) :
    layerOf pool'.kBuffer i = (if i = layerId then some kv.1 else layerOf pool.kBuffer i) ∧
      layerOf pool'.vBuffer i = if i = layerId then some kv.2 else layerOf pool.vBuffer i := by
  unfold assign at h
  split at h
  next hlt =>
    cases h
    exact ⟨layerOf_set _ i hlt.1, layerOf_set _ i hlt.2⟩
  next => cases h

theorem kvOf_assign {pool pool' : HackPool} {layerId : Nat} {kv : KvPair}
    (h : pool.assign layerId kv = .ok pool') (i : Nat) :
    pool'.kvOf i = if i = layerId then some kv else pool.kvOf i := by
  obtain ⟨hk, hv⟩ := assign_ok h i
  unfold kvOf
  rw [hk, hv]
  by_cases hi : i = layerId
  · simp only [if_pos hi]
  · simp only [if_neg hi]

end HackPool

namespace ContextPool

/-- `k_buffer[layer_id] = k; v_buffer[layer_id] = v`. -/
def assign (pool : ContextPool) (layerId : Nat) (kv : KvPair) : Py ContextPool :=
  if layerId < pool.kBuffer.length ∧ layerId < pool.vBuffer.length then
    .ok { pool with
      kBuffer := pool.kBuffer.set layerId (some kv.1)
      vBuffer := pool.vBuffer.set layerId (some kv.2) }
  else .error .indexError

/-- Both tensors of a layer, where there are both. -/
def kvOf (pool : ContextPool) (layerId : Nat) : Option KvPair :=
  match layerOf pool.kBuffer layerId, layerOf pool.vBuffer layerId with
  | some k, some v => some (k, v)
  | _, _ => none

theorem assign_ok {pool pool' : ContextPool} {layerId : Nat} {kv : KvPair}
    (h : pool.assign layerId kv = .ok pool') (i : Nat) :
    layerOf pool'.kBuffer i = (if i = layerId then some kv.1 else layerOf pool.kBuffer i) ∧
      layerOf pool'.vBuffer i = if i = layerId then some kv.2 else layerOf pool.vBuffer i := by
  unfold assign at h
  split at h
  next hlt =>
    cases h
    exact ⟨layerOf_set _ i hlt.1, layerOf_set _ i hlt.2⟩
  next => cases h

theorem kvOf_assign {pool pool' : ContextPool} {layerId : Nat} {kv : KvPair}
    (h : pool.assign layerId kv = .ok pool') (i : Nat) :
    pool'.kvOf i = if i = layerId then some kv else pool.kvOf i := by
  obtain ⟨hk, hv⟩ := assign_ok h i
  unfold kvOf
  rw [hk, hv]
  by_cases hi : i = layerId
  · simp only [if_pos hi]
  · simp only [if_neg hi]

theorem kvOf_congr {pool pool' : ContextPool}
    (h : pool'.kBuffer = pool.kBuffer ∧ pool'.vBuffer = pool.vBuffer) (i : Nat) :
    pool'.kvOf i = pool.kvOf i := by
  unfold kvOf
  rw [h.1, h.2]

end ContextPool

/-! ## The shared state -/

/-- `_kvzip_scores_by_layer_doc_chunk`. -/
abbrev KvzipScores := List (Nat × List (Option (List Rat)))

structure Runtime where
  hack : HackPool
  context : ContextPool
  online : Bool
  offline : Bool
  sampleDirChunk : Dir
  sampleDirQuery : Dir
  generation : Nat
  layerReady : List Bool
  taskB : Bool
  loaderError : Bool
  kvzipScores : KvzipScores

namespace Runtime

/-- The state of a process that has handled no request. -/
def initial : Runtime where
  hack := .cleared
  context := .cleared
  online := false
  offline := false
  sampleDirChunk := some ""
  sampleDirQuery := some ""
  generation := 0
  layerReady := []
  taskB := false
  loaderError := false
  kvzipScores := []

/-- The layer's event of the current list is set. -/
def isReady (rt : Runtime) (layerId : Nat) : Bool := rt.layerReady.getD layerId false

end Runtime

/-- `setdefault`, the length check and the maximum with the scores accumulated before. -/
def accumulateScores (scores : KvzipScores) (layerId : Nat) (new : List (Option (List Rat))) :
    KvzipScores :=
  let old := (scores.lookup layerId).getD (List.replicate new.length none)
  let old := if old.length ≠ new.length then List.replicate new.length none else old
  let merged := List.zipWith (fun prev score => match prev, score with
    | some xs, some ys => some (List.zipWith max xs ys)
    | none, some ys => some ys
    | prev, none => prev) old new
  (layerId, merged) :: scores.filter fun entry => entry.1 ≠ layerId

/-- What the loader threads read of the sample directories: the layers of a file under the
offsets of a metadata file. The two directories differ where the sample directory changes
between the two reads. -/
structure Disk where
  queryMeta : Dir → Py Json
  digest : Dir → Dir → Nat → KvPair
  critical : Dir → Dir → Nat → KvPair
  chunk : Dir → Dir → Nat → KvPair

/-- The model's layer count, the sample directories and the sort of the digest index. -/
structure Config where
  numLayers : Nat
  disk : Disk
  argsort : ArgSort Rat

/-! ## Single statements of the forward thread -/

/-- A statement that reads nothing of the loaders' state. -/
inductive Stmt where
  | initHackBuffers
  | clearHackPool
  | initContextBuffers
  | clearContextPool
  | clearDigestIndex
  | setMode (online offline : Bool)
  | setSampleDirs (chunk query : Dir)
  | newLayerEvents
  | clearTaskB
  | clearLoaderError
  | clearLayerEvent (layerId : Nat)
  | clearLayerK (layerId : Nat)
  | clearLayerV (layerId : Nat)
  | putQ (layerId : Nat) (q : Tensor)
  | putQueryK (layerId : Nat) (k : Tensor)
  | putKv (layerId : Nat) (kv : KvPair)
  | accumulateKvzipLayerScore (layerId : Nat) (scores : List (Option (List Rat)))

/-- The state a statement leaves, or the exception it raises. Clearing an event of a shorter
list and a layer past the end of the pool change nothing. -/
def Stmt.run (numLayers : Nat) (rt : Runtime) : Stmt → Py Runtime
  | .initHackBuffers => .ok { rt with hack := .initBuffers numLayers }
  | .clearHackPool => .ok { rt with hack := .cleared }
  | .initContextBuffers => .ok { rt with context := rt.context.initBuffers numLayers }
  | .clearContextPool => .ok { rt with context := .cleared }
  | .clearDigestIndex => .ok { rt with kvzipScores := [] }
  | .setMode online offline => .ok { rt with online := online, offline := offline }
  | .setSampleDirs chunk query => .ok { rt with sampleDirChunk := chunk, sampleDirQuery := query }
  | .newLayerEvents => .ok { rt with
      generation := rt.generation + 1
      layerReady := List.replicate numLayers false }
  | .clearTaskB => .ok { rt with taskB := false }
  | .clearLoaderError => .ok { rt with loaderError := false }
  | .clearLayerEvent layerId => .ok { rt with layerReady := rt.layerReady.set layerId false }
  | .clearLayerK layerId => .ok { rt with
      hack := { rt.hack with kBuffer := rt.hack.kBuffer.set layerId none } }
  | .clearLayerV layerId => .ok { rt with
      hack := { rt.hack with vBuffer := rt.hack.vBuffer.set layerId none } }
  | .putQ layerId q => do
      let qBuffer ← putLayer rt.hack.qBuffer layerId q
      return { rt with hack := { rt.hack with qBuffer := qBuffer } }
  | .putQueryK layerId k => do
      let queryKBuffer ← putLayer rt.hack.queryKBuffer layerId k
      return { rt with hack := { rt.hack with queryKBuffer := queryKBuffer } }
  | .putKv layerId kv => do
      let hack ← rt.hack.putKv layerId kv
      return { rt with hack := hack }
  | .accumulateKvzipLayerScore layerId scores =>
      .ok { rt with kvzipScores := accumulateScores rt.kvzipScores layerId scores }

end QCFuse.Source
