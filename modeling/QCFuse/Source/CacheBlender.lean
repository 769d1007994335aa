import QCFuse.Source.QueryCache

/-!
# `CacheBlender.blend`: the offline save and the context rows of QCOMPUTE
-/

set_option autoImplicit false

namespace QCFuse.Source

/-- `int(keep_indices[int(pos)])` for every position of every layer, or the positions. -/
def digestTokenIndices (keepIndices : Option (List Int)) (positionsByLayer : List (List Int)) :
    Py (List (List Int)) :=
  match keepIndices with
  | some keep => positionsByLayer.mapM fun positions => positions.mapM (pyIndex keep)
  | none => .ok positionsByLayer

/-- `build_context_pool` and the two saves `blend` makes at the last layer of an offline
KVCOMPUTE: the chunk cache, and for contextblend the query cache. `poolLayers` is
`len(HackBlendKVPool.k_buffer)` and `keepIndices` is `digest_keep_indices`. -/
def saveOffline {α : Type} [Zero α] (argsort : ArgSort α) (isContextblend : Bool)
    (params : DigestParams) (poolLayers : Nat) (kvzipScores : Nat → List (Option (List α)))
    (getKv : LayerSource) (keepIndices : Option (List Int)) :
    Py (CacheFiles × Option CacheFiles) := do
  let numLayers := params.attNumLayers.getD poolLayers
  if isContextblend then
    let (index, pool) ← buildAllIndices argsort params poolLayers kvzipScores .cleared
    let chunkFiles ← saveAllChunkCache numLayers.toNat getKv keepIndices
    let qcomputeEnd := clampedQcomputeEnd params.qcomputeEnd numLayers
    let tokenIndices ← digestTokenIndices keepIndices
      (pool.contextPositionsByLayer.take qcomputeEnd.toNat)
    let queryFiles ← saveAllQueryCache index getKv qcomputeEnd tokenIndices params.criticalLayers
      keepIndices
    return (chunkFiles, some queryFiles)
  else
    let chunkFiles ← saveAllChunkCache numLayers.toNat getKv keepIndices
    return (chunkFiles, none)

/-- The positions QCOMPUTE uses at a layer whose stored context has `ctxRows` rows: empty
positions are rebuilt first, and the two counts must agree. -/
def contextForLayer (pool : ContextPool) (layerId : Nat) (digestRatio : Option Rat)
    (ctxRows : Nat) : Py (List Int × ContextPool) :=
  let stored := pool.getContextPositions layerId
  let pool := if stored = [] then pool.buildContextPositions (digestRatio.getD defaultDigestRatio)
    else pool
  let positions := if stored = [] then pool.getContextPositions layerId else stored
  if positions.length ≠ ctxRows then
    .error (.valueError "ContextBlend QCOMPUTE position/KV mismatch")
  else .ok (positions, pool)

theorem contextForLayer_buffers {pool pool' : ContextPool} {layerId ctxRows : Nat}
    {digestRatio : Option Rat} {positions : List Int}
    (h : contextForLayer pool layerId digestRatio ctxRows = .ok (positions, pool')) :
    pool'.kBuffer = pool.kBuffer ∧ pool'.vBuffer = pool.vBuffer := by
  by_cases hstored : pool.getContextPositions layerId = []
  · simp only [contextForLayer, if_pos hstored] at h
    split at h <;> cases h
    exact ⟨rfl, rfl⟩
  · simp only [contextForLayer, if_neg hstored] at h
    split at h <;> cases h
    exact ⟨rfl, rfl⟩

/-- The context part of one QCOMPUTE forward: the layers in order, each with the rows stored
for it. `kvLen`, computed at the first layer, serves all of them. -/
def contextForLayers (digestRatio : Option Rat) (queryLen : Nat) :
    List (Nat × Nat) → ContextPool → Option Nat → Py (List (List Int × Nat))
  | [], _, _ => .ok []
  | (layerId, ctxRows) :: layers, pool, kvLen => do
    let (positions, pool) ← contextForLayer pool layerId digestRatio ctxRows
    let cached := kvLen.getD (ctxRows + queryLen)
    let rest ← contextForLayers digestRatio queryLen layers pool (some cached)
    return (positions, cached) :: rest

end QCFuse.Source
