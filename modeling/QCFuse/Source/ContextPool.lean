import QCFuse.Source.Tensor

/-!
# `ContextBlendPool`: digest-index metadata and context positions

The positions of a layer are the whole system chunk and, of every document chunk, the first
`ceil(len * ratio)` ranked local indices in increasing order. The coalesced spans, which
only indexed reads of another path use, are left out.
-/

set_option autoImplicit false

namespace QCFuse.Source

/-- `DEFAULT_DIGEST_RATIO`. -/
def defaultDigestRatio : Rat := 1 / 10

/-- `range(a, b)`. -/
def pyRange (a b : Int) : List Int := (List.range (b - a).toNat).map fun i : Nat => a + i

@[simp] theorem length_pyRange (a b : Int) : (pyRange a b).length = (b - a).toNat := by
  simp [pyRange]

theorem mem_pyRange {a b x : Int} : x ∈ pyRange a b ↔ a ≤ x ∧ x < b := by
  simp only [pyRange, List.mem_map, List.mem_range]
  constructor
  · rintro ⟨i, hi, rfl⟩
    omega
  · rintro ⟨ha, hb⟩
    exact ⟨(x - a).toNat, by omega, by omega⟩

theorem pyRange_eq_nil {a b : Int} (h : b ≤ a) : pyRange a b = [] := by
  rw [pyRange, Int.toNat_of_nonpos (by omega)]
  rfl

theorem pairwise_pyRange (a b : Int) : (pyRange a b).Pairwise (· < ·) := by
  rw [pyRange, List.pairwise_map]
  exact List.pairwise_lt_range.imp fun h => by omega

structure ContextPool where
  kBuffer : List (Option Tensor)
  vBuffer : List (Option Tensor)
  rankedIndicesByChunk : List (List Int)
  rankedIndicesByLayerChunk : List (List (List Int))
  origChunkRanges : List (Int × Int)
  contextPositions : List Int
  contextPositionsByLayer : List (List Int)
  numIndexLayers : Int
  totalTokens : Int
  digestRatio : Option Rat

namespace ContextPool

/-- `clear()`; also the class-level initial values. -/
def cleared : ContextPool := ⟨[], [], [], [], [], [], [], 0, 0, none⟩

/-- `init_buffers(num_layers)`: the index metadata is kept. -/
def initBuffers (pool : ContextPool) (numLayers : Nat) : ContextPool :=
  { pool with kBuffer := List.replicate numLayers none, vBuffer := List.replicate numLayers none }

/-- `set_index_metadata`; `num_layers or len(..) or len(..) or 0` takes the first nonzero. -/
def setIndexMetadata (pool : ContextPool) (rankedIndicesByChunk : List (List Int))
    (rankedIndicesByLayerChunk : List (List (List Int))) (origChunkRanges : List (Int × Int))
    (totalTokens numLayers : Int) : ContextPool :=
  { pool with
    rankedIndicesByChunk := rankedIndicesByChunk
    rankedIndicesByLayerChunk := rankedIndicesByLayerChunk
    origChunkRanges := origChunkRanges
    totalTokens := totalTokens
    numIndexLayers :=
      if numLayers ≠ 0 then numLayers
      else if rankedIndicesByLayerChunk.length ≠ 0 then rankedIndicesByLayerChunk.length
      else pool.kBuffer.length
    contextPositions := []
    contextPositionsByLayer := []
    digestRatio := none }

/-- `_ranked_indices_for_layer(layer_id)`. -/
def rankedIndicesForLayer (pool : ContextPool) (layerId : Nat) : List (List Int) :=
  (pool.rankedIndicesByLayerChunk[layerId]?).getD pool.rankedIndicesByChunk

/-- The `seen` loop: in-range indices, each at its first occurrence. -/
def selectUnseen (chunkLen : Int) : List Int → List Int → List Int
  | _, [] => []
  | seen, idx :: rest =>
    if idx ∈ seen ∨ idx < 0 ∨ chunkLen ≤ idx then selectUnseen chunkLen seen rest
    else idx :: selectUnseen chunkLen (idx :: seen) rest

/-- `n_left`: the digest size of a chunk. -/
def digestCount (chunkLen : Int) (digestRatio : Rat) : Int :=
  min chunkLen ⌈(chunkLen : Rat) * min 1 (max 0 digestRatio)⌉

/-- One turn of the loop over `enumerate(cls.orig_chunk_ranges)`. -/
def chunkPositions (ranked : List (List Int)) (digestRatio : Rat) (chunkIdx : Nat)
    (range : Int × Int) : List Int :=
  let chunkLen := range.2 - range.1
  if chunkLen ≤ 0 then []
  else if chunkIdx = 0 then pyRange range.1 range.2
  else
    let candidates := ((ranked[chunkIdx]?).getD []).take (digestCount chunkLen digestRatio).toNat
    ((selectUnseen chunkLen [] candidates).insertionSort (· ≤ ·)).map (range.1 + ·)

/-- `_build_context_positions_for_layer(layer_id, digest_ratio)`. -/
def buildContextPositionsForLayer (pool : ContextPool) (layerId : Nat) (digestRatio : Rat) :
    List Int :=
  (pool.origChunkRanges.zipIdx.map fun entry =>
    chunkPositions (pool.rankedIndicesForLayer layerId) digestRatio entry.2 entry.1).flatten

/-- The number of layers `build_context_positions` builds. -/
def numBuiltLayers (pool : ContextPool) : Nat :=
  max (max (max pool.numIndexLayers.toNat pool.rankedIndicesByLayerChunk.length)
    pool.kBuffer.length) 1

/-- `build_context_positions(digest_ratio)`. -/
def buildContextPositions (pool : ContextPool) (digestRatio : Rat) : ContextPool :=
  let byLayer := (List.range pool.numBuiltLayers).map fun layerId =>
    pool.buildContextPositionsForLayer layerId digestRatio
  { pool with
    contextPositionsByLayer := byLayer
    contextPositions := byLayer.headD []
    digestRatio := some digestRatio }

/-- `set_materialized_positions(positions_by_layer)`. -/
def setMaterializedPositions (pool : ContextPool) (positionsByLayer : List (List Int)) :
    ContextPool :=
  { pool with
    contextPositionsByLayer := positionsByLayer
    contextPositions := positionsByLayer.headD [] }

/-- `get_context_positions(layer_id)`. -/
def getContextPositions (pool : ContextPool) (layerId : Nat) : List Int :=
  (pool.contextPositionsByLayer[layerId]?).getD pool.contextPositions

theorem getContextPositions_build (pool : ContextPool) (digestRatio : Rat) {layerId : Nat}
    (h : layerId < pool.numBuiltLayers) :
    (pool.buildContextPositions digestRatio).getContextPositions layerId =
      pool.buildContextPositionsForLayer layerId digestRatio := by
  simp [getContextPositions, buildContextPositions, h]

/-! ## What a selected chunk contributes -/

private theorem selectUnseen_id {chunkLen : Int} {seen xs : List Int} (hnodup : xs.Nodup)
    (hrange : ∀ x ∈ xs, 0 ≤ x ∧ x < chunkLen) (hseen : ∀ x ∈ xs, x ∉ seen) :
    selectUnseen chunkLen seen xs = xs := by
  induction xs generalizing seen with
  | nil => rfl
  | cons x xs ih =>
    obtain ⟨hx, hxs⟩ := List.nodup_cons.mp hnodup
    have hin := hrange x List.mem_cons_self
    have hnot : ¬ (x ∈ seen ∨ x < 0 ∨ chunkLen ≤ x) := by
      rintro (h | h | h)
      · exact hseen x List.mem_cons_self h
      · omega
      · omega
    rw [selectUnseen, if_neg hnot, ih hxs fun y hy => hrange y (List.mem_cons_of_mem _ hy)]
    intro y hy hmem
    rcases List.mem_cons.mp hmem with rfl | hmem
    · exact hx hy
    · exact hseen y (List.mem_cons_of_mem _ hy) hmem

theorem digestCount_bounds {chunkLen : Int} (h : 0 ≤ chunkLen) (digestRatio : Rat) :
    0 ≤ digestCount chunkLen digestRatio ∧ digestCount chunkLen digestRatio ≤ chunkLen := by
  have hratio : (0 : Rat) ≤ min 1 (max 0 digestRatio) := le_min zero_le_one (le_max_left _ _)
  have hlen : (0 : Rat) ≤ (chunkLen : Rat) := by exact_mod_cast h
  exact ⟨le_min h (Int.ceil_nonneg (mul_nonneg hlen hratio)), min_le_left _ _⟩

/-- When the ranking of a document chunk is a permutation of its local indices, the chunk
contributes `n_left` strictly increasing positions inside its range. -/
theorem chunkPositions_doc {ranked : List (List Int)} (digestRatio : Rat) {chunkIdx : Nat}
    (range : Int × Int) {order : List Int} (hchunk : chunkIdx ≠ 0) (hlen : 0 < range.2 - range.1)
    (hranked : ranked[chunkIdx]? = some order) (horder : order.Perm (pyRange 0 (range.2 - range.1))) :
    (chunkPositions ranked digestRatio chunkIdx range).Pairwise (· < ·) ∧
      (∀ p ∈ chunkPositions ranked digestRatio chunkIdx range, range.1 ≤ p ∧ p < range.2) ∧
      (chunkPositions ranked digestRatio chunkIdx range).length =
        (digestCount (range.2 - range.1) digestRatio).toNat := by
  let count := digestCount (range.2 - range.1) digestRatio
  let candidates := order.take count.toNat
  obtain ⟨hcount0, hcountLen⟩ := digestCount_bounds hlen.le digestRatio
  have hnodup : candidates.Nodup :=
    (List.take_sublist _ _).nodup (horder.nodup_iff.mpr ((pairwise_pyRange _ _).imp ne_of_lt))
  have hrange : ∀ x ∈ candidates, 0 ≤ x ∧ x < range.2 - range.1 := fun x hx =>
    mem_pyRange.mp (horder.mem_iff.mp (List.mem_of_mem_take hx))
  have hsel : selectUnseen (range.2 - range.1) [] candidates = candidates :=
    selectUnseen_id hnodup hrange fun _ _ => List.not_mem_nil
  have hperm : (candidates.insertionSort (· ≤ ·)).Perm candidates :=
    List.perm_insertionSort _ _
  have heq : chunkPositions ranked digestRatio chunkIdx range =
      (candidates.insertionSort (· ≤ ·)).map (range.1 + ·) := by
    simp only [chunkPositions]
    rw [if_neg (by omega), if_neg hchunk, hranked, Option.getD_some]
    exact congrArg (fun xs => (List.insertionSort (· ≤ ·) xs).map (range.1 + ·)) hsel
  rw [heq]
  refine ⟨?_, ?_, ?_⟩
  · rw [List.pairwise_map]
    have hsorted := List.pairwise_insertionSort (· ≤ ·) candidates
    have hne : (candidates.insertionSort (· ≤ ·)).Pairwise (· ≠ ·) := hperm.nodup_iff.mpr hnodup
    exact (hsorted.and hne).imp fun h => by
      have := lt_of_le_of_ne h.1 h.2
      omega
  · intro p hp
    obtain ⟨x, hx, rfl⟩ := List.mem_map.mp hp
    have := hrange x (hperm.mem_iff.mp hx)
    omega
  · rw [List.length_map, hperm.length_eq, List.length_take, horder.length_eq, length_pyRange]
    omega

end ContextPool

end QCFuse.Source
