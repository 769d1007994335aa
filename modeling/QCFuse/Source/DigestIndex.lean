import QCFuse.Source.ContextPool

/-!
# `DigestIndexManager`: augmented layouts, rankings, `build_all_indices`

An offline prompt is `sys, doc1, zipprompt1, ..., docn, zipprompt_n, query`. Its K/V rows are
in forward order, zip prompts included; the metadata and the saved caches speak of the
original prompt, without them. `keep_indices` maps original positions to forward rows.
-/

set_option autoImplicit false

namespace QCFuse.Source

/-- `DIGEST_INDEX_METHOD`. -/
def digestIndexMethod : String := "kvzip"

/-- `DIGEST_INDEX_VERSION`. -/
def digestIndexVersion : Int := 8

/-- `normalize_method(method)`: `(method or "kvzip").lower()`, which must be `kvzip`. -/
def normalizeMethod : Json → Py String
  | .str s =>
    let method := pyLower (if s = "" then digestIndexMethod else s)
    if method ≠ digestIndexMethod then .error (.valueError "Unsupported digest_index_method")
    else .ok method
  | method =>
    if method.truthy then .error (.attributeError "lower") else .ok digestIndexMethod

theorem normalizeMethod_ok {method : Json} {name : String} (h : normalizeMethod method = .ok name) :
    name = digestIndexMethod := by
  cases method with
  | str s =>
    simp only [normalizeMethod] at h
    generalize pyLower (if s = "" then digestIndexMethod else s) = method at h
    split at h
    next => cases h
    next hname =>
      cases h
      exact not_not.mp hname
  | _ =>
    simp only [normalizeMethod] at h
    split at h <;> cases h
    rfl

/-- The loop of `_cumsum_lens` from a running total. -/
def cumsumFrom : Int → List Int → List Int
  | _, [] => []
  | total, len :: lens => (total + len) :: cumsumFrom (total + len) lens

/-- `_cumsum_lens(lengths)`. -/
def cumsumLens (lengths : List Int) : List Int := 0 :: cumsumFrom 0 lengths

/-- `_chunk_abs_ranges(chunk_loc_list)`. -/
def chunkAbsRanges (locs : List Int) : List (Int × Int) := locs.zip locs.tail

/-- `range(a, b, 2)` for list indices. -/
def indexRange (a b : Nat) : List Nat := (List.range ((b - a + 1) / 2)).map fun i => a + 2 * i

structure AugmentedLocs where
  forwardLocs : List Int
  originalLocs : List Int
  keepIndices : List Int
  augSysRange : Int × Int
  augDocRanges : List (Int × Int)
  augZipRanges : List (Int × Int)

/-- `prepare_augmented_locs_for_request(raw_locs)`. Every index read is below the length of
`raw_locs`, so the default of `getD` is never taken. -/
def prepareAugmentedLocsForRequest (rawLocs : List Int) : Option AugmentedLocs :=
  let loc := fun i => rawLocs.getD i 0
  let numRawChunks : Int := rawLocs.length - 1
  if numRawChunks < 4 ∨ numRawChunks % 2 ≠ 0 then none
  else
    let docChunkIndices := indexRange 1 (rawLocs.length - 2)
    let zipChunkIndices := indexRange 2 (rawLocs.length - 2)
    if docChunkIndices.length ≠ zipChunkIndices.length then none
    else
      let chunks := docChunkIndices.zip zipChunkIndices
      let sysStart := loc 0
      let sysEnd := loc 1
      let queryStart := loc (rawLocs.length - 2)
      let queryEnd := loc (rawLocs.length - 1)
      some {
        forwardLocs := cumsumLens ((sysEnd - sysStart) ::
          (chunks.map fun c => loc (c.2 + 1) - loc c.1) ++ [queryEnd - queryStart])
        originalLocs := cumsumLens ((sysEnd - sysStart) ::
          (chunks.map fun c => loc (c.1 + 1) - loc c.1) ++ [queryEnd - queryStart])
        keepIndices := pyRange sysStart sysEnd ++
          (chunks.flatMap fun c => pyRange (loc c.1) (loc (c.1 + 1))) ++ pyRange queryStart queryEnd
        augSysRange := (sysStart, sysEnd)
        augDocRanges := chunks.map fun c => (loc c.1, loc (c.1 + 1))
        augZipRanges := chunks.map fun c => (loc c.2, loc (c.2 + 1)) }

/-! ## Rankings -/

section Ranking

variable {α : Type}

/-- `torch.argsort(scores, descending=True)`: the order of equal scores is not documented, so
only that the result lists every index once is kept. -/
structure ArgSort (α : Type) where
  run : List α → List Nat
  perm : ∀ scores, (run scores).Perm (List.range scores.length)

variable (argsort : ArgSort α)

/-- `_rank_from_scores(scores, chunk_len, n_sink)`. -/
def rankFromScores (scores : List α) (chunkLen nSink : Int) : List Int :=
  if chunkLen ≤ 0 then []
  else
    let sinkCount := min (max nSink 0) chunkLen
    let sinkIndices := pyRange 0 sinkCount
    if sinkCount < chunkLen then
      sinkIndices ++ (argsort.run (scores.drop sinkCount.toNat)).map fun i : Nat => i + sinkCount
    else sinkIndices

variable [Zero α]

/-- The scores a chunk is ranked by: its own when there are `chunk_len` of them, else zeros. -/
def chunkScores (scores : Option (List α)) (chunkLen : Int) : List α :=
  match scores with
  | some s => if (s.length : Int) = chunkLen then s else List.replicate chunkLen.toNat 0
  | none => List.replicate chunkLen.toNat 0

/-- `_rank_scores_by_layer(scores_by_layer_chunk, doc_chunk_lengths, n_sink)`. -/
def rankScoresByLayer (scoresByLayerChunk : List (List (List α))) (docChunkLengths : List Int)
    (nSink : Int) : List (List (List Int)) :=
  scoresByLayerChunk.map fun layerScores => [] :: docChunkLengths.zipIdx.map fun chunk =>
    if chunk.1 ≤ 0 then []
    else rankFromScores argsort (chunkScores layerScores[chunk.2]? chunk.1) chunk.1 nSink

/-- `_scores_from_kvzip_dict(doc_chunk_lengths, scores_by_layer_chunk, num_layers)`. -/
def scoresFromKvzipDict (docChunkLengths : List Int) (scores : Nat → List (Option (List α)))
    (numLayers : Int) : List (List (List α)) :=
  (List.range numLayers.toNat).map fun layerId => docChunkLengths.zipIdx.map fun chunk =>
    if chunk.1 ≤ 0 then []
    else chunkScores ((scores layerId)[chunk.2]?).join chunk.1

theorem length_chunkScores (scores : Option (List α)) {chunkLen : Int} (h : 0 ≤ chunkLen) :
    ((chunkScores scores chunkLen).length : Int) = chunkLen := by
  unfold chunkScores
  split
  · split
    next hlen => exact hlen
    next => rw [List.length_replicate]; omega
  · rw [List.length_replicate]
    omega

omit [Zero α] in
/-- A ranking lists every local index of the chunk once. -/
theorem rankFromScores_perm {scores : List α} {chunkLen : Int} (nSink : Int)
    (hpos : 0 < chunkLen) (hlen : (scores.length : Int) = chunkLen) :
    (rankFromScores argsort scores chunkLen nSink).Perm (pyRange 0 chunkLen) := by
  have hsplit : ∀ s : Int, 0 ≤ s → s ≤ chunkLen →
      pyRange 0 chunkLen = pyRange 0 s ++ (List.range (chunkLen - s).toNat).map fun i : Nat =>
        (i : Int) + s := by
    intro s hs0 hs
    have hadd : (chunkLen - 0).toNat = (s - 0).toNat + (chunkLen - s).toNat := by omega
    rw [pyRange, pyRange, hadd, List.range_add, List.map_append, List.map_map]
    congr 1
    refine List.map_congr_left fun i _ => ?_
    simp only [Function.comp_apply]
    omega
  rw [rankFromScores, if_neg (by omega)]
  simp only
  split
  next hlt =>
    rw [hsplit (min (max nSink 0) chunkLen) (by omega) (by omega)]
    have hdrop : (scores.drop (min (max nSink 0) chunkLen).toNat).length =
        (chunkLen - min (max nSink 0) chunkLen).toNat := by
      rw [List.length_drop]
      omega
    have hperm := (argsort.perm (scores.drop (min (max nSink 0) chunkLen).toNat)).map
      fun i : Nat => (i : Int) + min (max nSink 0) chunkLen
    rw [hdrop] at hperm
    exact hperm.append_left _
  next hge =>
    have hall : min (max nSink 0) chunkLen = chunkLen := by omega
    rw [hall]

end Ranking

/-! ## `build_all_indices` -/

/-- What `build_all_indices` reads of `blend_info`; `attNumLayers` is `att_params.num_layers`. -/
structure DigestParams where
  attNumLayers : Option Int
  qcomputeEnd : Option Int
  digestRatio : Option Rat
  digestIndexMethod : Json
  criticalLayers : List Int
  digestOriginalChunkLocList : Option (List Int)
  chunkLocList : List Int
  contextNSink : Option Int

/-- `_metadata` and `_indices_by_method`. -/
structure DigestIndex where
  metadata : List (String × Json)
  indicesByMethod : List (String × Json)

/-- `int(getattr(blend_info, "qcompute_end", None) or num_layers)`, clamped to the layers. -/
def clampedQcomputeEnd (qcomputeEnd : Option Int) (numLayers : Int) : Int :=
  let wanted := match qcomputeEnd with
    | some n => if n = 0 then numLayers else n
    | none => numLayers
  max 0 (min wanted numLayers)

def Json.ofIntLists (xss : List (List Int)) : Json := .arr (xss.map .ofInts)

def Json.ofRanges (ranges : List (Int × Int)) : Json :=
  .arr (ranges.map fun r => .ofInts [r.1, r.2])

/-- The metadata both branches write, up to the ranges and token count. -/
def digestMetadata (ranges : List (Int × Int)) (totalTokens numLayers : Int) (digestRatio : Rat)
    (method : String) (criticalLayers : List Int) : List (String × Json) :=
  [("digest_index_version", .int digestIndexVersion), ("orig_chunk_ranges", .ofRanges ranges),
    ("total_tokens", .int totalTokens), ("available_methods", .arr [.str method]),
    ("layer_wise", .bool true), ("num_layers", .int numLayers),
    ("digest_ratio", .float digestRatio), ("digest_index_method", .str method),
    ("critical_layers", .ofInts criticalLayers), ("qcompute_end", .int numLayers),
    ("materialized_digest", .bool true)]

/-- `build_all_indices`, on the pool `ContextBlendPool.clear()` left. `poolLayers` is
`len(HackBlendKVPool.k_buffer)`. -/
def buildAllIndices {α : Type} [Zero α] (argsort : ArgSort α) (params : DigestParams)
    (poolLayers : Nat) (kvzipScores : Nat → List (Option (List α))) (pool : ContextPool) :
    Py (DigestIndex × ContextPool) := do
  let fullNumLayers := params.attNumLayers.getD poolLayers
  let numLayers := clampedQcomputeEnd params.qcomputeEnd fullNumLayers
  let digestRatio := params.digestRatio.getD defaultDigestRatio
  let method ← normalizeMethod params.digestIndexMethod
  let originalLocs := params.digestOriginalChunkLocList.getD params.chunkLocList
  let originalRanges := chunkAbsRanges originalLocs
  match originalRanges.getLast? with
  | none =>
    let metadata := digestMetadata [] 0 numLayers digestRatio method params.criticalLayers
    let index : Json := .obj [("digest_index_version", .int digestIndexVersion),
      ("method", .str method), ("ranked_indices_by_chunk", .arr []),
      ("ranked_indices_by_layer_chunk", .arr [])]
    return (⟨metadata ++ [("context_positions_by_layer", .arr [])], [(method, index)]⟩,
      pool.setIndexMetadata [] [] [] 0 numLayers)
  | some queryRange =>
    let docOriginalRanges := (originalRanges.drop 1).dropLast
    let docChunkLengths := docOriginalRanges.map fun r => r.2 - r.1
    let totalTokens := queryRange.1
    let nSink := max 0 (params.contextNSink.getD 0)
    let scores := scoresFromKvzipDict docChunkLengths kvzipScores numLayers
    let selectedIndex := rankScoresByLayer argsort scores docChunkLengths nSink
    let rankedShared := selectedIndex.headD []
    let metadata := digestMetadata originalRanges totalTokens numLayers digestRatio method
      params.criticalLayers
    let index : Json := .obj [("digest_index_version", .int digestIndexVersion),
      ("method", .str method), ("ranked_indices_by_chunk", .ofIntLists rankedShared),
      ("ranked_indices_by_layer_chunk", .arr (selectedIndex.map .ofIntLists)),
      ("layer_wise", .bool true), ("context_n_sink", .int nSink),
      ("score_reduce", .str "max_head_query")]
    let pool := (pool.setIndexMetadata rankedShared selectedIndex originalRanges.dropLast
      totalTokens numLayers).buildContextPositions digestRatio
    return (⟨metadata ++ [("context_positions_by_layer",
      .ofIntLists pool.contextPositionsByLayer)], [(method, index)]⟩, pool)

/-- `export_payload(method)`: the metadata and the one index asked for. -/
def exportPayload (index : DigestIndex) (method : Json) :
    Py (List (String × Json) × List (String × Json)) :=
  if index.metadata = [] ∨ index.indicesByMethod = [] then
    .error (.valueError "Digest indices have not been built")
  else do
    let wanted := if method.truthy then method
      else (Json.lookup? "digest_index_method" index.metadata).getD .null
    let name ← normalizeMethod wanted
    match Json.lookup? name index.indicesByMethod with
    | some payload => return (index.metadata, [(name, payload)])
    | none => .error (.valueError "Digest method is not available")

/-- With one method built, the payload is everything that was built. -/
theorem exportPayload_single {index : DigestIndex} {method payload : Json}
    {digestMeta indicesByMethod : List (String × Json)}
    (hindex : index.indicesByMethod = [(digestIndexMethod, payload)])
    (h : exportPayload index method = .ok (digestMeta, indicesByMethod)) :
    digestMeta = index.metadata ∧ indicesByMethod = index.indicesByMethod := by
  unfold exportPayload at h
  split at h
  next => cases h
  next =>
    obtain ⟨name, hname, h⟩ := bind_ok h
    obtain rfl := normalizeMethod_ok hname
    have hlook : Json.lookup? digestIndexMethod index.indicesByMethod = some payload := by
      rw [hindex, Json.lookup?, if_pos rfl]
    rw [hlook] at h
    cases h
    exact ⟨rfl, hindex.symm⟩

end QCFuse.Source
