import QCFuse.Guarantees.DigestPairing
import QCFuse.Library.Intervals

/-!
# The digest holds the best-scored tokens

A ranking lists the sinks of a chunk and then the other tokens from the highest score down. What a
layer keeps of a document chunk is as much of the ranking as the ratio asks for.
-/

set_option autoImplicit false

namespace QCFuse.Guarantees

open QCFuse.Library QCFuse.Source

section Statements

variable {α : Type} [LE α]

/-- The scores never rise along the indices. -/
def NonIncreasing (scores : List α) (indices : List Nat) : Prop :=
  indices.Pairwise fun i j => ∀ a b, scores[i]? = some a → scores[j]? = some b → b ≤ a

/-- What is documented of `torch.argsort(descending=True)`: the indices sort the scores. -/
def SortsDescending (argsort : ArgSort α) : Prop :=
  ∀ scores : List α, NonIncreasing scores (argsort.run scores)

/-- `sink_count`. -/
def sinkCount (chunkLen nSink : Int) : Int := min (max nSink 0) chunkLen

/-- Every local index once: the sinks in order, then the others by their scores. -/
structure RanksBest (scores : List α) (chunkLen nSink : Int) (ranking : List Int) : Prop where
  perm : ranking.Perm (pyRange 0 chunkLen)
  sinks : ranking.take (sinkCount chunkLen nSink).toNat = pyRange 0 (sinkCount chunkLen nSink)
  rest : NonIncreasing scores ((ranking.drop (sinkCount chunkLen nSink).toNat).map Int.toNat)

end Statements

/-- `ceil(chunk_len * clamp(ratio, 0, 1))`. -/
def digestSize (range : Int × Int) (digestRatio : Rat) : Int :=
  ⌈((range.2 - range.1 : Int) : Rat) * min 1 (max 0 digestRatio)⌉

/-- What is kept of a chunk, in increasing order: a prefix of its ranking of the size asked for. -/
structure KeepsBest (ranking : List Int) (range : Int × Int) (digestRatio : Rat) (kept : List Int) :
    Prop where
  count : (kept.length : Int) = digestSize range digestRatio
  increasing : kept.Pairwise (· < ·)
  best : ∀ t, t ∈ kept ↔ t - range.1 ∈ ranking.take (digestSize range digestRatio).toNat

/-! ## The ranking -/

section Ranking

variable {α : Type} [LE α] {argsort : ArgSort α}

theorem rankFromScores_best (hsort : SortsDescending argsort) {scores : List α} {chunkLen : Int}
    (nSink : Int) (hlen : (scores.length : Int) = chunkLen) :
    RanksBest scores chunkLen nSink (rankFromScores argsort scores chunkLen nSink) := by
  rcases Int.lt_or_le 0 chunkLen with hpos | hnone
  · have hsink : 0 ≤ sinkCount chunkLen nSink ∧ sinkCount chunkLen nSink ≤ chunkLen := by
      unfold sinkCount
      omega
    refine ⟨rankFromScores_perm argsort nSink hpos hlen, ?_, ?_⟩
    · rw [rankFromScores, if_neg (by omega)]
      dsimp only
      rw [← sinkCount]
      split
      next => exact List.take_left' (by rw [length_pyRange, Int.sub_zero])
      next => exact List.take_of_length_le (by rw [length_pyRange, Int.sub_zero])
    · rw [rankFromScores, if_neg (by omega)]
      dsimp only
      rw [← sinkCount]
      split
      next =>
        rw [List.drop_left' (by rw [length_pyRange, Int.sub_zero]), List.map_map, NonIncreasing,
          List.pairwise_map]
        refine (hsort (scores.drop (sinkCount chunkLen nSink).toNat)).imp fun {i j} hij a b ha hb => ?_
        have hshift : ∀ k : Nat, (Int.toNat ∘ fun i : Nat => (i : Int) + sinkCount chunkLen nSink) k =
            (sinkCount chunkLen nSink).toNat + k := fun k => by
          rw [Function.comp_apply]
          omega
        rw [hshift] at ha hb
        exact hij a b (by rw [List.getElem?_drop, ha]) (by rw [List.getElem?_drop, hb])
      next =>
        rw [List.drop_of_length_le (by rw [length_pyRange, Int.sub_zero])]
        exact .nil
  · have hnil : rankFromScores argsort scores chunkLen nSink = [] := by rw [rankFromScores, if_pos hnone]
    have hsink : sinkCount chunkLen nSink ≤ 0 := by
      unfold sinkCount
      omega
    rw [hnil]
    refine ⟨?_, ?_, ?_⟩
    · rw [pyRange_eq_nil hnone]
    · rw [pyRange_eq_nil hsink, List.take_nil]
    · rw [List.drop_nil]
      exact .nil

end Ranking

/-- Where `build_all_indices` puts the ranking of document chunk `i`. -/
theorem rankedIndicesForLayer_scores {α : Type} [Zero α] (argsort : ArgSort α)
    {scoresByLayer : List (List (List α))} {docLens : List Int} {layerScores : List (List α)}
    {scores : List α} {layerId i : Nat} (nSink : Int) (hlayer : scoresByLayer[layerId]? = some layerScores)
    (hscores : layerScores[i]? = some scores) (hdoc : docLens[i]? = some (scores.length : Int))
    (pool : ContextPool) (shared : List (List Int)) (ranges : List (Int × Int)) (total layers : Int) :
    ((pool.setIndexMetadata shared (rankScoresByLayer argsort scoresByLayer docLens nSink) ranges total
      layers).rankedIndicesForLayer layerId)[i + 1]? =
      some (rankFromScores argsort scores scores.length nSink) := by
  rw [ContextPool.rankedIndicesForLayer, ContextPool.setIndexMetadata]
  dsimp only
  rw [rankScoresByLayer, List.getElem?_map, hlayer, Option.map_some, Option.getD_some,
    List.getElem?_cons_succ, List.getElem?_map, List.getElem?_zipIdx, hdoc, Option.map_some,
    Option.map_some, Nat.zero_add, hscores]
  dsimp only
  rw [chunkScores, if_pos rfl]
  split
  next hnone => rw [rankFromScores, if_pos hnone]
  next => rfl

/-! ## What a chunk contributes -/

theorem mem_selectUnseen {chunkLen t : Int} {seen xs : List Int} :
    t ∈ ContextPool.selectUnseen chunkLen seen xs ↔ t ∈ xs ∧ t ∉ seen ∧ 0 ≤ t ∧ t < chunkLen := by
  induction xs generalizing seen with
  | nil => simp [ContextPool.selectUnseen]
  | cons x xs ih =>
    rw [ContextPool.selectUnseen]
    split
    next hskip =>
      rw [ih, List.mem_cons]
      refine ⟨fun h => ⟨.inr h.1, h.2⟩, fun h => ⟨?_, h.2⟩⟩
      obtain ⟨hmem, hrest⟩ := h
      rcases hmem with rfl | hmem
      · obtain ⟨hseen, hlo, hhi⟩ := hrest
        rcases hskip with h | h | h
        · exact absurd h hseen
        · omega
        · omega
      · exact hmem
    next htake =>
      rw [not_or, not_or] at htake
      obtain ⟨hnew, hlo, hhi⟩ := htake
      rw [List.mem_cons, ih, List.mem_cons, List.mem_cons, not_or]
      by_cases heq : t = x
      · subst heq
        exact ⟨fun _ => ⟨.inl rfl, hnew, by omega, by omega⟩, fun _ => .inl rfl⟩
      · simp [heq]

theorem digestCount_eq (range : Int × Int) (h : 0 ≤ range.2 - range.1) (digestRatio : Rat) :
    ContextPool.digestCount (range.2 - range.1) digestRatio = digestSize range digestRatio := by
  have hlen : (0 : Rat) ≤ ((range.2 - range.1 : Int) : Rat) := Int.cast_nonneg h
  refine min_eq_right (Int.ceil_le.mpr ?_)
  exact mul_le_of_le_one_right hlen (min_le_left _ _)

/-- A document chunk contributes the in-range indices among the first of its ranking. -/
theorem mem_chunkPositions_doc {ranked : List (List Int)} {digestRatio : Rat} {chunkIdx : Nat}
    {range : Int × Int} (hchunk : chunkIdx ≠ 0) {t : Int} :
    t ∈ ContextPool.chunkPositions ranked digestRatio chunkIdx range ↔ Inside range t ∧
      t - range.1 ∈ ((ranked[chunkIdx]?).getD []).take (digestSize range digestRatio).toNat := by
  rw [ContextPool.chunkPositions]
  dsimp only
  split
  next hnone =>
    refine ⟨fun h => absurd h List.not_mem_nil, ?_⟩
    rintro ⟨⟨hlo, hhi⟩, -⟩
    omega
  next hlen =>
    rw [digestCount_eq range (by omega), List.mem_map]
    constructor
    · rintro ⟨idx, hidx, rfl⟩
      obtain ⟨hmem, -, hlo, hhi⟩ := mem_selectUnseen.mp ((List.perm_insertionSort _ _).mem_iff.mp hidx)
      refine ⟨⟨by omega, by omega⟩, ?_⟩
      rwa [add_sub_cancel_left]
    · rintro ⟨⟨hlo, hhi⟩, hmem⟩
      refine ⟨t - range.1, ?_, by omega⟩
      rw [(List.perm_insertionSort _ _).mem_iff, mem_selectUnseen]
      exact ⟨hmem, List.not_mem_nil, by omega, by omega⟩

theorem chunkPositions_first (ranked : List (List Int)) (digestRatio : Rat) (range : Int × Int) :
    ContextPool.chunkPositions ranked digestRatio 0 range = pyRange range.1 range.2 := by
  rw [ContextPool.chunkPositions]
  dsimp only
  split
  next hnone => rw [pyRange_eq_nil (by omega)]
  next => rw [if_pos rfl]

theorem inside_of_mem_chunkPositions {ranked : List (List Int)} {digestRatio : Rat} {chunkIdx : Nat}
    {range : Int × Int} {t : Int} (h : t ∈ ContextPool.chunkPositions ranked digestRatio chunkIdx range) :
    Inside range t := by
  by_cases hchunk : chunkIdx = 0
  · rw [hchunk, chunkPositions_first] at h
    exact mem_pyRange.mp h
  · exact ((mem_chunkPositions_doc hchunk).mp h).1

/-- A ranking that lists every local index once is kept up to the size asked for. -/
theorem chunkPositions_best {ranked : List (List Int)} (digestRatio : Rat) {chunkIdx : Nat}
    {range : Int × Int} {ranking : List Int} (hchunk : chunkIdx ≠ 0)
    (hranked : ranked[chunkIdx]? = some ranking) (hlen : 0 ≤ range.2 - range.1)
    (hperm : ranking.Perm (pyRange 0 (range.2 - range.1))) :
    KeepsBest ranking range digestRatio (ContextPool.chunkPositions ranked digestRatio chunkIdx range) := by
  have hcount := digestCount_eq range hlen digestRatio
  have hbounds := ContextPool.digestCount_bounds hlen digestRatio
  have hmem : ∀ t, t ∈ ContextPool.chunkPositions ranked digestRatio chunkIdx range ↔
      t - range.1 ∈ ranking.take (digestSize range digestRatio).toNat := by
    intro t
    rw [mem_chunkPositions_doc hchunk, hranked, Option.getD_some]
    refine ⟨And.right, fun h => ⟨?_, h⟩⟩
    have := mem_pyRange.mp (hperm.mem_iff.mp (List.mem_of_mem_take h))
    exact ⟨by omega, by omega⟩
  rcases Int.lt_or_le 0 (range.2 - range.1) with hpos | hnone
  · obtain ⟨hsorted, -, hlength⟩ := ContextPool.chunkPositions_doc digestRatio range hchunk hpos hranked hperm
    refine ⟨?_, hsorted, hmem⟩
    rw [hlength, ← hcount]
    omega
  · have hnil := chunkPositions_nonpos ranked digestRatio chunkIdx hnone
    refine ⟨?_, ?_, hmem⟩
    · rw [hnil, List.length_nil]
      omega
    · rw [hnil]
      exact .nil

/-! ## A layer's positions -/

section Layer

variable {pool : ContextPool} {layerId : Nat} {digestRatio : Rat}

theorem mem_buildContextPositions {t : Int} :
    t ∈ pool.buildContextPositionsForLayer layerId digestRatio ↔
      ∃ entry ∈ pool.origChunkRanges.zipIdx, t ∈ ContextPool.chunkPositions
        (pool.rankedIndicesForLayer layerId) digestRatio entry.2 entry.1 := by
  rw [ContextPool.buildContextPositionsForLayer, ← List.flatMap_def, List.mem_flatMap]

/-- The chunks before and behind a chunk do not reach into it. -/
theorem buildContextPositions_split {chunkIdx : Nat} {range : Int × Int}
    (hrange : pool.origChunkRanges[chunkIdx]? = some range) :
    ∃ front back, pool.buildContextPositionsForLayer layerId digestRatio = front ++
        ContextPool.chunkPositions (pool.rankedIndicesForLayer layerId) digestRatio chunkIdx range ++ back ∧
      (pool.origChunkRanges.Pairwise (fun c d => c.2 ≤ d.1) → ∀ t ∈ front ++ back, ¬ Inside range t) := by
  have hlt : chunkIdx < pool.origChunkRanges.zipIdx.length := by
    rw [List.length_zipIdx]
    exact (List.getElem?_eq_some_iff.mp hrange).1
  have hentry : pool.origChunkRanges.zipIdx[chunkIdx] = (range, chunkIdx) := by
    rw [List.getElem_zipIdx, Nat.zero_add, (List.getElem?_eq_some_iff.mp hrange).2]
  have hsplit : pool.origChunkRanges.zipIdx = pool.origChunkRanges.zipIdx.take chunkIdx ++
      (range, chunkIdx) :: pool.origChunkRanges.zipIdx.drop (chunkIdx + 1) := by
    rw [← hentry, ← List.drop_eq_getElem_cons hlt, List.take_append_drop]
  let part := fun entry : (Int × Int) × Nat => ContextPool.chunkPositions
    (pool.rankedIndicesForLayer layerId) digestRatio entry.2 entry.1
  refine ⟨(pool.origChunkRanges.zipIdx.take chunkIdx).flatMap part,
    (pool.origChunkRanges.zipIdx.drop (chunkIdx + 1)).flatMap part, ?_, fun hordered t ht => ?_⟩
  · have hflat := congrArg (List.flatMap part) hsplit
    rw [List.flatMap_append, List.flatMap_cons, ← List.append_assoc] at hflat
    rw [ContextPool.buildContextPositionsForLayer, ← List.flatMap_def]
    exact hflat
  · have hpairs : pool.origChunkRanges.zipIdx.Pairwise fun c d => c.1.2 ≤ d.1.1 := by
      have hmap : (pool.origChunkRanges.zipIdx.map Prod.fst).Pairwise fun c d => c.2 ≤ d.1 := by
        rwa [List.zipIdx_map_fst]
      exact List.pairwise_map.mp hmap
    rw [hsplit, List.pairwise_append, List.pairwise_cons] at hpairs
    obtain ⟨-, ⟨hbehind, -⟩, hbefore⟩ := hpairs
    rintro ⟨hlo, hhi⟩
    rcases List.mem_append.mp ht with ht | ht
    · obtain ⟨entry, hmem, ht⟩ := List.mem_flatMap.mp ht
      have hends := hbefore entry hmem _ List.mem_cons_self
      have hin := inside_of_mem_chunkPositions ht
      dsimp only [Inside] at hends hin
      omega
    · obtain ⟨entry, hmem, ht⟩ := List.mem_flatMap.mp ht
      have hstarts := hbehind entry hmem
      have hin := inside_of_mem_chunkPositions ht
      dsimp only [Inside] at hstarts hin
      omega

/-- The first chunk stands in front as a whole. -/
theorem buildContextPositions_first {range : Int × Int} (hrange : pool.origChunkRanges[0]? = some range) :
    pyRange range.1 range.2 <+: pool.buildContextPositionsForLayer layerId digestRatio := by
  rw [ContextPool.buildContextPositionsForLayer]
  cases hranges : pool.origChunkRanges with
  | nil =>
    rw [hranges] at hrange
    cases hrange
  | cons first rest =>
    rw [hranges] at hrange
    obtain rfl : first = range := Option.some.inj hrange
    rw [List.zipIdx_cons, List.map_cons, List.flatten_cons, chunkPositions_first]
    exact List.prefix_append _ _

/-- No token outside the recorded ranges is kept. -/
theorem buildContextPositions_inside {t : Int}
    (h : t ∈ pool.buildContextPositionsForLayer layerId digestRatio) :
    ∃ range ∈ pool.origChunkRanges, Inside range t := by
  obtain ⟨entry, hentry, ht⟩ := mem_buildContextPositions.mp h
  exact ⟨entry.1, List.fst_mem_of_mem_zipIdx hentry, inside_of_mem_chunkPositions ht⟩

theorem digestSize_mono {range : Int × Int} (hlen : 0 ≤ range.2 - range.1) {digestRatio' : Rat}
    (h : digestRatio ≤ digestRatio') : digestSize range digestRatio ≤ digestSize range digestRatio' := by
  refine Int.ceil_le_ceil (mul_le_mul_of_nonneg_left ?_ (Int.cast_nonneg hlen))
  exact min_le_min_left 1 (max_le_max_left 0 h)

/-- A higher ratio keeps every token a lower one keeps. -/
theorem buildContextPositions_mono {digestRatio' : Rat} (h : digestRatio ≤ digestRatio') :
    pool.buildContextPositionsForLayer layerId digestRatio ⊆
      pool.buildContextPositionsForLayer layerId digestRatio' := by
  intro t ht
  obtain ⟨entry, hentry, ht⟩ := mem_buildContextPositions.mp ht
  refine mem_buildContextPositions.mpr ⟨entry, hentry, ?_⟩
  by_cases hchunk : entry.2 = 0
  · rw [hchunk, chunkPositions_first] at ht ⊢
    exact ht
  · rw [mem_chunkPositions_doc hchunk] at ht ⊢
    obtain ⟨⟨hlo, hhi⟩, hmem⟩ := ht
    have hsize : digestSize entry.1 digestRatio ≤ digestSize entry.1 digestRatio' :=
      digestSize_mono (by omega) h
    exact ⟨⟨hlo, hhi⟩, (List.take_sublist_take_left (by omega)).subset hmem⟩

end Layer

/-- The ranking of a document chunk is by score, and what a layer keeps of the chunk is the first of
it; the first chunk is kept whole and nothing else is kept. -/
theorem digest_choice_best {α : Type} [LinearOrder α] [Zero α] {argsort : ArgSort α}
    (hsort : SortsDescending argsort) (scores : List α) (nSink : Int) :
    RanksBest scores scores.length nSink (rankFromScores argsort scores scores.length nSink) ∧
    (∀ scoresByLayer docLens layerScores layerId i, scoresByLayer[layerId]? = some layerScores →
      layerScores[i]? = some scores → docLens[i]? = some (scores.length : Int) →
      ∀ (pool : ContextPool) shared ranges total layers,
        ((pool.setIndexMetadata shared (rankScoresByLayer argsort scoresByLayer docLens nSink) ranges total
          layers).rankedIndicesForLayer layerId)[i + 1]? =
          some (rankFromScores argsort scores scores.length nSink)) ∧
    (∀ (pool : ContextPool) layerId chunkIdx (range : Int × Int), chunkIdx ≠ 0 →
      pool.origChunkRanges[chunkIdx]? = some range → range.2 - range.1 = scores.length →
      (pool.rankedIndicesForLayer layerId)[chunkIdx]? =
        some (rankFromScores argsort scores scores.length nSink) →
      ∀ digestRatio, ∃ front kept back,
        pool.buildContextPositionsForLayer layerId digestRatio = front ++ kept ++ back ∧
        KeepsBest (rankFromScores argsort scores scores.length nSink) range digestRatio kept ∧
        (pool.origChunkRanges.Pairwise (fun c d => c.2 ≤ d.1) → ∀ t ∈ front ++ back, ¬ Inside range t)) ∧
    ∀ (pool : ContextPool) layerId digestRatio,
      (∀ range, pool.origChunkRanges[0]? = some range →
        pyRange range.1 range.2 <+: pool.buildContextPositionsForLayer layerId digestRatio) ∧
      (∀ t ∈ pool.buildContextPositionsForLayer layerId digestRatio,
        ∃ range ∈ pool.origChunkRanges, Inside range t) ∧
      ∀ digestRatio', digestRatio ≤ digestRatio' →
        pool.buildContextPositionsForLayer layerId digestRatio ⊆
          pool.buildContextPositionsForLayer layerId digestRatio' := by
  have hbest := rankFromScores_best hsort nSink (rfl : (scores.length : Int) = scores.length)
  refine ⟨hbest, ?_, ?_, ?_⟩
  · intro scoresByLayer docLens layerScores layerId i hlayer hscores hdoc pool shared ranges total layers
    exact rankedIndicesForLayer_scores argsort nSink hlayer hscores hdoc pool shared ranges total layers
  · intro pool layerId chunkIdx range hchunk hrange hlen hranked digestRatio
    obtain ⟨front, back, hsplit, houtside⟩ := buildContextPositions_split hrange
    refine ⟨front, _, back, hsplit, ?_, houtside⟩
    refine chunkPositions_best digestRatio hchunk hranked (by omega) ?_
    rw [hlen]
    exact hbest.perm
  · intro pool layerId digestRatio
    exact ⟨fun range => buildContextPositions_first, fun t => buildContextPositions_inside,
      fun digestRatio' => buildContextPositions_mono⟩

theorem descendingArgSort_sorts : SortsDescending descendingArgSort := by
  intro scores
  have hsorted : (descendingArgSort.run scores).Pairwise fun i j =>
      decide (scores.getD j 0 ≤ scores.getD i 0) = true := by
    refine List.pairwise_mergeSort ?_ ?_ _
    · intro i j k hij hjk
      simp only [decide_eq_true_eq] at hij hjk ⊢
      exact hjk.trans hij
    · intro i j
      simp only [Bool.or_eq_true, decide_eq_true_eq]
      exact le_total _ _
  refine hsorted.imp fun {i j} hij a b ha hb => ?_
  have hle := of_decide_eq_true hij
  rwa [List.getD_eq_getElem?_getD, List.getD_eq_getElem?_getD, ha, hb] at hle

/-- A document of four tokens with one sink, at half the ratio. -/
theorem digest_choice_fourTokens :
    let pool : ContextPool := { ContextPool.cleared with
      rankedIndicesByChunk := [[], rankFromScores descendingArgSort [1, 5, 3, 7] 4 1]
      origChunkRanges := [(0, 2), (2, 6)] }
    ∃ front kept back, pool.buildContextPositionsForLayer 0 (1 / 2) = front ++ kept ++ back ∧
      KeepsBest (rankFromScores descendingArgSort [1, 5, 3, 7] 4 1) (2, 6) (1 / 2) kept ∧
      (pool.origChunkRanges.Pairwise (fun c d => c.2 ≤ d.1) → ∀ t ∈ front ++ back, ¬ Inside (2, 6) t) :=
  (digest_choice_best descendingArgSort_sorts [1, 5, 3, 7] 1).2.2.1 _ 0 1 (2, 6) (by decide) rfl rfl rfl (1 / 2)

end QCFuse.Guarantees
