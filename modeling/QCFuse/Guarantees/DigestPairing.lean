import QCFuse.Guarantees.PromptLayout
import QCFuse.Guarantees.QueryCacheRoundTrip
import QCFuse.Source.CacheBlender

/-!
# Offline-to-online digest pairing

Row `j` of the digest K/V stored for a layer is the forward row of the original-prompt token
whose position is entry `j` of the positions the online request restores.
-/

set_option autoImplicit false

namespace QCFuse.Guarantees

open QCFuse.Library QCFuse.Source

/-! ## Chunk ranges and the positions chosen in them -/

/-- Consecutive ranges of the given lengths. -/
def rangesFrom : Int → List Int → List (Int × Int)
  | _, [] => []
  | base, len :: lens => (base, base + len) :: rangesFrom (base + len) lens

theorem chunkAbsRanges_cumsumLens (lens : List Int) :
    chunkAbsRanges (cumsumLens lens) = rangesFrom 0 lens := by
  have hwalk : ∀ (base : Int) (xs : List Int),
      (base :: cumsumFrom base xs).zip (cumsumFrom base xs) = rangesFrom base xs := by
    intro base xs
    induction xs generalizing base with
    | nil => rfl
    | cons x xs ih => rw [cumsumFrom, List.zip_cons_cons, ih, rangesFrom]
  exact hwalk 0 lens

theorem length_rangesFrom (base : Int) (lens : List Int) :
    (rangesFrom base lens).length = lens.length := by
  induction lens generalizing base with
  | nil => rfl
  | cons len lens ih => rw [rangesFrom, List.length_cons, ih, List.length_cons]

theorem rangesFrom_append (base : Int) (xs ys : List Int) :
    rangesFrom base (xs ++ ys) = rangesFrom base xs ++ rangesFrom (base + xs.sum) ys := by
  induction xs generalizing base with
  | nil => simp [rangesFrom]
  | cons x xs ih => simp only [List.cons_append, rangesFrom, ih, List.sum_cons, Int.add_assoc]

theorem rangesFrom_lens (base : Int) (lens : List Int) :
    (rangesFrom base lens).map (fun r => r.2 - r.1) = lens := by
  induction lens generalizing base with
  | nil => rfl
  | cons len lens ih =>
    rw [rangesFrom, List.map_cons, ih]
    congr 1
    simp only
    omega

/-- The positions chosen in consecutive chunks numbered from `chunkIdx`. -/
def positionsFrom (ranked : List (List Int)) (digestRatio : Rat) (chunkIdx : Nat)
    (ranges : List (Int × Int)) : List Int :=
  ((ranges.zipIdx chunkIdx).map fun entry =>
    ContextPool.chunkPositions ranked digestRatio entry.2 entry.1).flatten

theorem positionsFrom_cons (ranked : List (List Int)) (digestRatio : Rat) (chunkIdx : Nat)
    (range : Int × Int) (ranges : List (Int × Int)) :
    positionsFrom ranked digestRatio chunkIdx (range :: ranges) =
      ContextPool.chunkPositions ranked digestRatio chunkIdx range ++
        positionsFrom ranked digestRatio (chunkIdx + 1) ranges := by
  rw [positionsFrom, List.zipIdx_cons, List.map_cons, List.flatten_cons, positionsFrom]

/-- Every document chunk with tokens has a ranking that lists each local index once. -/
def RanksChunks (ranked : List (List Int)) (firstIdx : Nat) (lens : List Int) : Prop :=
  ∀ (i : Nat) (h : i < lens.length), 0 < lens[i] →
    ∃ order, ranked[firstIdx + i]? = some order ∧ order.Perm (pyRange 0 lens[i])

theorem digestCount_nonpos {len : Int} (h : len ≤ 0) (digestRatio : Rat) :
    (ContextPool.digestCount len digestRatio).toNat = 0 := by
  rw [ContextPool.digestCount]
  omega

theorem chunkPositions_nonpos (ranked : List (List Int)) (digestRatio : Rat) (chunkIdx : Nat)
    {range : Int × Int} (h : range.2 - range.1 ≤ 0) :
    ContextPool.chunkPositions ranked digestRatio chunkIdx range = [] := by
  simp only [ContextPool.chunkPositions]
  rw [if_pos h]

/-- Positions in document chunks increase strictly, stay inside the chunks, and their number
does not depend on the ranking. -/
theorem positionsFrom_docs (ranked : List (List Int)) (digestRatio : Rat) (chunkIdx : Nat)
    (hchunk : 0 < chunkIdx) (base : Int) {lens : List Int} (hlens : ∀ len ∈ lens, 0 ≤ len)
    (hranked : RanksChunks ranked chunkIdx lens) :
    (positionsFrom ranked digestRatio chunkIdx (rangesFrom base lens)).Pairwise (· < ·) ∧
      (∀ p ∈ positionsFrom ranked digestRatio chunkIdx (rangesFrom base lens),
        base ≤ p ∧ p < base + lens.sum) ∧
      (positionsFrom ranked digestRatio chunkIdx (rangesFrom base lens)).length =
        (lens.map fun len => (ContextPool.digestCount len digestRatio).toNat).sum := by
  induction lens generalizing chunkIdx base with
  | nil =>
    exact ⟨List.Pairwise.nil, fun p hp => absurd hp List.not_mem_nil, rfl⟩
  | cons len lens ih =>
    have hlen0 := hlens len List.mem_cons_self
    have htail0 : 0 ≤ lens.sum := List.sum_nonneg fun x hx => hlens x (List.mem_cons_of_mem _ hx)
    obtain ⟨hsorted, hbounds, hcount⟩ := ih (chunkIdx + 1) (by omega) (base + len)
      (fun x hx => hlens x (List.mem_cons_of_mem _ hx)) (fun i hi hpos => by
        obtain ⟨order, horder, hperm⟩ := hranked (i + 1) (by simpa using hi) hpos
        exact ⟨order, by rw [← horder]; congr 1; omega, hperm⟩)
    have hdiff : base + len - base = len := by omega
    have hhead : (ContextPool.chunkPositions ranked digestRatio chunkIdx
        (base, base + len)).Pairwise (· < ·) ∧
        (∀ p ∈ ContextPool.chunkPositions ranked digestRatio chunkIdx (base, base + len),
          base ≤ p ∧ p < base + len) ∧
        (ContextPool.chunkPositions ranked digestRatio chunkIdx (base, base + len)).length =
          (ContextPool.digestCount len digestRatio).toNat := by
      by_cases hpos : 0 < len
      · obtain ⟨order, horder, hperm⟩ := hranked 0 (by simp) hpos
        rw [Nat.add_zero] at horder
        have hdoc := ContextPool.chunkPositions_doc digestRatio (base, base + len) (by omega)
          (by simp only; omega) horder (by simpa [hdiff] using hperm)
        simpa only [hdiff] using hdoc
      · rw [chunkPositions_nonpos _ _ _ (by simp only; omega), digestCount_nonpos (by omega)]
        exact ⟨List.Pairwise.nil, fun p hp => absurd hp List.not_mem_nil, rfl⟩
    obtain ⟨hheadSorted, hheadBounds, hheadCount⟩ := hhead
    rw [rangesFrom, positionsFrom_cons, List.sum_cons]
    refine ⟨?_, ?_, ?_⟩
    · refine List.pairwise_append.mpr ⟨hheadSorted, hsorted, fun a ha b hb => ?_⟩
      have := hheadBounds a ha
      have := hbounds b hb
      omega
    · intro p hp
      rcases List.mem_append.mp hp with hp | hp
      · have := hheadBounds p hp
        omega
      · have := hbounds p hp
        omega
    · rw [List.length_append, hheadCount, hcount, List.map_cons, List.sum_cons]

/-- The system chunk is kept whole in front of the documents' positions. -/
theorem positionsFrom_prompt (ranked : List (List Int)) (digestRatio : Rat) (sysLen : Nat)
    {docLens : List Int} (hlens : ∀ len ∈ docLens, 0 ≤ len)
    (hranked : RanksChunks ranked 1 docLens) :
    (positionsFrom ranked digestRatio 0 (rangesFrom 0 (sysLen :: docLens))).Pairwise (· < ·) ∧
      (∀ p ∈ positionsFrom ranked digestRatio 0 (rangesFrom 0 (sysLen :: docLens)),
        0 ≤ p ∧ p < sysLen + docLens.sum) ∧
      (positionsFrom ranked digestRatio 0 (rangesFrom 0 (sysLen :: docLens))).length =
        sysLen + (docLens.map fun len => (ContextPool.digestCount len digestRatio).toNat).sum := by
  obtain ⟨hsorted, hbounds, hcount⟩ :=
    positionsFrom_docs ranked digestRatio 1 (by omega) (0 + sysLen) hlens hranked
  have hsum : 0 ≤ docLens.sum := List.sum_nonneg hlens
  have hsys : ContextPool.chunkPositions ranked digestRatio 0 (0, 0 + (sysLen : Int)) =
      pyRange 0 sysLen := by
    rw [Int.zero_add]
    by_cases hpos : (sysLen : Int) ≤ 0
    · rw [chunkPositions_nonpos _ _ _ (by simpa using hpos), pyRange_eq_nil hpos]
    · simp only [ContextPool.chunkPositions, Int.sub_zero]
      rw [if_neg hpos, if_pos trivial]
  rw [rangesFrom, positionsFrom_cons, hsys]
  refine ⟨?_, ?_, ?_⟩
  · refine List.pairwise_append.mpr ⟨pairwise_pyRange _ _, hsorted, fun a ha b hb => ?_⟩
    have := mem_pyRange.mp ha
    have := hbounds b hb
    omega
  · intro p hp
    rcases List.mem_append.mp hp with hp | hp
    · have := mem_pyRange.mp hp
      omega
    · have := hbounds p hp
      omega
  · rw [List.length_append, hcount, length_pyRange]
    omega

/-! ## Restored ranges -/

theorem positionsFrom_zero (ranked : List (List Int)) (digestRatio : Rat) (chunkIdx : Nat)
    (base : Int) {lens : List Int} (h : ∀ len ∈ lens, len = 0) :
    positionsFrom ranked digestRatio chunkIdx (rangesFrom base lens) = [] := by
  induction lens generalizing chunkIdx base with
  | nil => rfl
  | cons len lens ih =>
    have hlen := h len List.mem_cons_self
    rw [rangesFrom, positionsFrom_cons, ih _ _ fun x hx => h x (List.mem_cons_of_mem _ hx),
      chunkPositions_nonpos _ _ _ (by simp only; omega), List.nil_append]

theorem le_start_rangesFrom {base : Int} {lens : List Int} (hlens : ∀ len ∈ lens, 0 ≤ len) :
    ∀ r ∈ rangesFrom base lens, base ≤ r.1 := by
  induction lens generalizing base with
  | nil => exact fun r hr => absurd hr List.not_mem_nil
  | cons len lens ih =>
    have hlen := hlens len List.mem_cons_self
    intro r hr
    rw [rangesFrom] at hr
    rcases List.mem_cons.mp hr with rfl | hr
    · exact Int.le_refl _
    · have := ih (fun x hx => hlens x (List.mem_cons_of_mem _ hx)) r hr
      omega

/-- The range filter of the restore drops the query and empty chunks at the end only, so the
chunk numbers and the positions stay the same. -/
theorem positionsFrom_filter (ranked : List (List Int)) (digestRatio : Rat) (chunkIdx : Nat)
    (base : Int) (lens : List Int) (hlens : ∀ len ∈ lens, 0 ≤ len) {queryLen : Int}
    (hquery : 0 ≤ queryLen) (total : Int) (htotal : total = base + lens.sum) :
    positionsFrom ranked digestRatio chunkIdx
        ((rangesFrom base (lens ++ [queryLen])).filter fun r =>
          decide (r.1 < total ∧ r.2 ≤ total)) =
      positionsFrom ranked digestRatio chunkIdx (rangesFrom base lens) := by
  induction lens generalizing chunkIdx base with
  | nil =>
    have hnot : ¬ (base < total ∧ base + queryLen ≤ total) := by
      rw [htotal, List.sum_nil]
      omega
    rw [List.nil_append, rangesFrom, rangesFrom, List.filter_cons_of_neg (by simpa using hnot)]
    rfl
  | cons len lens ih =>
    have hlen := hlens len List.mem_cons_self
    have hrest : ∀ x ∈ lens, 0 ≤ x := fun x hx => hlens x (List.mem_cons_of_mem _ hx)
    have hsum : 0 ≤ lens.sum := List.sum_nonneg hrest
    rw [List.sum_cons] at htotal
    by_cases hlt : base < total
    · have hkeep : base < total ∧ base + len ≤ total := ⟨hlt, by omega⟩
      rw [List.cons_append, rangesFrom, rangesFrom,
        List.filter_cons_of_pos (by simpa using hkeep), positionsFrom_cons, positionsFrom_cons,
        ih _ _ hrest (by omega)]
    · -- nothing is left: this chunk and all later ones are empty
      have hzero : ∀ x ∈ len :: lens, x = 0 := by
        intro x hx
        rcases List.mem_cons.mp hx with rfl | hx
        · omega
        · have hle := List.single_le_sum hrest x hx
          have := hrest x hx
          omega
      have hall : ∀ x ∈ (len :: lens) ++ [queryLen], 0 ≤ x := by
        intro x hx
        rcases List.mem_append.mp hx with hx | hx
        · exact hlens x hx
        · rw [List.mem_singleton.mp hx]
          exact hquery
      have hnone : (rangesFrom base ((len :: lens) ++ [queryLen])).filter (fun r =>
          decide (r.1 < total ∧ r.2 ≤ total)) = [] := by
        refine List.filter_eq_nil_iff.mpr fun r hr => ?_
        have := le_start_rangesFrom hall r hr
        simp only [decide_eq_true_eq]
        omega
      rw [hnone, positionsFrom_zero _ _ _ _ hzero]
      rfl

/-! ## What the offline request builds -/

section Offline

variable {α : Type} [Zero α] (argsort : ArgSort α)

theorem ranksChunks_layer (scores : Nat → List (Option (List α))) (docLens : List Int)
    (nSink numLayers : Int) {l : Nat} (hl : l < numLayers.toNat) :
    ∃ ranking, (rankScoresByLayer argsort (scoresFromKvzipDict docLens scores numLayers) docLens
      nSink)[l]? = some ranking ∧ RanksChunks ranking 1 docLens := by
  have hscores : ∃ layerScores,
      (scoresFromKvzipDict docLens scores numLayers)[l]? = some layerScores := by
    refine ⟨_, List.getElem?_eq_getElem ?_⟩
    rw [scoresFromKvzipDict, List.length_map, List.length_range]
    exact hl
  obtain ⟨layerScores, hscores⟩ := hscores
  refine ⟨[] :: docLens.zipIdx.map fun chunk => if chunk.1 ≤ 0 then []
    else rankFromScores argsort (chunkScores layerScores[chunk.2]? chunk.1) chunk.1 nSink, ?_, ?_⟩
  · rw [rankScoresByLayer, List.getElem?_map, hscores]
    rfl
  · intro i hi hpos
    refine ⟨rankFromScores argsort (chunkScores layerScores[i]? docLens[i]) docLens[i] nSink, ?_,
      rankFromScores_perm argsort nSink hpos (length_chunkScores _ hpos.le)⟩
    rw [Nat.add_comm, List.getElem?_cons_succ, List.getElem?_map, List.getElem?_zipIdx,
      List.getElem?_eq_getElem hi]
    simp only [Option.map_some, Nat.zero_add]
    rw [if_neg (by omega)]

/-- Lengths of the document chunks. -/
def PromptLayout.docLens (layout : PromptLayout) : List Int :=
  layout.docs.map fun d => (d.1 : Int)

theorem PromptLayout.originalLens_eq (layout : PromptLayout) :
    layout.originalLens = ((layout.sysLen : Int) :: layout.docLens) ++ [(layout.queryLen : Int)] :=
  rfl

theorem PromptLayout.docLens_nonneg (layout : PromptLayout) :
    ∀ len ∈ layout.docLens, 0 ≤ len := by
  intro len hlen
  obtain ⟨d, -, rfl⟩ := List.mem_map.mp hlen
  exact Int.natCast_nonneg _

theorem PromptLayout.sum_docLens (layout : PromptLayout) :
    (layout.sysLen : Int) + layout.docLens.sum = layout.totalTokens := by
  have hcast : ∀ docs : List (Nat × Nat), (docs.map fun d => (d.1 : Int)).sum =
      ((docs.map Prod.fst).sum : Nat) := by
    intro docs
    induction docs with
    | nil => rfl
    | cons d docs ih =>
      rw [List.map_cons, List.sum_cons, ih, List.map_cons, List.sum_cons]
      push_cast
      rfl
  rw [docLens, hcast, totalTokens]
  push_cast
  rfl

/-- The rankings of all layers. -/
def layerRankings (params : DigestParams) (scores : Nat → List (Option (List α)))
    (numLayers : Int) (layout : PromptLayout) : List (List (List Int)) :=
  rankScoresByLayer argsort (scoresFromKvzipDict layout.docLens scores numLayers) layout.docLens
    (max 0 (params.contextNSink.getD 0))

/-- The positions of a layer with the given ranking. -/
def digestPositions (ranked : List (List Int)) (digestRatio : Rat) (layout : PromptLayout) :
    List Int :=
  positionsFrom ranked digestRatio 0 (rangesFrom 0 ((layout.sysLen : Int) :: layout.docLens))

/-- The pool `build_all_indices` builds positions from, and the restored one, up to the
ranges. -/
def indexedPool (pool : ContextPool) (rankings : List (List (List Int)))
    (ranges : List (Int × Int)) (layout : PromptLayout) (numLayers : Int) : ContextPool :=
  pool.setIndexMetadata (rankings.headD []) rankings ranges layout.totalTokens numLayers

theorem buildAllIndices_layout {params : DigestParams} {poolLayers : Nat}
    {scores : Nat → List (Option (List α))} {layout : PromptLayout} {index : DigestIndex}
    {pool : ContextPool}
    (hlocs : params.digestOriginalChunkLocList = some (cumsumLens layout.originalLens))
    (h : buildAllIndices argsort params poolLayers scores .cleared = .ok (index, pool)) :
    let numLayers := clampedQcomputeEnd params.qcomputeEnd (params.attNumLayers.getD poolLayers)
    let digestRatio := params.digestRatio.getD defaultDigestRatio
    let rankings := layerRankings argsort params scores numLayers layout
    pool = (indexedPool .cleared rankings
        (rangesFrom 0 ((layout.sysLen : Int) :: layout.docLens)) layout
        numLayers).buildContextPositions digestRatio ∧
      index.metadata = digestMetadata (rangesFrom 0 layout.originalLens) layout.totalTokens
          numLayers digestRatio digestIndexMethod params.criticalLayers ++
        [("context_positions_by_layer", .ofIntLists pool.contextPositionsByLayer)] ∧
      ∃ rest, index.indicesByMethod = [(digestIndexMethod, .obj
        (("digest_index_version", .int digestIndexVersion) :: ("method", .str digestIndexMethod) ::
          ("ranked_indices_by_chunk", .ofIntLists (rankings.headD [])) ::
          ("ranked_indices_by_layer_chunk", .arr (rankings.map .ofIntLists)) :: rest))] := by
  intro numLayers digestRatio rankings
  obtain ⟨method, hmethod, h⟩ := bind_ok h
  obtain rfl := normalizeMethod_ok hmethod
  have hranges : chunkAbsRanges (params.digestOriginalChunkLocList.getD params.chunkLocList) =
      rangesFrom 0 ((layout.sysLen : Int) :: layout.docLens) ++
        [((layout.totalTokens : Int), (layout.totalTokens : Int) + layout.queryLen)] := by
    rw [hlocs, Option.getD_some, chunkAbsRanges_cumsumLens, layout.originalLens_eq,
      rangesFrom_append, List.sum_cons, layout.sum_docLens, Int.zero_add]
    rfl
  have hdocs : (((rangesFrom 0 ((layout.sysLen : Int) :: layout.docLens) ++
      [((layout.totalTokens : Int), (layout.totalTokens : Int) + layout.queryLen)]).drop
        1).dropLast).map (fun r => r.2 - r.1) = layout.docLens := by
    rw [rangesFrom, List.cons_append, List.drop_one, List.tail_cons, List.dropLast_concat,
      rangesFrom_lens]
  have hall : rangesFrom 0 layout.originalLens =
      rangesFrom 0 ((layout.sysLen : Int) :: layout.docLens) ++
        [((layout.totalTokens : Int), (layout.totalTokens : Int) + layout.queryLen)] := by
    rw [← hranges, hlocs, Option.getD_some, chunkAbsRanges_cumsumLens]
  simp only [hranges, List.getLast?_concat, hdocs, List.dropLast_concat] at h
  cases h
  refine ⟨rfl, ?_, _, rfl⟩
  rw [hall]

/-! ## What the online request restores -/

private theorem digestMetadata_get (ranges : List (Int × Int)) (totalTokens numLayers : Int)
    (digestRatio : Rat) (method : String) (criticalLayers : List Int) (positions : Json) :
    let info : Json := .obj (digestMetadata ranges totalTokens numLayers digestRatio method
      criticalLayers ++ [("context_positions_by_layer", positions)])
    info.getD "total_tokens" (.int 0) = .ok (.int totalTokens) ∧
      (∀ d, info.getD "num_layers" d = .ok (.int numLayers)) ∧
      info.getD "orig_chunk_ranges" (.arr []) = .ok (.ofRanges ranges) ∧
      info.get "materialized_digest" = .ok (.bool true) ∧
      info.get "context_positions_by_layer" = .ok positions := by
  simp only [digestMetadata, Json.getD, Json.get]
  refine ⟨?_, fun d => ?_, ?_, ?_, ?_⟩ <;> simp [Json.lookup?]

private theorem keptRanges_restored (total : Int) (ranges : List (Int × Int)) :
    ∃ kept, (ranges.map fun r => Json.ofInts [r.1, r.2]).mapM (keptRange total) = .ok kept ∧
      kept.filterMap id = ranges.filter fun r => decide (r.1 < total ∧ r.2 ≤ total) := by
  refine ⟨ranges.map fun r => if r.1 < total ∧ r.2 ≤ total then some r else none,
    mapM_map_ok fun r _ => ?_, ?_⟩
  · simp only [Json.ofInts, List.map_cons, List.map_nil, keptRange, keptPair, Json.toInt, bind, Except.bind]
    by_cases hstart : r.1 < total
    · by_cases hstop : r.2 ≤ total
      · simp [hstart, hstop, pure, Except.pure]
      · simp [hstart, hstop, pure, Except.pure]
    · simp [hstart, pure, Except.pure]
  · rw [List.filterMap_map]
    induction ranges with
    | nil => rfl
    | cons r ranges ih =>
      by_cases hkeep : r.1 < total ∧ r.2 ≤ total
      · rw [List.filter_cons_of_pos (by simpa using hkeep), List.filterMap_cons_some (b := r), ih]
        simp [hkeep]
      · rw [List.filter_cons_of_neg (by simpa using hkeep), List.filterMap_cons_none, ih]
        simp [hkeep]

/-- Restoring metadata that `build_all_indices` wrote gives the offline index, the ranges in
front of the query, and the materialised positions. -/
private theorem restoreQueryMetadata_layout (managerLayers : Nat) {method : Json}
    (hmethod : normalizeMethod method = .ok digestIndexMethod) (digestRatio onlineRatio : Option Rat)
    (pool : ContextPool) (layout : PromptLayout) (numLayers : Int) (savedMethod : String)
    (criticalLayers : List Int) (numDigestLayers : Int)
    (digestLayers criticalLayerMetas rest : List (String × Json))
    (rankings : List (List (List Int))) {positions : List (List Int)} (hpositions : positions ≠ []) :
    restoreQueryMetadata managerLayers
      (queryMetadata
        (digestMetadata (rangesFrom 0 layout.originalLens) layout.totalTokens numLayers
          (digestRatio.getD defaultDigestRatio) digestIndexMethod criticalLayers ++
          [("context_positions_by_layer", .ofIntLists positions)])
        [(digestIndexMethod, .obj (("digest_index_version", .int digestIndexVersion) ::
          ("method", .str digestIndexMethod) ::
          ("ranked_indices_by_chunk", .ofIntLists (rankings.headD [])) ::
          ("ranked_indices_by_layer_chunk", .arr (rankings.map .ofIntLists)) :: rest))]
        savedMethod numDigestLayers criticalLayers digestLayers criticalLayerMetas)
      method onlineRatio pool =
    .ok ((indexedPool pool rankings
      ((rangesFrom 0 layout.originalLens).filter fun r =>
        decide (r.1 < (layout.totalTokens : Int) ∧ r.2 ≤ (layout.totalTokens : Int))) layout
      numLayers).setMaterializedPositions positions) := by
  obtain ⟨hinfo, hindices⟩ := queryMetadata_getD
    (digestMetadata (rangesFrom 0 layout.originalLens) layout.totalTokens numLayers
      (digestRatio.getD defaultDigestRatio) digestIndexMethod criticalLayers ++
      [("context_positions_by_layer", .ofIntLists positions)])
    [(digestIndexMethod, .obj (("digest_index_version", .int digestIndexVersion) ::
      ("method", .str digestIndexMethod) ::
      ("ranked_indices_by_chunk", .ofIntLists (rankings.headD [])) ::
      ("ranked_indices_by_layer_chunk", .arr (rankings.map .ofIntLists)) :: rest))]
    savedMethod numDigestLayers criticalLayers digestLayers criticalLayerMetas
  obtain ⟨htotal, hlayers, hranges, hmaterialized, hpos⟩ := digestMetadata_get
    (rangesFrom 0 layout.originalLens) layout.totalTokens numLayers
    (digestRatio.getD defaultDigestRatio) digestIndexMethod criticalLayers (.ofIntLists positions)
  obtain ⟨kept, hkept, hfilter⟩ := keptRanges_restored layout.totalTokens
    (rangesFrom 0 layout.originalLens)
  have hchunk : Json.getD (.obj (("digest_index_version", .int digestIndexVersion) ::
      ("method", .str digestIndexMethod) ::
      ("ranked_indices_by_chunk", .ofIntLists (rankings.headD [])) ::
      ("ranked_indices_by_layer_chunk", .arr (rankings.map .ofIntLists)) :: rest))
      "ranked_indices_by_chunk" (.arr []) = .ok (.ofIntLists (rankings.headD [])) := by
    simp [Json.getD, Json.lookup?]
  have hlayerChunk : Json.getD (.obj (("digest_index_version", .int digestIndexVersion) ::
      ("method", .str digestIndexMethod) ::
      ("ranked_indices_by_chunk", .ofIntLists (rankings.headD [])) ::
      ("ranked_indices_by_layer_chunk", .arr (rankings.map .ofIntLists)) :: rest))
      "ranked_indices_by_layer_chunk" (.arr []) = .ok (.arr (rankings.map .ofIntLists)) := by
    simp [Json.getD, Json.lookup?]
  have hrankings : (rankings.map Json.ofIntLists).mapM Json.intLists = .ok rankings := by
    have hmap : (rankings.map Json.ofIntLists).mapM Json.intLists = .ok (rankings.map id) :=
      mapM_map_ok fun r _ => Json.intLists_ofIntLists r
    rwa [List.map_id] at hmap
  have htruthy : (Json.ofIntLists positions).truthy = true := by
    obtain ⟨first, others, rfl⟩ := List.exists_cons_of_ne_nil hpositions
    rfl
  have htotalInt : (Json.int layout.totalTokens).toInt = .ok (layout.totalTokens : Int) := rfl
  have htrue : (Json.bool true).truthy = true := rfl
  have hlookup : ∀ payload : Json,
      Json.lookup? digestIndexMethod [(digestIndexMethod, payload)] = some payload := by
    intro payload
    simp [Json.lookup?]
  simp only [restoreQueryMetadata, hmethod, hinfo, hindices, hlookup, bind, Except.bind]
  simp only [restoreContextPoolMetadata, hchunk, hlayerChunk, htotal, hlayers, hranges,
    hmaterialized, hpos, Json.intLists_ofIntLists, Json.iter, Json.ofRanges, hrankings, hkept,
    htotalInt, htrue, htruthy, hfilter, bind, Except.bind, and_self, if_true, pure, Except.pure]
  by_cases hzero : numLayers = 0
  · subst hzero
    rfl
  · rw [if_pos (by simpa [Json.truthy] using hzero)]
    rfl

/-! ## The pairing -/

/-- The file stores for layer `l` one digest row for each position, the forward row of the
original-prompt token at that position. -/
def StoresDigest (files : CacheFiles) (info : Json) (getKv : LayerSource) (layout : PromptLayout)
    (l : Nat) (positions : List Int) : Prop :=
  ∃ bin packedMeta off k v fullK fullV, files.binFile = some bin ∧
    querySectionLayersAsPackedMeta info "digest" [(l : Int)] = .ok packedMeta ∧
    Stored bin packedMeta l off (k, v) ∧ getKv l = .ok (some fullK, some fullV) ∧
    k.rows = positions.length ∧ v.rows = positions.length ∧
    ∀ j (hj : j < positions.length), ∃ row,
      layout.originalRows[positions[j].toNat]? = some row ∧ k.row j = fullK.row row ∧
        v.row j = fullV.row row

/-- The restored pool answers with `positions`, also after the rebuild that follows an empty
answer. -/
structure Restored (pool : ContextPool) (numLayers : Nat) (digestRatio : Rat)
    (positions : Nat → List Int) : Prop where
  get : ∀ l < numLayers, pool.getContextPositions l = positions l
  rebuild : ∀ l < numLayers,
    (pool.buildContextPositions digestRatio).getContextPositions l = positions l

omit [Zero α] in
theorem Restored.build {pool : ContextPool} {numLayers : Nat} {digestRatio : Rat}
    {positions : Nat → List Int} (h : Restored pool numLayers digestRatio positions) :
    Restored (pool.buildContextPositions digestRatio) numLayers digestRatio positions :=
  ⟨h.rebuild, h.rebuild⟩

omit [Zero α] in
/-- With as many rows as positions, no layer of a QCOMPUTE raises, each uses its own positions,
and the length computed at the first layer is right for all. -/
theorem contextForLayers_restored {numLayers rows : Nat} {digestRatio : Option Rat}
    {positions : Nat → List Int} (queryLen : Nat) (hrows : ∀ l < numLayers,
      (positions l).length = rows) {layers : List Nat} (hlayers : ∀ l ∈ layers, l < numLayers)
    {pool : ContextPool}
    (h : Restored pool numLayers (digestRatio.getD defaultDigestRatio) positions)
    {kvLen : Option Nat} (hkv : kvLen = none ∨ kvLen = some (rows + queryLen)) :
    contextForLayers digestRatio queryLen (layers.map fun l => (l, rows)) pool kvLen =
      .ok (layers.map fun l => (positions l, rows + queryLen)) := by
  induction layers generalizing pool kvLen with
  | nil => rfl
  | cons l layers ih =>
    have hl := hlayers l List.mem_cons_self
    have hcached : kvLen.getD (rows + queryLen) = rows + queryLen := by
      rcases hkv with rfl | rfl <;> rfl
    have hstep : ∃ pool', contextForLayer pool l digestRatio rows = .ok (positions l, pool') ∧
        Restored pool' numLayers (digestRatio.getD defaultDigestRatio) positions := by
      by_cases hempty : pool.getContextPositions l = []
      · refine ⟨_, ?_, h.build⟩
        simp only [contextForLayer, hempty, if_true, h.rebuild l hl]
        rw [if_neg (not_not.mpr (hrows l hl))]
      · refine ⟨pool, ?_, h⟩
        simp only [contextForLayer, if_neg hempty]
        rw [h.get l hl, if_neg (not_not.mpr (hrows l hl))]
    obtain ⟨pool', hrun, hpool'⟩ := hstep
    have hrest := ih (fun l' hl' => hlayers l' (List.mem_cons_of_mem _ hl')) hpool' (Or.inr rfl)
    simp only [List.map_cons, contextForLayers, hrun, hcached, hrest, bind, Except.bind, pure,
      Except.pure]

omit [Zero α] in
/-- Over `[digest; query]` the mask by index is the mask by position. -/
theorem indexCausal_iff {positions : List Int} {total : Int}
    (hsorted : positions.Pairwise (· < ·)) (hbound : ∀ p ∈ positions, p < total) (queryLen : Nat)
    {i t : Nat} (hi : i < (positions ++ pyRange total (total + queryLen)).length)
    (ht : t < queryLen) :
    i ≤ positions.length + t ↔
      (positions ++ pyRange total (total + queryLen))[i] ≤ total + t := by
  have hall : (positions ++ pyRange total (total + queryLen)).Pairwise (· < ·) :=
    List.pairwise_append.mpr ⟨hsorted, pairwise_pyRange _ _, fun a ha b hb => by
      have := hbound a ha
      have := mem_pyRange.mp hb
      omega⟩
  have hlen : (positions ++ pyRange total (total + queryLen)).length =
      positions.length + queryLen := by
    rw [List.length_append, length_pyRange]
    omega
  have hlt : positions.length + t < (positions ++ pyRange total (total + queryLen)).length := by
    omega
  have hquery : (positions ++ pyRange total (total + queryLen))[positions.length + t] =
      total + t := by
    rw [List.getElem_append_right (by omega)]
    simp [pyRange]
  have hmono := List.pairwise_iff_getElem.mp hall
  rw [← hquery]
  constructor
  · intro hle
    rcases Nat.eq_or_lt_of_le hle with heq | hlt
    · subst heq
      exact Int.le_refl _
    · exact (hmono _ _ hi (by omega) hlt).le
  · intro hle
    by_contra hgt
    have := hmono _ _ (by omega) hi (Nat.lt_of_not_le hgt)
    omega

theorem numBuiltLayers_indexedPool (pool : ContextPool) (rankings : List (List (List Int)))
    (ranges : List (Int × Int)) (layout : PromptLayout) {numLayers : Int} {l : Nat}
    (hl : l < numLayers.toNat) :
    l < (indexedPool pool rankings ranges layout numLayers).numBuiltLayers := by
  have hne : numLayers ≠ 0 := by omega
  simp only [indexedPool, ContextPool.setIndexMetadata, ContextPool.numBuiltLayers, if_pos hne]
  omega

theorem buildPositions_indexedPool (pool : ContextPool) {rankings : List (List (List Int))}
    (ranges : List (Int × Int)) (layout : PromptLayout) (numLayers : Int) {l : Nat}
    {ranking : List (List Int)} (hranking : rankings[l]? = some ranking) (digestRatio : Rat) :
    (indexedPool pool rankings ranges layout numLayers).buildContextPositionsForLayer l digestRatio =
      positionsFrom ranking digestRatio 0 ranges := by
  simp only [ContextPool.buildContextPositionsForLayer, ContextPool.rankedIndicesForLayer,
    indexedPool, ContextPool.setIndexMetadata, hranking, Option.getD_some]
  rfl

/-- What an offline request materializes for a layer below `qcompute_end`. -/
theorem offline_positions {params : DigestParams} {scores : Nat → List (Option (List α))}
    {layout : PromptLayout} {numLayers : Int} {digestRatio : Rat} {pool : ContextPool}
    (hpool : pool = (indexedPool .cleared (layerRankings argsort params scores numLayers layout)
      (rangesFrom 0 ((layout.sysLen : Int) :: layout.docLens)) layout
      numLayers).buildContextPositions digestRatio) {l : Nat} (hl : l < numLayers.toNat) :
    ∃ ranking positions,
      (layerRankings argsort params scores numLayers layout)[l]? = some ranking ∧
      positions = digestPositions ranking digestRatio layout ∧
      pool.contextPositionsByLayer[l]? = some positions ∧ positions.Pairwise (· < ·) ∧
      (∀ p ∈ positions, 0 ≤ p ∧ p < layout.totalTokens) ∧
      positions.length = layout.sysLen + (layout.docLens.map fun len =>
        (ContextPool.digestCount len digestRatio).toNat).sum := by
  obtain ⟨ranking, hlayer, hchunks⟩ := ranksChunks_layer argsort scores layout.docLens
    (max 0 (params.contextNSink.getD 0)) numLayers hl
  have hranking : (layerRankings argsort params scores numLayers layout)[l]? = some ranking := hlayer
  have hfacts := positionsFrom_prompt ranking digestRatio layout.sysLen layout.docLens_nonneg
    hchunks
  rw [layout.sum_docLens] at hfacts
  have hbuilt := numBuiltLayers_indexedPool .cleared
    (layerRankings argsort params scores numLayers layout)
    (rangesFrom 0 ((layout.sysLen : Int) :: layout.docLens)) layout hl
  refine ⟨ranking, _, hranking, rfl, ?_, hfacts⟩
  rw [hpool]
  simp only [ContextPool.buildContextPositions]
  rw [List.getElem?_map, List.getElem?_range hbuilt, Option.map_some,
    buildPositions_indexedPool _ _ _ _ hranking]
  rfl

omit [Zero α] in
/-- The rows a saved query cache stores for a layer are those its token indices name. -/
theorem storesDigest_saved {index : DigestIndex} {getKv : LayerSource} {numDigestLayers : Int}
    {tokenIndices : List (List Int)} {criticalLayers : List Int}
    {criticalTokenIndices : Option (List Int)} {files : CacheFiles} {info : Json}
    (saved : saveAllQueryCache index getKv numDigestLayers tokenIndices criticalLayers
      criticalTokenIndices = .ok files) (loaded : readQueryMeta files = .ok info)
    (layout : PromptLayout) {l : Nat} (hl : l < numDigestLayers.toNat) {idx positions : List Int}
    (hidx : tokenIndices[l]? = some idx)
    (hmap : positions.mapM (pyIndex (layout.originalRows.map fun r : Nat => (r : Int))) = .ok idx)
    (hpos : ∀ p ∈ positions, 0 ≤ p) :
    StoresDigest files info getKv layout l positions := by
  obtain ⟨digestMeta, indicesByMethod, savedMethod, digestPairs, criticalPairs, digestLayers,
    criticalLayerMetas, -, rfl, written, -⟩ := saveAllQueryCache_spec saved
  obtain rfl := readQueryMeta_info loaded
  have hl' : l < (layerRange numDigestLayers.toNat).length := by simpa using hl
  have hlp : l < digestPairs.length := by rw [written.length_eq]; exact hl'
  obtain ⟨layer, hlook, hentry⟩ := written.entry l hl' hlp fun j hj hij =>
    layerRange_distinct hl' hj hij
  obtain ⟨hinside, hbytes⟩ := written.bytes_at rfl hlp (criticalPairs.flatMap KvPair.bytes)
  have hsel := written.selected l hl' hlp
  rw [getElem_layerRange] at hlook hsel
  have hlayers : Json.lookup? "layers" [("num_layers", .int numDigestLayers),
      ("layers", .obj digestLayers)] = some (.obj digestLayers) := by simp [Json.lookup?]
  obtain ⟨packedMeta, hpacked, hstored⟩ := querySection_stored
    (digestPairs.flatMap KvPair.bytes ++ criticalPairs.flatMap KvPair.bytes)
    (queryMetadata_item digestMeta indicesByMethod savedMethod numDigestLayers criticalLayers
      digestLayers criticalLayerMetas).1 hlayers [(l : Int)]
    (fun _ => 0 + start KvPair.nbytes digestPairs l) (fun _ => digestPairs[l]) (fun id hid => by
      obtain rfl := List.mem_singleton.mp hid
      exact ⟨layer, hlook, hentry, hinside, hbytes⟩)
  obtain ⟨idx', hidx', hsel⟩ := bind_ok hsel
  obtain ⟨kv, hkv, hsel⟩ := bind_ok hsel
  obtain ⟨fullK, fullV, idxOpt, rfl, hopt, hk, hv⟩ := selectKv_ok hsel
  cases hopt
  rw [pyIndex_ok_iff, hidx] at hidx'
  cases hidx'
  obtain ⟨hkRows, hkRow⟩ := selectRows_row hk
  obtain ⟨hvRows, hvRow⟩ := selectRows_row hv
  obtain ⟨hlen, hget⟩ := mapM_ok hmap
  refine ⟨_, packedMeta, _, digestPairs[l].1, digestPairs[l].2, fullK, fullV, rfl, hpacked,
    hstored l (List.mem_singleton.mpr rfl), hkv, hkRows.trans hlen, hvRows.trans hlen,
    fun j hj => ?_⟩
  have hj' : j < idx.length := by omega
  have hp := hpos _ (List.getElem_mem hj)
  have hrow := hget j hj hj'
  obtain ⟨p, hpEq⟩ := Int.eq_ofNat_of_zero_le hp
  rw [hpEq, pyIndex_ok_iff, List.getElem?_map] at hrow
  obtain ⟨row, hrowGet, hrowEq⟩ := Option.map_eq_some_iff.mp hrow
  refine ⟨row, by rw [hpEq, Int.toNat_natCast, hrowGet], ?_, ?_⟩
  · rw [hkRow j hj', ← hrowEq, Int.toNat_natCast]
  · rw [hvRow j hj', ← hrowEq, Int.toNat_natCast]

/-- Every pool whose tensors hold the rows of the augmented prompt can be saved. -/
theorem saveOffline_ok (layout : PromptLayout) (params : DigestParams) (poolLayers : Nat)
    (scores : Nat → List (Option (List α))) (getKv : LayerSource) {locs : AugmentedLocs}
    (prepared : prepareAugmentedLocsForRequest layout.rawLocs = some locs)
    (originalLocs : params.digestOriginalChunkLocList = some locs.originalLocs)
    (method : normalizeMethod params.digestIndexMethod = .ok digestIndexMethod)
    (critical : ∀ id ∈ params.criticalLayers, 0 ≤ id ∧ id < params.attNumLayers.getD poolLayers)
    (rows : ∀ l : Int, 0 ≤ l → l < params.attNumLayers.getD poolLayers → ∃ fullK fullV,
      getKv l = .ok (some fullK, some fullV) ∧ fullK.Packable ∧ fullV.Packable ∧
        fullK.shape ≠ [] ∧ fullV.shape ≠ [] ∧ layout.augmented.length ≤ fullK.rows ∧
        layout.augmented.length ≤ fullV.rows) :
    ∃ chunkFiles queryFiles, saveOffline argsort true params poolLayers scores getKv
      (some locs.keepIndices) = .ok (chunkFiles, some queryFiles) := by
  obtain ⟨locs', hprepared, hkeep, horig⟩ := prepareAugmentedLocs_layout layout
  obtain rfl : locs' = locs := Option.some.inj (hprepared.symm.trans prepared)
  rw [horig] at originalLocs
  let fullLayers := params.attNumLayers.getD poolLayers
  let numLayers := clampedQcomputeEnd params.qcomputeEnd fullLayers
  have hclamp : numLayers.toNat ≤ fullLayers.toNat := by
    simp only [numLayers, clampedQcomputeEnd]
    omega
  have hkeepRange : ∀ i ∈ locs'.keepIndices, 0 ≤ i ∧ i < layout.augmented.length := by
    intro i hi
    rw [hkeep] at hi
    obtain ⟨r, hr, rfl⟩ := List.mem_map.mp hi
    have := lt_of_mem_keptRows _ hr
    omega
  have hselectable : ∀ (t : Tensor) (idx : List Int), t.Packable → t.shape ≠ [] →
      layout.augmented.length ≤ t.rows → (∀ i ∈ idx, i ∈ locs'.keepIndices) →
      t.Selectable (some idx) := by
    intro t idx hpack hshape hrows hsub
    refine ⟨hpack, fun xs hxs => ⟨hshape, fun i hi => ?_⟩⟩
    cases hxs
    have := hkeepRange i (hsub i hi)
    omega
  -- the index
  have hbuild : ∃ built, buildAllIndices argsort params poolLayers scores .cleared = .ok built := by
    unfold buildAllIndices
    simp only [method, bind, Except.bind]
    split <;> exact ⟨_, rfl⟩
  obtain ⟨⟨index, pool⟩, hbuild⟩ := hbuild
  obtain ⟨hpool, hmetadata, rest, hindices⟩ := buildAllIndices_layout argsort originalLocs hbuild
  have hmethodName : Json.lookup? "digest_index_method" index.metadata =
      some (.str digestIndexMethod) := by
    rw [hmetadata]
    simp [digestMetadata, Json.lookup?]
  have hpayload : exportPayload index .null = .ok (index.metadata, index.indicesByMethod) := by
    have hne : ¬ (index.metadata = [] ∨ index.indicesByMethod = []) := by
      rintro (hnil | hnil)
      · rw [hnil] at hmethodName
        cases hmethodName
      · rw [hnil] at hindices
        cases hindices
    have hkvzip : normalizeMethod (.str digestIndexMethod) = .ok digestIndexMethod := rfl
    have hnull : Json.truthy .null = false := rfl
    have hlook : ∀ payload : Json,
        Json.lookup? digestIndexMethod [(digestIndexMethod, payload)] = some payload := by
      intro payload
      simp [Json.lookup?]
    unfold exportPayload
    rw [if_neg hne]
    simp only [hnull, Bool.false_eq_true, if_false, hmethodName, Option.getD_some, hkvzip, bind,
      Except.bind, hindices, hlook, pure, Except.pure]
  -- the chunk cache
  have hchunk : ∃ chunkFiles, saveAllChunkCache fullLayers.toNat getKv (some locs'.keepIndices) =
      .ok chunkFiles := by
    refine savePackedKv_ok fun l hl => ?_
    obtain ⟨fullK, fullV, hkv, hkPack, hvPack, hkShape, hvShape, hkRows, hvRows⟩ :=
      rows l (by omega) (by omega)
    exact ⟨fullK, fullV, some locs'.keepIndices, hkv, rfl,
      hselectable fullK _ hkPack hkShape hkRows fun i hi => hi,
      hselectable fullV _ hvPack hvShape hvRows fun i hi => hi⟩
  obtain ⟨chunkFiles, hchunk⟩ := hchunk
  -- the token indices of the digest
  have hlayer : ∀ l < numLayers.toNat, ∃ positions,
      pool.contextPositionsByLayer[l]? = some positions ∧
        ∃ idx, positions.mapM (pyIndex locs'.keepIndices) = .ok idx := by
    intro l hl
    obtain ⟨-, positions, -, -, hget, -, hbound, -⟩ := offline_positions argsort hpool hl
    refine ⟨positions, hget, mapM_exists fun p hp => ?_⟩
    obtain ⟨hp0, hpt⟩ := hbound p hp
    obtain ⟨n, rfl⟩ := Int.eq_ofNat_of_zero_le hp0
    obtain ⟨row, -, hrow, -, -⟩ := layout.part_of_position (p := n) (by omega)
    exact ⟨row, by rw [hkeep, pyIndex_ok_iff, List.getElem?_map, hrow]; rfl⟩
  have htaken : ∀ positions ∈ pool.contextPositionsByLayer.take numLayers.toNat,
      ∃ idx, positions.mapM (pyIndex locs'.keepIndices) = .ok idx := by
    intro positions hmem
    obtain ⟨l, hl⟩ := List.mem_iff_getElem?.mp hmem
    rw [List.getElem?_take] at hl
    split at hl
    next hlt =>
      obtain ⟨positions', hget, hidx⟩ := hlayer l hlt
      rw [hget] at hl
      cases hl
      exact hidx
    next => cases hl
  obtain ⟨tokenIndices, htokens⟩ := mapM_exists htaken
  -- the query cache
  have hquery : ∃ queryFiles, saveAllQueryCache index getKv numLayers tokenIndices
      params.criticalLayers (some locs'.keepIndices) = .ok queryFiles := by
    refine saveAllQueryCache_ok hpayload
      (by rw [hmethodName, Option.getD_some]; rfl) ?_ ?_
    · intro l hl
      obtain ⟨positions, hget, -⟩ := hlayer l hl
      obtain ⟨hlen, hmaps⟩ := mapM_ok htokens
      have htake : (pool.contextPositionsByLayer.take numLayers.toNat)[l]? = some positions := by
        rw [List.getElem?_take_of_lt hl, hget]
      obtain ⟨hlt, hgetTake⟩ := List.getElem?_eq_some_iff.mp htake
      have hltTokens : l < tokenIndices.length := by rw [hlen]; exact hlt
      have hidx := hmaps l hlt hltTokens
      have hmem : ∀ i ∈ tokenIndices[l], i ∈ locs'.keepIndices := by
        intro i hi
        obtain ⟨hlenIdx, hgetIdx⟩ := mapM_ok hidx
        obtain ⟨j, hj, rfl⟩ := List.getElem_of_mem hi
        exact mem_of_pyIndex (hgetIdx j (by omega) hj)
      obtain ⟨fullK, fullV, hkv, hkPack, hvPack, hkShape, hvShape, hkRows, hvRows⟩ :=
        rows l (by omega) (by omega)
      exact ⟨tokenIndices[l], fullK, fullV,
        (pyIndex_ok_iff _ _ _).mpr (List.getElem?_eq_getElem hltTokens), hkv,
        hselectable fullK _ hkPack hkShape hkRows hmem,
        hselectable fullV _ hvPack hvShape hvRows hmem⟩
    · intro id hid
      obtain ⟨hid0, hidLt⟩ := critical id hid
      obtain ⟨fullK, fullV, hkv, hkPack, hvPack, hkShape, hvShape, hkRows, hvRows⟩ :=
        rows id hid0 hidLt
      exact ⟨fullK, fullV, hkv, hselectable fullK _ hkPack hkShape hkRows fun i hi => hi,
        hselectable fullV _ hvPack hvShape hvRows fun i hi => hi⟩
  obtain ⟨queryFiles, hquery⟩ := hquery
  refine ⟨chunkFiles, queryFiles, ?_⟩
  have htokenIndices : digestTokenIndices (some locs'.keepIndices)
      (pool.contextPositionsByLayer.take numLayers.toNat) = .ok tokenIndices := htokens
  simp only [fullLayers, numLayers] at hchunk htokenIndices hquery
  simp only [saveOffline, if_true, hbuild, bind, Except.bind, pure, Except.pure, hchunk,
    htokenIndices, hquery]

/-- What is saved without a repeated critical layer is accepted by the loader. -/
theorem saveOffline_loads {params : DigestParams} {poolLayers : Nat}
    {scores : Nat → List (Option (List α))} {getKv : LayerSource} {keepIndices : Option (List Int)}
    {chunkFiles queryFiles : CacheFiles}
    (saved : saveOffline argsort true params poolLayers scores getKv keepIndices =
      .ok (chunkFiles, some queryFiles)) (hnodup : params.criticalLayers.Nodup) :
    ∃ info, readQueryMeta queryFiles = .ok info := by
  rw [saveOffline] at saved
  simp only [if_true] at saved
  obtain ⟨⟨index, pool⟩, -, saved⟩ := bind_ok saved
  obtain ⟨chunkFiles', -, saved⟩ := bind_ok saved
  obtain ⟨tokenIndices, -, saved⟩ := bind_ok saved
  obtain ⟨queryFiles', hquery, saved⟩ := bind_ok saved
  cases saved
  have hend : clampedQcomputeEnd params.qcomputeEnd (params.attNumLayers.getD poolLayers) =
      ((clampedQcomputeEnd params.qcomputeEnd (params.attNumLayers.getD poolLayers)).toNat : Int) := by
    rw [Int.toNat_of_nonneg]
    exact le_max_left _ _
  rw [hend] at hquery
  exact readQueryMeta_accepts hquery (repeatsOnlyEmpty_of_nodup _ _ hnodup)

/-- For every augmented layout, scores, sink count, digest ratio and `qcompute_end`: whatever an
offline KVCOMPUTE saves and an online QCOMPUTE with the same digest ratio restores,

- each layer below `qcompute_end` stores, row for row, the K and V of the original-prompt
  tokens at the positions the online request restores for that layer;
- these positions increase strictly and lie before the query, so they name system and
  document tokens only, and the mask by index over `[digest; query]` is the mask by position;
- all layers store the same number of rows, the length computed at the first layer holds for
  all of them, and no layer raises the position/KV mismatch. -/
theorem digest_pairing (argsort : ArgSort α) (layout : PromptLayout) (params : DigestParams)
    (poolLayers managerLayers : Nat) (scores : Nat → List (Option (List α)))
    (getKv : LayerSource) (locs : AugmentedLocs) (chunkFiles queryFiles : CacheFiles) (info : Json)
    (onlineMethod : Json) (onlinePool : ContextPool)
    (prepared : prepareAugmentedLocsForRequest layout.rawLocs = some locs)
    (originalLocs : params.digestOriginalChunkLocList = some locs.originalLocs)
    (saved : saveOffline argsort true params poolLayers scores getKv (some locs.keepIndices) =
      .ok (chunkFiles, some queryFiles))
    (loaded : readQueryMeta queryFiles = .ok info)
    (method : normalizeMethod onlineMethod = .ok digestIndexMethod) :
    ∃ pool rows,
      restoreQueryMetadata managerLayers info onlineMethod params.digestRatio onlinePool =
        .ok pool ∧
      pool.totalTokens = layout.totalTokens ∧
      let qcomputeEnd := (clampedQcomputeEnd params.qcomputeEnd
        (params.attNumLayers.getD poolLayers)).toNat
      (∀ l < qcomputeEnd,
        StoresDigest queryFiles info getKv layout l (pool.getContextPositions l) ∧
        (pool.getContextPositions l).Pairwise (· < ·) ∧
        (∀ p ∈ pool.getContextPositions l, 0 ≤ p ∧ p < layout.totalTokens ∧
          ∃ row part, layout.originalRows[p.toNat]? = some row ∧
            layout.augmented[row]? = some part ∧ (part = .sys ∨ part = .doc)) ∧
        (pool.getContextPositions l).length = rows ∧
        ∀ (queryLen i t : Nat) (hi : i < (pool.getContextPositions l ++
            pyRange pool.totalTokens (pool.totalTokens + queryLen)).length), t < queryLen →
          (i ≤ rows + t ↔ (pool.getContextPositions l ++
            pyRange pool.totalTokens (pool.totalTokens + queryLen))[i] ≤ pool.totalTokens + t)) ∧
      ∀ queryLen : Nat, contextForLayers params.digestRatio queryLen
          ((List.range qcomputeEnd).map fun l => (l, rows)) pool none =
        .ok ((List.range qcomputeEnd).map fun l =>
          (pool.getContextPositions l, rows + queryLen)) := by
  obtain ⟨locs', hprepared, hkeep, horig⟩ := prepareAugmentedLocs_layout layout
  obtain rfl : locs' = locs := Option.some.inj (hprepared.symm.trans prepared)
  rw [horig] at originalLocs
  let numLayers := clampedQcomputeEnd params.qcomputeEnd (params.attNumLayers.getD poolLayers)
  let ratio := params.digestRatio.getD defaultDigestRatio
  -- the offline run
  rw [saveOffline] at saved
  simp only [if_true] at saved
  obtain ⟨⟨index, pool⟩, hbuild, saved⟩ := bind_ok saved
  obtain ⟨chunkFiles', -, saved⟩ := bind_ok saved
  obtain ⟨tokenIndices, htokens, saved⟩ := bind_ok saved
  obtain ⟨queryFiles', hquery, saved⟩ := bind_ok saved
  cases saved
  obtain ⟨hpool, hmetadata, rest, hindices⟩ :=
    buildAllIndices_layout argsort originalLocs hbuild
  let rankings := layerRankings argsort params scores numLayers layout
  choose! ranking positions hranking hpositions hoffline hsorted hbound hlength using
    fun l (hl : l < numLayers.toNat) => offline_positions argsort hpool hl
  -- the online restore
  obtain ⟨digestMeta, indicesByMethod, savedMethod, digestPairs, criticalPairs, digestLayers,
    criticalLayerMetas, hpayload, rfl, -, -⟩ := saveAllQueryCache_spec hquery
  have hnonempty : pool.contextPositionsByLayer ≠ [] := by
    rw [hpool]
    simp only [ContextPool.buildContextPositions, ne_eq, List.map_eq_nil_iff, List.range_eq_nil,
      ContextPool.numBuiltLayers]
    omega
  obtain ⟨rfl, rfl⟩ := exportPayload_single hindices hpayload
  have hinfo := readQueryMeta_info loaded
  rw [hmetadata, hindices] at hinfo
  have hrestore := restoreQueryMetadata_layout managerLayers method params.digestRatio
    params.digestRatio onlinePool layout numLayers savedMethod params.criticalLayers numLayers
    digestLayers criticalLayerMetas rest rankings hnonempty
  let restored := (indexedPool onlinePool rankings
    ((rangesFrom 0 layout.originalLens).filter fun r =>
      decide (r.1 < (layout.totalTokens : Int) ∧ r.2 ≤ (layout.totalTokens : Int))) layout
    numLayers).setMaterializedPositions pool.contextPositionsByLayer
  have hget : ∀ l < numLayers.toNat, restored.getContextPositions l = positions l := by
    intro l hl
    simp only [restored, ContextPool.getContextPositions, ContextPool.setMaterializedPositions,
      hoffline l hl, Option.getD_some]
  have hrebuild : ∀ l < numLayers.toNat,
      (restored.buildContextPositions ratio).getContextPositions l = positions l := by
    intro l hl
    have hbuilt : l < restored.numBuiltLayers :=
      numBuiltLayers_indexedPool onlinePool rankings
        ((rangesFrom 0 layout.originalLens).filter fun r =>
          decide (r.1 < (layout.totalTokens : Int) ∧ r.2 ≤ (layout.totalTokens : Int))) layout hl
    rw [ContextPool.getContextPositions_build _ _ hbuilt]
    have hpos := buildPositions_indexedPool onlinePool
      ((rangesFrom 0 layout.originalLens).filter fun r =>
        decide (r.1 < (layout.totalTokens : Int) ∧ r.2 ≤ (layout.totalTokens : Int)))
      layout numLayers (hranking l hl) ratio
    have hsame := positionsFrom_filter (ranking l) ratio 0 0
      ((layout.sysLen : Int) :: layout.docLens) (fun len hlen => by
        rcases List.mem_cons.mp hlen with rfl | hlen
        · exact Int.natCast_nonneg _
        · exact layout.docLens_nonneg len hlen)
      (Int.natCast_nonneg layout.queryLen) layout.totalTokens
      (by rw [List.sum_cons, layout.sum_docLens, Int.zero_add])
    rw [← layout.originalLens_eq] at hsame
    exact (hpos.trans hsame).trans (hpositions l hl).symm
  have hrestored : Restored restored numLayers.toNat ratio positions := ⟨hget, hrebuild⟩
  refine ⟨restored, layout.sysLen + (layout.docLens.map fun len =>
    (ContextPool.digestCount len ratio).toNat).sum, by rw [hinfo]; exact hrestore, rfl, ?_, ?_⟩
  · intro l hl
    rw [hget l hl]
    refine ⟨?_, hsorted l hl, ?_, hlength l hl, ?_⟩
    · obtain ⟨hlen, hmaps⟩ := mapM_ok htokens
      have htake : (pool.contextPositionsByLayer.take numLayers.toNat)[l]? = some (positions l) := by
        rw [List.getElem?_take_of_lt hl, hoffline l hl]
      obtain ⟨hlt, hgetTake⟩ := List.getElem?_eq_some_iff.mp htake
      have hltTokens : l < tokenIndices.length := by rw [hlen]; exact hlt
      have hidx := hmaps l hlt hltTokens
      rw [hgetTake, hkeep] at hidx
      exact storesDigest_saved hquery loaded layout hl (List.getElem?_eq_getElem hltTokens) hidx
        fun p hp => (hbound l hl p hp).1
    · intro p hp
      obtain ⟨hp0, hpt⟩ := hbound l hl p hp
      exact ⟨hp0, hpt, layout.part_of_position (by omega)⟩
    · intro queryLen i t hi ht
      have hiff := indexCausal_iff (hsorted l hl) (fun p hp => (hbound l hl p hp).2) queryLen hi ht
      rwa [hlength l hl] at hiff
  · intro queryLen
    rw [contextForLayers_restored queryLen (hlength)
      (fun l hl => List.mem_range.mp hl) hrestored (Or.inl rfl)]
    refine congrArg Except.ok (List.map_congr_left fun l hl => ?_)
    rw [hget l (List.mem_range.mp hl)]

end Offline

/-- `torch.argsort(scores, descending=True, stable=True)`. -/
def descendingArgSort : ArgSort Int where
  run scores := (List.range scores.length).mergeSort fun i j =>
    decide (scores.getD j 0 ≤ scores.getD i 0)
  perm _ := List.mergeSort_perm _ _

/-- Five rows of one half-precision number. -/
def fiveRows (fill : UInt8) : Tensor := ⟨[5, 1], .float16, List.replicate 10 fill, rfl⟩

/-- One system token, a document of two tokens with a zip prompt of one, one query token; two
layers, the first critical. -/
theorem digest_pairing_oneDocument :
    let layout : PromptLayout := ⟨1, [(2, 1)], 1, List.cons_ne_nil _ _⟩
    let params : DigestParams := ⟨some 2, none, some (1 / 2), .str "", [0], some [0, 1, 3, 4], [],
      some 0⟩
    let getKv : LayerSource := fun l =>
      .ok (some (fiveRows l.toNat.toUInt8), some (fiveRows (l.toNat + 7).toUInt8))
    ∃ chunkFiles queryFiles info pool,
      saveOffline descendingArgSort true params 2 (fun _ => [some [3, 5]]) getKv
        (some [0, 1, 2, 4]) = .ok (chunkFiles, some queryFiles) ∧
      readQueryMeta queryFiles = .ok info ∧
      restoreQueryMetadata 2 info .null (some (1 / 2)) .cleared = .ok pool ∧
      pool.totalTokens = 3 ∧
      ∀ l < 2, StoresDigest queryFiles info getKv layout l (pool.getContextPositions l) := by
  intro layout params getKv
  obtain ⟨locs, hprepared, hkeep, horig⟩ := prepareAugmentedLocs_layout layout
  have hkeep : locs.keepIndices = [0, 1, 2, 4] := hkeep.trans (by decide)
  have horig : some [0, 1, 3, 4] = some locs.originalLocs := by rw [horig]; decide
  have hpack : ∀ fill, (fiveRows fill).Packable := fun fill =>
    ⟨⟨"F16", rfl⟩, Or.inl (List.cons_ne_nil _ _)⟩
  have hrows : ∀ fill, layout.augmented.length ≤ (fiveRows fill).rows := fun _ => Nat.le_refl 5
  obtain ⟨chunkFiles, queryFiles, hsaved⟩ := saveOffline_ok descendingArgSort layout
    params 2 (fun _ => [some [3, 5]]) getKv hprepared horig rfl
    (fun id hid => by
      obtain rfl := List.mem_singleton.mp hid
      decide)
    fun l _ _ => ⟨_, _, rfl, hpack _, hpack _, List.cons_ne_nil _ _, List.cons_ne_nil _ _,
      hrows _, hrows _⟩
  obtain ⟨info, hloaded⟩ := saveOffline_loads descendingArgSort hsaved (List.nodup_singleton 0)
  obtain ⟨pool, rows, hrestore, htotal, hlayers, -⟩ := digest_pairing descendingArgSort layout params
    2 2 (fun _ => [some [3, 5]]) getKv locs chunkFiles queryFiles info .null .cleared hprepared
    horig hsaved hloaded rfl
  rw [hkeep] at hsaved
  exact ⟨chunkFiles, queryFiles, info, pool, hsaved, hloaded, hrestore, htotal,
    fun l hl => (hlayers l hl).1⟩

end QCFuse.Guarantees
