import QCFuse.Library.Compaction
import QCFuse.Source.DigestIndex

/-!
# Augmented prompts and the original prompt inside them

An augmented prompt is a list of parts, one a token. The original prompt is what remains
without the zip prompts; its token at position `p` is row `originalRows[p]` of the forward
pass. `prepare_augmented_locs_for_request` computes exactly these rows.
-/

set_option autoImplicit false

namespace QCFuse.Guarantees

open QCFuse.Library QCFuse.Source

/-- What a token of an augmented prompt belongs to. -/
inductive PromptPart where
  | sys | doc | zipPrompt | query
  deriving DecidableEq, Repr

/-- `sys, doc1, zip1, ..., docn, zipn, query` with at least one document; any length may be
zero. -/
structure PromptLayout where
  sysLen : Nat
  docs : List (Nat × Nat)
  queryLen : Nat
  docs_ne : docs ≠ []

namespace PromptLayout

/-- The segments in order, each with its length. -/
def segments (layout : PromptLayout) : List (PromptPart × Nat) :=
  (.sys, layout.sysLen) ::
    (layout.docs.flatMap (fun d => [(.doc, d.1), (.zipPrompt, d.2)]) ++ [(.query, layout.queryLen)])

/-- The part of each row of the forward pass. -/
def augmented (layout : PromptLayout) : List PromptPart := spread layout.segments

/-- Everything but the zip prompts is part of the original prompt. -/
def inOriginal (part : PromptPart) : Bool := part != .zipPrompt

/-- The part of each position of the original prompt. -/
def original (layout : PromptLayout) : List PromptPart := layout.augmented.filter inOriginal

/-- The forward row of each position of the original prompt. -/
def originalRows (layout : PromptLayout) : List Nat := keptRows inOriginal layout.augmented 0

/-- Chunk boundaries as `split_tokens` gives them. -/
def rawLocs (layout : PromptLayout) : List Int :=
  cumsumLens (layout.segments.map fun s => (s.2 : Int))

/-- Tokens of the original prompt before the query. -/
def totalTokens (layout : PromptLayout) : Nat :=
  layout.sysLen + (layout.docs.map Prod.fst).sum

/-- Lengths of the chunks of the original prompt. -/
def originalLens (layout : PromptLayout) : List Int :=
  (layout.sysLen : Int) :: (layout.docs.map fun d => (d.1 : Int)) ++ [(layout.queryLen : Int)]

end PromptLayout

/-! ## Prefix sums -/

theorem length_cumsumFrom (total : Int) (lens : List Int) :
    (cumsumFrom total lens).length = lens.length := by
  induction lens generalizing total with
  | nil => rfl
  | cons len lens ih => rw [cumsumFrom, List.length_cons, ih, List.length_cons]

theorem getD_cumsumFrom (total : Int) (lens : List Int) {i : Nat} (h : i < lens.length) :
    (cumsumFrom total lens).getD i 0 = total + (lens.take (i + 1)).sum := by
  induction lens generalizing total i with
  | nil => exact absurd h (Nat.not_lt_zero i)
  | cons len lens ih =>
    cases i with
    | zero => simp [cumsumFrom]
    | succ i =>
      rw [cumsumFrom, List.getD_cons_succ, ih (total + len) (by simpa using h), List.take_succ_cons,
        List.sum_cons, Int.add_assoc]

theorem getD_cumsumLens (lens : List Int) {i : Nat} (h : i ≤ lens.length) :
    (cumsumLens lens).getD i 0 = (lens.take i).sum := by
  cases i with
  | zero => simp [cumsumLens]
  | succ i => rw [cumsumLens, List.getD_cons_succ, getD_cumsumFrom 0 lens h, Int.zero_add]

theorem getD_mono {locs : List Int} (h : locs.Pairwise (· ≤ ·)) {i j : Nat} (hij : i ≤ j)
    (hj : j < locs.length) : locs.getD i 0 ≤ locs.getD j 0 := by
  rw [List.getD_eq_getElem?_getD, List.getD_eq_getElem?_getD, List.getElem?_eq_getElem (by omega),
    List.getElem?_eq_getElem hj, Option.getD_some, Option.getD_some]
  rcases Nat.lt_or_eq_of_le hij with hlt | rfl
  · exact List.pairwise_iff_getElem.mp h i j (by omega) hj hlt
  · exact le_refl _

/-! ## What is computed -/

/-- `num_raw_chunks`. -/
def numRawChunks (rawLocs : List Int) : Int := rawLocs.length - 1

section Computed

variable (loc : Nat → Int) (n : Nat)

/-- The documents and zip prompts between the boundaries `loc`. -/
def docRanges : List (Int × Int) :=
  (List.range n).map fun i => (loc (2 * i + 1), loc (2 * i + 2))

def zipRanges : List (Int × Int) :=
  (List.range n).map fun i => (loc (2 * i + 2), loc (2 * i + 3))

/-- The locations of an augmented prompt with `n` documents. -/
def augmentedLocs : AugmentedLocs where
  forwardLocs := cumsumLens ((loc 1 - loc 0) ::
    ((List.range n).map fun i => loc (2 * i + 3) - loc (2 * i + 1)) ++
      [loc (2 * n + 2) - loc (2 * n + 1)])
  originalLocs := cumsumLens ((loc 1 - loc 0) ::
    ((List.range n).map fun i => loc (2 * i + 2) - loc (2 * i + 1)) ++
      [loc (2 * n + 2) - loc (2 * n + 1)])
  keepIndices := pyRange (loc 0) (loc 1) ++
    ((List.range n).flatMap fun i => pyRange (loc (2 * i + 1)) (loc (2 * i + 2))) ++
      pyRange (loc (2 * n + 1)) (loc (2 * n + 2))
  augSysRange := (loc 0, loc 1)
  augDocRanges := docRanges loc n
  augZipRanges := zipRanges loc n

end Computed

theorem prepareAugmentedLocs_eq {rawLocs : List Int} {n : Nat} (hn : 1 ≤ n)
    (hlen : rawLocs.length = 2 * n + 3) :
    prepareAugmentedLocsForRequest rawLocs = some (augmentedLocs (rawLocs.getD · 0) n) := by
  have hodd : indexRange 1 (2 * n + 1) = (List.range n).map fun i => 1 + 2 * i := by
    rw [indexRange, show (2 * n + 1 - 1 + 1) / 2 = n by omega]
  have heven : indexRange 2 (2 * n + 1) = (List.range n).map fun i => 2 + 2 * i := by
    rw [indexRange, show (2 * n + 1 - 2 + 1) / 2 = n by omega]
  have hends : 2 * n + 3 - 2 = 2 * n + 1 ∧ 2 * n + 3 - 1 = 2 * n + 2 := by omega
  have hone : ∀ i, 1 + 2 * i = 2 * i + 1 := fun i => Nat.add_comm 1 (2 * i)
  have htwo : ∀ i, 2 + 2 * i = 2 * i + 2 := fun i => Nat.add_comm 2 (2 * i)
  unfold prepareAugmentedLocsForRequest
  simp only [hlen, hends.1, hends.2, hodd, heven, List.length_map, List.zip_map']
  rw [if_neg (by push_cast; omega), if_neg (not_not.mpr rfl)]
  simp only [List.map_map, List.flatMap_map, Function.comp_def, hone, htwo]
  rfl

/-- Any other number of chunks is refused. -/
theorem prepareAugmentedLocs_none {rawLocs : List Int}
    (h : ¬ (4 ≤ numRawChunks rawLocs ∧ numRawChunks rawLocs % 2 = 0)) :
    prepareAugmentedLocsForRequest rawLocs = none := by
  unfold numRawChunks at h
  unfold prepareAugmentedLocsForRequest
  simp only
  rw [if_pos (by omega)]

theorem length_of_numRawChunks {rawLocs : List Int}
    (h : 4 ≤ numRawChunks rawLocs ∧ numRawChunks rawLocs % 2 = 0) :
    ∃ n, 1 ≤ n ∧ rawLocs.length = 2 * n + 3 := by
  unfold numRawChunks at h
  exact ⟨(rawLocs.length - 3) / 2, by omega, by omega⟩

/-! ## The walk over the documents -/

/-- Document start, document end and zip-prompt end of each document. -/
private def docWalk : Int → List (Nat × Nat) → List (Int × Int × Int)
  | _, [] => []
  | base, d :: docs => (base, base + d.1, base + d.1 + d.2) :: docWalk (base + d.1 + d.2) docs

private theorem docWalk_eq (base : Int) (docs : List (Nat × Nat)) (rest : List Int) :
    (List.range docs.length).map (fun i =>
      let lens := base :: (docs.flatMap (fun d => [(d.1 : Int), (d.2 : Int)]) ++ rest)
      ((lens.take (2 * i + 1)).sum, (lens.take (2 * i + 2)).sum, (lens.take (2 * i + 3)).sum)) =
      docWalk base docs := by
  induction docs generalizing base with
  | nil => rfl
  | cons d docs ih =>
    rw [List.length_cons, List.range_succ_eq_map, List.map_cons, List.map_map, docWalk,
      ← ih (base + d.1 + d.2)]
    congr 1
    · simp [Int.add_assoc]
    · refine List.map_congr_left fun i _ => ?_
      have htake : ∀ k, ((base :: ((d :: docs).flatMap (fun d => [(d.1 : Int), (d.2 : Int)]) ++
          rest)).take (k + 3)).sum =
          (((base + d.1 + d.2) :: (docs.flatMap (fun d => [(d.1 : Int), (d.2 : Int)]) ++
          rest)).take (k + 1)).sum := by
        intro k
        simp [Int.add_assoc]
      simp only [Function.comp_apply]
      have h1 : 2 * (i + 1) + 1 = 2 * i + 3 := by omega
      have h2 : 2 * (i + 1) + 2 = (2 * i + 1) + 3 := by omega
      have h3 : 2 * (i + 1) + 3 = (2 * i + 2) + 3 := by omega
      rw [Nat.succ_eq_add_one, h1, h2, h3, htake, htake, htake]

private theorem keptRanges_docs (base : Nat) (docs : List (Nat × Nat))
    (rest : List (PromptPart × Nat)) :
    (keptRanges PromptLayout.inOriginal
      (docs.flatMap (fun d => [(PromptPart.doc, d.1), (PromptPart.zipPrompt, d.2)]) ++ rest)
      base).map (fun r : Nat => (r : Int)) =
      (docWalk base docs).flatMap (fun c => pyRange c.1 c.2.1) ++
        (keptRanges PromptLayout.inOriginal rest
          (base + (docs.map fun d => d.1 + d.2).sum)).map fun r : Nat => (r : Int) := by
  induction docs generalizing base with
  | nil => simp [docWalk]
  | cons d docs ih =>
    have hrange : (List.range' base d.1).map (fun r : Nat => (r : Int)) =
        pyRange base (base + d.1) := by
      rw [List.range'_eq_map_range, List.map_map, pyRange]
      have hlen : ((base : Int) + d.1 - base).toNat = d.1 := by omega
      rw [hlen]
      exact List.map_congr_left fun i _ => by simp
    have htail := ih (base + d.1 + d.2)
    simp only [List.flatMap_cons, List.cons_append, List.nil_append, keptRanges, docWalk,
      PromptLayout.inOriginal] at htail ⊢
    simp only [bne_iff_ne, ne_eq, reduceCtorEq, not_false_eq_true, if_true, bne_self_eq_false,
      Bool.false_eq_true, if_false, List.map_append, List.nil_append, hrange]
    rw [htail, List.append_assoc, List.map_cons, List.sum_cons]
    push_cast
    rw [Nat.add_assoc base, Nat.add_assoc base]

private theorem range'_cast (base len : Nat) :
    (List.range' base len).map (fun r : Nat => (r : Int)) = pyRange base (base + len) := by
  rw [List.range'_eq_map_range, List.map_map, pyRange]
  have hlen : ((base : Int) + len - base).toNat = len := by omega
  rw [hlen]
  exact List.map_congr_left fun i _ => by simp

private theorem originalRows_eq (layout : PromptLayout) :
    layout.originalRows.map (fun r : Nat => (r : Int)) =
      pyRange 0 layout.sysLen ++
        ((docWalk layout.sysLen layout.docs).flatMap fun c => pyRange c.1 c.2.1) ++
        pyRange (layout.sysLen + (layout.docs.map fun d => d.1 + d.2).sum : Nat)
          ((layout.sysLen + (layout.docs.map fun d => d.1 + d.2).sum : Nat) + layout.queryLen) := by
  have hsys := range'_cast 0 layout.sysLen
  rw [Nat.cast_zero, Int.zero_add] at hsys
  rw [PromptLayout.originalRows, PromptLayout.augmented, keptRows_spread, PromptLayout.segments]
  simp only [keptRanges, PromptLayout.inOriginal, bne_iff_ne, ne_eq, reduceCtorEq,
    not_false_eq_true, if_true, List.map_append, hsys, Nat.zero_add]
  rw [keptRanges_docs]
  simp only [keptRanges, PromptLayout.inOriginal, bne_iff_ne, ne_eq, reduceCtorEq,
    not_false_eq_true, if_true, List.append_nil, range'_cast, List.append_assoc]

private theorem docWalk_lens (base : Int) (docs : List (Nat × Nat)) :
    (docWalk base docs).map (fun c => c.2.1 - c.1) = docs.map fun d => (d.1 : Int) := by
  induction docs generalizing base with
  | nil => rfl
  | cons d docs ih =>
    rw [docWalk, List.map_cons, List.map_cons, ih]
    congr 1
    simp only
    omega

private theorem sum_docLens (docs : List (Nat × Nat)) :
    (docs.flatMap fun d => [(d.1 : Int), (d.2 : Int)]).sum =
      ((docs.map fun d => d.1 + d.2).sum : Nat) := by
  induction docs with
  | nil => rfl
  | cons d docs ih =>
    rw [List.flatMap_cons, List.sum_append, ih, List.map_cons, List.sum_cons]
    simp only [List.sum_cons, List.sum_nil]
    push_cast
    omega

/-- `prepare_augmented_locs_for_request` recognises every augmented layout; its `keep_indices`
are the rows of the original prompt and its `original_locs` the original chunk boundaries. -/
theorem prepareAugmentedLocs_layout (layout : PromptLayout) :
    ∃ locs, prepareAugmentedLocsForRequest layout.rawLocs = some locs ∧
      locs.keepIndices = layout.originalRows.map (fun r : Nat => (r : Int)) ∧
      locs.originalLocs = cumsumLens layout.originalLens := by
  have hn : 0 < layout.docs.length := List.length_pos_iff.mpr layout.docs_ne
  have hflat : (layout.docs.flatMap fun d => [(d.1 : Int), (d.2 : Int)]).length =
      2 * layout.docs.length := by
    rw [List.length_flatMap]
    simp
    omega
  have hlens : layout.segments.map (fun s => (s.2 : Int)) = (layout.sysLen : Int) ::
      ((layout.docs.flatMap fun d => [(d.1 : Int), (d.2 : Int)]) ++ [(layout.queryLen : Int)]) := by
    simp [PromptLayout.segments, List.map_flatMap]
  have hrawLen : layout.rawLocs.length = 2 * layout.docs.length + 3 := by
    rw [PromptLayout.rawLocs, cumsumLens, List.length_cons, length_cumsumFrom, hlens,
      List.length_cons, List.length_append, hflat]
    rfl
  have hloc : ∀ i ≤ 2 * layout.docs.length + 2, layout.rawLocs.getD i 0 =
      (((layout.sysLen : Int) :: ((layout.docs.flatMap fun d => [(d.1 : Int), (d.2 : Int)]) ++
        [(layout.queryLen : Int)])).take i).sum := by
    intro i hi
    rw [PromptLayout.rawLocs, hlens, getD_cumsumLens]
    rw [List.length_cons, List.length_append, hflat]
    exact hi
  have hquery : layout.rawLocs.getD (2 * layout.docs.length + 1) 0 =
      (layout.sysLen + (layout.docs.map fun d => d.1 + d.2).sum : Nat) := by
    rw [hloc _ (by omega), List.take_succ_cons, List.take_left' hflat, List.sum_cons, sum_docLens]
    push_cast
    rfl
  have hend : layout.rawLocs.getD (2 * layout.docs.length + 2) 0 =
      (layout.sysLen + (layout.docs.map fun d => d.1 + d.2).sum : Nat) + layout.queryLen := by
    have hall : 2 * layout.docs.length + 1 = ((layout.docs.flatMap fun d =>
        [(d.1 : Int), (d.2 : Int)]) ++ [(layout.queryLen : Int)]).length := by
      rw [List.length_append, hflat]
      rfl
    rw [hloc _ (Nat.le_refl _), List.take_succ_cons, hall, List.take_length, List.sum_cons,
      List.sum_append, sum_docLens, List.sum_singleton]
    push_cast
    omega
  have hzero : layout.rawLocs.getD 0 0 = 0 := by rw [hloc 0 (by omega)]; rfl
  have hsys : layout.rawLocs.getD 1 0 = layout.sysLen := by rw [hloc 1 (by omega)]; simp
  have hwalk := docWalk_eq layout.sysLen layout.docs [(layout.queryLen : Int)]
  have hdocLens : ((List.range layout.docs.length).map fun i =>
      layout.rawLocs.getD (2 * i + 2) 0 - layout.rawLocs.getD (2 * i + 1) 0) =
      layout.docs.map fun d => (d.1 : Int) := by
    rw [← docWalk_lens layout.sysLen, ← hwalk, List.map_map]
    refine List.map_congr_left fun i hi => ?_
    have hi' := List.mem_range.mp hi
    simp only [Function.comp_apply]
    rw [hloc _ (by omega), hloc _ (by omega)]
  have hdocRows : ((List.range layout.docs.length).flatMap fun i =>
      pyRange (layout.rawLocs.getD (2 * i + 1) 0) (layout.rawLocs.getD (2 * i + 2) 0)) =
      (docWalk layout.sysLen layout.docs).flatMap fun c => pyRange c.1 c.2.1 := by
    rw [← hwalk, List.flatMap_map]
    refine List.flatMap_congr fun i hi => ?_
    have hi' := List.mem_range.mp hi
    rw [hloc _ (by omega), hloc _ (by omega)]
  refine ⟨_, prepareAugmentedLocs_eq hn hrawLen, ?_, ?_⟩
  · simp only [augmentedLocs, hzero, hsys, hquery, hend, hdocRows]
    rw [originalRows_eq]
  · simp only [augmentedLocs, hzero, hsys, hquery, hend, hdocLens, Int.sub_zero, add_sub_cancel_left]
    rw [PromptLayout.originalLens]

/-- The original prompt without its zip prompts: system, documents, query. -/
theorem PromptLayout.original_eq (layout : PromptLayout) :
    layout.original = List.replicate layout.sysLen .sys ++
      (layout.docs.flatMap fun d => List.replicate d.1 .doc) ++
      List.replicate layout.queryLen .query := by
  have hdoc : inOriginal .doc = true := rfl
  have hzip : inOriginal .zipPrompt = false := rfl
  have hdocs : ∀ docs : List (Nat × Nat),
      (spread (docs.flatMap fun d => [(PromptPart.doc, d.1), (PromptPart.zipPrompt, d.2)])).filter
        PromptLayout.inOriginal = docs.flatMap fun d => List.replicate d.1 .doc := by
    intro docs
    induction docs with
    | nil => rfl
    | cons d docs ih =>
      simp only [spread] at ih
      simp only [spread, List.flatMap_cons, List.flatMap_append, List.filter_append, ih,
        List.flatMap_nil, List.append_nil, List.filter_replicate, hdoc, hzip, if_true,
        Bool.false_eq_true, if_false]
  have happend : ∀ xs ys : List (PromptPart × Nat), spread (xs ++ ys) = spread xs ++ spread ys :=
    fun xs ys => List.flatMap_append
  have hone : ∀ s : PromptPart × Nat, spread [s] = List.replicate s.2 s.1 := by
    intro s
    simp [spread]
  rw [original, augmented, segments, ← List.singleton_append, happend, happend, List.filter_append,
    List.filter_append, hdocs, hone, hone, List.filter_replicate, List.filter_replicate,
    List.append_assoc]
  rfl

/-- A position before the query is a system or document token of the forward pass. -/
theorem PromptLayout.part_of_position (layout : PromptLayout) {p : Nat}
    (hp : p < layout.totalTokens) :
    ∃ row part, layout.originalRows[p]? = some row ∧ layout.augmented[row]? = some part ∧
      (part = .sys ∨ part = .doc) := by
  let front := List.replicate layout.sysLen PromptPart.sys ++
    layout.docs.flatMap fun d => List.replicate d.1 PromptPart.doc
  have hfront : front.length = layout.totalTokens := by
    rw [List.length_append, List.length_replicate, List.length_flatMap, totalTokens]
    congr 2
    exact List.map_congr_left fun d _ => List.length_replicate
  have heq : layout.original = front ++ List.replicate layout.queryLen .query := layout.original_eq
  have hlt : p < layout.originalRows.length := by
    have hlen : layout.originalRows.length = layout.original.length := length_keptRows _ _ _
    rw [hlen, heq, List.length_append, hfront]
    omega
  have hp' : p < front.length := by rw [hfront]; exact hp
  have hget : (layout.augmented.filter inOriginal)[p]? = some front[p] := by
    rw [original] at heq
    rw [heq, List.getElem?_append_left hp', List.getElem?_eq_getElem hp']
  obtain ⟨-, hrow⟩ := getElem?_keptRows inOriginal layout.augmented 0
    (List.getElem?_eq_getElem hlt)
  rw [hget, Nat.sub_zero] at hrow
  refine ⟨_, _, List.getElem?_eq_getElem hlt, hrow, ?_⟩
  rcases List.mem_append.mp (List.getElem_mem hp') with hsys | hdoc
  · exact Or.inl (List.eq_of_mem_replicate hsys)
  · obtain ⟨d, -, hd⟩ := List.mem_flatMap.mp hdoc
    exact Or.inr (List.eq_of_mem_replicate hd)

end QCFuse.Guarantees
