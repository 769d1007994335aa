import QCFuse.Library.Segments
import QCFuse.Source.TwoBatchOverlap

/-!
# The two children of a batch

What a child needs so that it is a batch of its own, and when the split gives it that. Only a sequence that is cut in
two has the starts of its child computed again; the other children keep the slice of the parent's.
-/

set_option autoImplicit false

namespace QCFuse.Guarantees

open QCFuse.Library QCFuse.Source

/-! ### What a split has to keep -/

/-- The tokens of each sequence. -/
def tokenCounts (batch : ForwardBatch) : List Nat :=
  match batch.forwardMode with
  | .extend => batch.extendSeqLens.getD []
  | .decode => List.replicate batch.batchSize 1
  | .idle => List.replicate batch.batchSize 0
  | .targetVerify => List.replicate batch.batchSize ((batch.specInfo.map EagleVerifyInput.draftTokenNum).getD 0)

/-- The tokens: request row, position, cache location and input id. -/
def batchTokens (batch : ForwardBatch) : List (Nat × Nat × Nat × Int) :=
  (repeated (tokenCounts batch) batch.reqPoolIndices).zip
    (batch.positions.zip (batch.outCacheLoc.zip batch.inputIds))

/-- The lengths of an extend agree with each other. -/
structure ExtendLens (batch : ForwardBatch) (prefixes exts : List Nat) : Prop where
  extendSeqLens : batch.extendSeqLens = some exts
  extendSeqLensCpu : batch.extendSeqLensCpu = some exts
  extendPrefixLens : batch.extendPrefixLens = some prefixes
  extendPrefixLensCpu : batch.extendPrefixLensCpu = some prefixes
  length_exts : exts.length = batch.batchSize
  length_prefixes : prefixes.length = batch.batchSize
  seqLens : batch.seqLens = List.zipWith (· + ·) prefixes exts

/-- And its starts and its number of tokens with them. -/
structure ExtendShape (batch : ForwardBatch) (prefixes exts : List Nat) : Prop extends
    ExtendLens batch prefixes exts where
  extendStartLoc : batch.extendStartLoc = some (extendStartLocs 0 exts)
  extendNumTokens : batch.extendNumTokens = some exts.sum

/-- The sizes of the masks of a verify input. -/
def maskSizes (spec : EagleVerifyInput) : List Nat := (spec.seqLensCpu.getD []).map (maskSize spec.draftTokenNum)

/-- A batch as `ForwardBatch.init_new` builds it. -/
structure BatchShape (batch : ForwardBatch) : Prop where
  length_positions : batch.positions.length = batch.inputIds.length
  length_outCacheLoc : batch.outCacheLoc.length = batch.inputIds.length
  length_reqPoolIndices : batch.reqPoolIndices.length = batch.batchSize
  length_seqLens : batch.seqLens.length = batch.batchSize
  seqLensCpu : batch.seqLensCpu = some batch.seqLens
  length_loraIds : ∀ ids ∈ batch.loraIds, ids.length = batch.batchSize
  sum_tokenCounts : (tokenCounts batch).sum = batch.inputIds.length
  spec : ∀ spec ∈ batch.specInfo, ∃ lens, spec.seqLensCpu = some lens ∧ lens.length = batch.batchSize
  extend : batch.forwardMode = .extend → (∃ prefixes exts, ExtendShape batch prefixes exts) ∧
    ∀ lens ∈ batch.extendLogprobStartLensCpu, lens.length = batch.batchSize
  verify : batch.forwardMode = .targetVerify → ∃ spec, batch.specInfo = some spec ∧ 0 < spec.draftTokenNum ∧
    ∀ mask ∈ spec.customMask, (maskSizes spec).sum = mask.length
  other : batch.forwardMode = .decode ∨ batch.forwardMode = .idle → batch.extendSeqLens = none ∧
    batch.extendPrefixLens = none ∧ batch.extendStartLoc = none ∧ batch.extendPrefixLensCpu = none ∧
    batch.extendSeqLensCpu = none ∧ batch.extendLogprobStartLensCpu = none ∧ batch.extendNumTokens = none

/-- Sequences, each with its row, prefix and extend length, in two parts; one of them may be cut. -/
inductive SequencesSplit (seqs seqsA seqsB : List (Nat × Nat × Nat)) : Prop
  | whole (h : seqs = seqsA ++ seqsB)
  | cut (front : List (Nat × Nat × Nat)) (row pre left right : Nat) (back : List (Nat × Nat × Nat))
      (hA : seqsA = front ++ [(row, pre, left)]) (hB : seqsB = (row, pre + left, right) :: back)
      (h : seqs = front ++ (row, pre, left + right) :: back)

/-- What the two children have to keep of their batch. -/
structure SplitKeeps (batch a b : ForwardBatch) (split : Nat) : Prop where
  tokens : batchTokens a ++ batchTokens b = batchTokens batch
  extend : batch.forwardMode = .extend → ∀ prefixes exts, ExtendShape batch prefixes exts →
    ∃ prefixesA extsA prefixesB extsB, ExtendShape a prefixesA extsA ∧ ExtendShape b prefixesB extsB ∧
      SequencesSplit (batch.reqPoolIndices.zip (prefixes.zip exts)) (a.reqPoolIndices.zip (prefixesA.zip extsA))
        (b.reqPoolIndices.zip (prefixesB.zip extsB))
  masks : batch.forwardMode = .targetVerify → ∀ spec ∈ batch.specInfo, ∀ mask ∈ spec.customMask,
    ∃ specA specB, a.specInfo = some specA ∧ b.specInfo = some specB ∧
      specA.customMask = some ((cutInto (maskSizes spec) mask).take split).flatten ∧
      specB.customMask = some ((cutInto (maskSizes spec) mask).drop split).flatten

/-- When it does: an extend is cut in two, or has no token in front of the split; a verify batch has no mask, or a
draft and two sequences. -/
def SplitWell (threshold : Rat) (batch : ForwardBatch) (split : Nat) : Prop :=
  match batch.forwardMode with
  | .extend => ∀ exts ∈ batch.extendSeqLensCpu, twoChunkSplit threshold exts = true ∨ (exts.take split).sum = 0
  | .targetVerify => ∀ spec ∈ batch.specInfo, ∀ mask ∈ spec.customMask,
      batch.batchSize = 0 ∨ spec.draftToken.isSome = true ∧ 2 ≤ batch.batchSize
  | .decode | .idle => True

/-! ### The split index -/

theorem balancedLoop_lt (overallSum n : Nat) : ∀ (xs : List Nat) (i leftSum : Nat) (minDiff : Option Nat)
    (bestIndex : Nat), bestIndex < n → i + xs.length ≤ n →
      balancedLoop overallSum i leftSum minDiff bestIndex xs < n := by
  intro xs
  induction xs with
  | nil => exact fun i leftSum minDiff bestIndex hbest _ => hbest
  | cons x xs ih =>
    intro i leftSum minDiff bestIndex hbest hi
    rw [List.length_cons] at hi
    rw [balancedLoop]
    split
    · exact ih _ _ _ _ (by omega) (by omega)
    · exact hbest

theorem splitArrayByBalancedSum_lt {arr : List Nat} (h : arr ≠ []) : splitArrayByBalancedSum arr < arr.length := by
  have hpos := List.length_pos_iff.mpr h
  refine balancedLoop_lt _ _ _ _ _ _ _ hpos ?_
  rw [List.length_dropLast]
  omega

/-- The loop stops at the first index whose sum is over the half. -/
theorem cumLoop_spec (halfSum : Nat) : ∀ (xs : List Nat) (i leftSum : Nat), leftSum ≤ halfSum →
    halfSum < leftSum + xs.sum → ∃ k, cumLoop halfSum i leftSum xs = i + k ∧ k < xs.length ∧
      leftSum + (xs.take k).sum ≤ halfSum ∧ halfSum < leftSum + (xs.take (k + 1)).sum := by
  intro xs
  induction xs with
  | nil =>
    intro i leftSum hle hlt
    rw [List.sum_nil] at hlt
    omega
  | cons x xs ih =>
    intro i leftSum hle hlt
    rw [List.sum_cons] at hlt
    rw [cumLoop]
    split
    next hover => exact ⟨0, rfl, Nat.zero_lt_succ _, by simpa using hle, by simpa using hover⟩
    next hunder =>
      obtain ⟨k, hk, hlt', hbelow, habove⟩ := ih (i + 1) (leftSum + x) (by omega) (by omega)
      refine ⟨k + 1, by omega, Nat.succ_lt_succ hlt', ?_, ?_⟩
      · rw [List.take_succ_cons, List.sum_cons]
        omega
      · rw [List.take_succ_cons, List.sum_cons]
        omega

/-- A batch that is cut in two has tokens. -/
theorem sum_pos_of_twoChunkSplit {threshold : Rat} {exts : List Nat} (h : twoChunkSplit threshold exts = true) :
    0 < exts.sum := by
  rcases Nat.eq_zero_or_pos exts.sum with hzero | hpos
  · have hleft : (exts.take (splitArrayByBalancedSum exts)).sum = 0 := by
      have hall := List.sum_take_add_sum_drop exts (splitArrayByBalancedSum exts)
      omega
    simp [twoChunkSplit, hzero, hleft] at h
  · exact hpos

/-- The sequence that is cut holds the middle. -/
theorem splitArrayByCumLessThanHalf_spec {exts : List Nat} (h : 0 < exts.sum) :
    splitArrayByCumLessThanHalf exts < exts.length ∧
      (exts.take (splitArrayByCumLessThanHalf exts)).sum ≤ exts.sum / 2 ∧
      exts.sum / 2 < (exts.take (splitArrayByCumLessThanHalf exts + 1)).sum := by
  obtain ⟨k, hk, hlt, hbelow, habove⟩ := cumLoop_spec (exts.sum / 2) exts 0 0 (Nat.zero_le _) (by omega)
  rw [Nat.zero_add] at hk hbelow habove
  rw [splitArrayByCumLessThanHalf, hk]
  exact ⟨hlt, hbelow, habove⟩

/-! ### The slices of a child -/

theorem sliceOf_zero {α : Type} (xs : List α) (stop : Nat) : sliceOf xs 0 stop = xs.take stop := rfl

theorem sliceOf_length {α : Type} {xs : List α} {stop : Nat} (h : xs.length = stop) (start : Nat) :
    sliceOf xs start stop = xs.drop start := by
  rw [sliceOf, ← h, List.take_length]

theorem pyAssert_of {condition : Prop} [Decidable condition] (h : condition) :
    pyAssert (decide condition) = .ok () := by
  rw [decide_eq_true h]
  rfl

/-- The child with the given tokens and sequences. -/
def childOf (batch : ForwardBatch) (startTokenIndex endTokenIndex startSeqIndex endSeqIndex : Nat)
    (specInfo : Option EagleVerifyInput) (outNumTokenNonPadded : Nat) : ForwardBatch :=
  let extendField := fun old : Option (List Nat) =>
    if batch.forwardMode = .targetVerify then none else old.map (sliceOf · startSeqIndex endSeqIndex)
  { forwardMode := batch.forwardMode
    batchSize := endSeqIndex - startSeqIndex
    inputIds := sliceOf batch.inputIds startTokenIndex endTokenIndex
    positions := sliceOf batch.positions startTokenIndex endTokenIndex
    outCacheLoc := sliceOf batch.outCacheLoc startTokenIndex endTokenIndex
    reqPoolIndices := sliceOf batch.reqPoolIndices startSeqIndex endSeqIndex
    seqLens := sliceOf batch.seqLens startSeqIndex endSeqIndex
    seqLensCpu := some (sliceOf batch.seqLens startSeqIndex endSeqIndex)
    seqLensSum := some (sliceOf batch.seqLens startSeqIndex endSeqIndex).sum
    extendNumTokens := computeExtendNumTokens (sliceOf batch.inputIds startTokenIndex endTokenIndex) batch.forwardMode
    extendSeqLens := extendField batch.extendSeqLens
    extendPrefixLens := extendField batch.extendPrefixLens
    extendStartLoc := extendField batch.extendStartLoc
    extendPrefixLensCpu := extendField batch.extendPrefixLensCpu
    extendSeqLensCpu := extendField batch.extendSeqLensCpu
    extendLogprobStartLensCpu := extendField batch.extendLogprobStartLensCpu
    loraIds := batch.loraIds.map (sliceOf · startSeqIndex endSeqIndex)
    specInfo
    numTokenNonPadded := some outNumTokenNonPadded
    tboSplitSeqIndex := none
    tboParentTokenRange := some (startTokenIndex, endTokenIndex) }

theorem sliceTokens_eq {α : Type} {old : List α} {n : Nat} (h : old.length = n) (start stop : Nat) :
    sliceTokens n old start stop = .ok (sliceOf old start stop) := by
  rw [sliceTokens, pyAssert_of h]
  rfl

theorem sliceSeqs_eq {α : Type} {old : Option (List α)} {n : Nat} (h : ∀ lens ∈ old, lens.length = n)
    (start stop : Nat) : sliceSeqs n old start stop = .ok (old.map (sliceOf · start stop)) := by
  cases old with
  | none => rfl
  | some lens =>
    rw [sliceSeqs, pyAssert_of (h lens rfl)]
    rfl

theorem length_extendStartLocs (start : Nat) (lens : List Nat) :
    (extendStartLocs start lens).length = lens.length := by
  induction lens generalizing start with
  | nil => rfl
  | cons len lens ih => rw [extendStartLocs, List.length_cons, List.length_cons, ih]

section Children

variable {batch : ForwardBatch} {startTokenIndex endTokenIndex startSeqIndex endSeqIndex n : Nat}

/-- The fields of an extend have one entry per sequence, where they are given. -/
theorem BatchShape.sliceExtend (h : BatchShape batch) {old : Option (List Nat)}
    (hold : old = batch.extendSeqLens ∨ old = batch.extendPrefixLens ∨ old = batch.extendStartLoc ∨
      old = batch.extendPrefixLensCpu ∨ old = batch.extendSeqLensCpu ∨ old = batch.extendLogprobStartLensCpu) :
    sliceExtend batch old startSeqIndex endSeqIndex =
      .ok (if batch.forwardMode = .targetVerify then none else old.map (sliceOf · startSeqIndex endSeqIndex)) := by
  rw [QCFuse.Source.sliceExtend]
  split
  next => rfl
  next hverify =>
    refine sliceSeqs_eq (fun lens hmem => ?_) _ _
    cases hmode : batch.forwardMode with
    | targetVerify => exact absurd hmode hverify
    | decode =>
      obtain ⟨h1, h2, h3, h4, h5, h6, -⟩ := h.other (Or.inl hmode)
      rw [h1, h2, h3, h4, h5, h6] at hold
      simp only [or_self] at hold
      cases hold ▸ hmem
    | idle =>
      obtain ⟨h1, h2, h3, h4, h5, h6, -⟩ := h.other (Or.inr hmode)
      rw [h1, h2, h3, h4, h5, h6] at hold
      simp only [or_self] at hold
      cases hold ▸ hmem
    | extend =>
      obtain ⟨⟨prefixes, exts, hext⟩, hlogprob⟩ := h.extend hmode
      rw [hext.extendSeqLens, hext.extendPrefixLens, hext.extendStartLoc, hext.extendPrefixLensCpu,
        hext.extendSeqLensCpu] at hold
      rcases hold with rfl | rfl | rfl | rfl | rfl | rfl
      · cases hmem
        exact hext.length_exts
      · cases hmem
        exact hext.length_prefixes
      · cases hmem
        rw [length_extendStartLocs]
        exact hext.length_exts
      · cases hmem
        exact hext.length_prefixes
      · cases hmem
        exact hext.length_exts
      · exact hlogprob lens hmem

theorem BatchShape.extendNumTokens_eq (h : BatchShape batch) (hverify : batch.forwardMode ≠ .targetVerify) :
    computeExtendNumTokens batch.inputIds batch.forwardMode = batch.extendNumTokens := by
  cases hmode : batch.forwardMode with
  | targetVerify => exact absurd hmode hverify
  | decode => exact (h.other (Or.inl hmode)).2.2.2.2.2.2.symm
  | idle => exact (h.other (Or.inr hmode)).2.2.2.2.2.2.symm
  | extend =>
    obtain ⟨⟨prefixes, exts, hext⟩, -⟩ := h.extend hmode
    have hsum := h.sum_tokenCounts
    rw [tokenCounts, hmode, hext.extendSeqLens] at hsum
    rw [hext.extendNumTokens]
    exact congrArg some hsum.symm

/-- No assertion of `filter_batch` fails. -/
theorem BatchShape.filterBatch_eq (h : BatchShape batch) (hle : startTokenIndex ≤ endTokenIndex)
    {specInfo : Option EagleVerifyInput}
    (hspec : splitSpecInfo batch.specInfo startSeqIndex endSeqIndex startTokenIndex endTokenIndex = .ok specInfo) :
    filterBatch batch startTokenIndex endTokenIndex startSeqIndex endSeqIndex n =
      .ok (childOf batch startTokenIndex endTokenIndex startSeqIndex endSeqIndex specInfo n) := by
  have hseqLensCpu : sliceSeqs batch.batchSize batch.seqLensCpu startSeqIndex endSeqIndex =
      .ok (some (sliceOf batch.seqLens startSeqIndex endSeqIndex)) := by
    rw [h.seqLensCpu]
    exact sliceSeqs_eq (fun lens hlens => by cases hlens; exact h.length_seqLens) _ _
  simp only [filterBatch, pyAssert_of hle, sliceTokens_eq rfl, sliceTokens_eq h.length_positions,
    sliceTokens_eq h.length_outCacheLoc, sliceTokens_eq h.length_reqPoolIndices, sliceTokens_eq h.length_seqLens,
    hseqLensCpu, h.sliceExtend (Or.inl rfl), h.sliceExtend (Or.inr (Or.inl rfl)),
    h.sliceExtend (Or.inr (Or.inr (Or.inl rfl))), h.sliceExtend (Or.inr (Or.inr (Or.inr (Or.inl rfl)))),
    h.sliceExtend (Or.inr (Or.inr (Or.inr (Or.inr (Or.inl rfl))))),
    h.sliceExtend (Or.inr (Or.inr (Or.inr (Or.inr (Or.inr rfl))))), sliceSeqs_eq h.length_loraIds, hspec, bind,
    Except.bind]
  split
  next hverify =>
    rw [pyAssert_of (h.extendNumTokens_eq hverify), childOf]
    simp only [if_neg hverify]
    rfl
  next hverify =>
    rw [childOf]
    simp only [if_pos (not_not.mp hverify)]
    rfl

end Children

/-! ### The masks -/

section Masks

variable {spec : EagleVerifyInput} {lens : List Nat}

theorem computeMaskOffset_eq (hlens : spec.seqLensCpu = some lens) (k : Nat) :
    computeMaskOffset k spec = .ok ((maskSizes spec).take k).sum := by
  unfold computeMaskOffset
  split
  next hk =>
    rw [hk]
    rfl
  next =>
    have htake : lens.take (min k lens.length) = lens.take k := List.take_eq_take_iff.mpr (by omega)
    rw [hlens, maskSizes, hlens, Option.getD_some, ← List.map_take, ← htake]
    rfl

/-- The mask of the child with the sequences from `start` to `stop` on. -/
def childMask (spec : EagleVerifyInput) (start stop : Nat) : Option (List Bool) :=
  match spec.customMask, spec.draftToken with
  | some mask, some _ =>
    let maskStart := ((maskSizes spec).take start).sum
    let maskEnd := if stop = (maskSizes spec).length then mask.length else ((maskSizes spec).take stop).sum
    some (if maskStart < maskEnd then sliceOf mask maskStart maskEnd else mask)
  | mask, _ => mask

theorem splitCustomMask_eq (hlens : spec.seqLensCpu = some lens) (start stop : Nat) :
    splitCustomMask spec start stop = .ok (childMask spec start stop) := by
  have hsizes : (maskSizes spec).length = lens.length := by
    rw [maskSizes, hlens, List.length_map]
    rfl
  unfold splitCustomMask childMask
  cases spec.customMask with
  | none => rfl
  | some mask =>
    cases spec.draftToken with
    | none => rfl
    | some draft =>
      simp only [computeMaskOffset_eq hlens, hlens, attributeOf, hsizes, bind, Except.bind]
      split <;> rfl

theorem splitSpecInfo_some (hlens : spec.seqLensCpu = some lens) (start stop startToken stopToken : Nat) :
    ∃ child, splitSpecInfo (some spec) start stop startToken stopToken = .ok (some child) ∧
      child.customMask = childMask spec start stop ∧ child.draftTokenNum = spec.draftTokenNum := by
  rw [splitSpecInfo, splitCustomMask_eq hlens]
  exact ⟨_, rfl, rfl, rfl⟩

/-- The spec info of a child has the draft tokens of the batch, and its own mask. -/
theorem BatchShape.splitSpecInfo_ok {batch : ForwardBatch} (h : BatchShape batch)
    (start stop startToken stopToken : Nat) :
    ∃ child, splitSpecInfo batch.specInfo start stop startToken stopToken = .ok child ∧
      child.map EagleVerifyInput.draftTokenNum = batch.specInfo.map EagleVerifyInput.draftTokenNum ∧
      child.map EagleVerifyInput.customMask = batch.specInfo.map (childMask · start stop) := by
  cases hspec : batch.specInfo with
  | none => exact ⟨none, rfl, rfl, rfl⟩
  | some spec =>
    obtain ⟨lens, hlens, -⟩ := h.spec spec hspec
    obtain ⟨child, hchild, hmask, hdraft⟩ := splitSpecInfo_some hlens start stop startToken stopToken
    exact ⟨some child, hchild, congrArg some hdraft, congrArg some hmask⟩

theorem sum_pos_of_maskSizes (hdraft : 0 < spec.draftTokenNum) {sizes : List Nat}
    (h : ∀ size ∈ sizes, size ∈ maskSizes spec) (hne : sizes ≠ []) : 0 < sizes.sum := by
  cases sizes with
  | nil => exact absurd rfl hne
  | cons size sizes =>
    obtain ⟨len, -, rfl⟩ := List.mem_map.mp (h size List.mem_cons_self)
    have hsize : 0 < maskSize spec.draftTokenNum len := Nat.mul_pos (by omega) hdraft
    rw [List.sum_cons]
    omega

/-- The masks of both children, where the split is in the middle of the sequences: each has its own part exactly when
there is no sequence, or a draft and two sequences. -/
theorem childMask_iff {mask : List Bool} (hmask : spec.customMask = some mask)
    (hdraft : 0 < spec.draftTokenNum) (hsum : (maskSizes spec).sum = mask.length) {n : Nat}
    (hlength : (maskSizes spec).length = n) :
    (childMask spec 0 (n / 2) = some ((cutInto (maskSizes spec) mask).take (n / 2)).flatten ∧
      childMask spec (n / 2) n = some ((cutInto (maskSizes spec) mask).drop (n / 2)).flatten) ↔
      n = 0 ∨ spec.draftToken.isSome = true ∧ 2 ≤ n := by
  rw [flatten_take_cutInto hsum, flatten_drop_cutInto hsum]
  generalize hoff : ((maskSizes spec).take (n / 2)).sum = off
  have hrest := List.sum_take_add_sum_drop (maskSizes spec) (n / 2)
  rw [hoff, hsum] at hrest
  have hpos : 1 ≤ n → 0 < ((maskSizes spec).drop (n / 2)).sum := by
    intro hn
    refine sum_pos_of_maskSizes hdraft (fun size hsize => List.mem_of_mem_drop hsize) ?_
    rw [Ne, List.drop_eq_nil_iff, hlength]
    omega
  rcases Nat.eq_zero_or_pos n with rfl | hn
  · have hnil : mask = [] := by
      rw [List.length_eq_zero_iff.mp hlength] at hsum
      exact List.length_eq_zero_iff.mp hsum.symm
    subst hnil
    refine iff_of_true ?_ (Or.inl rfl)
    cases hdraftToken : spec.draftToken <;> simp [childMask, hmask, hdraftToken]
  · have hne : mask.length ≠ off := by
      have := hpos hn
      omega
    cases hdraftToken : spec.draftToken with
    | none =>
      -- Both children have the whole mask.
      refine iff_of_false (fun hboth => ?_) (by simp; omega)
      have hA := hboth.1
      simp only [childMask, hmask, hdraftToken, Option.some.injEq] at hA
      have hlen := congrArg List.length hA
      rw [List.length_take] at hlen
      omega
    | some draft =>
      rcases Nat.lt_or_ge n 2 with hone | htwo
      · obtain rfl : n = 1 := by omega
        -- The first child has no sequence, and the whole mask.
        refine iff_of_false (fun hboth => ?_) (by simp)
        have hA := hboth.1
        have hzero : off = 0 := by simpa using hoff.symm
        simp [childMask, hmask, hdraftToken, hlength, hzero] at hA
        rw [hA, hzero] at hne
        exact hne rfl
      · have hoffpos : 0 < off := by
          rw [← hoff]
          refine sum_pos_of_maskSizes hdraft (fun size hsize => List.mem_of_mem_take hsize) ?_
          rw [Ne, List.take_eq_nil_iff, ← List.length_eq_zero_iff, hlength]
          omega
        refine iff_of_true ⟨?_, ?_⟩ (Or.inr ⟨rfl, htwo⟩)
        · simp only [childMask, hmask, hdraftToken, hlength, hoff, List.take_zero, List.sum_nil, if_pos hoffpos,
            if_neg (show n / 2 ≠ n by omega), sliceOf_zero]
        · simp only [childMask, hmask, hdraftToken, hlength, hoff, if_true,
            if_pos (show off < mask.length by have := hpos hn; omega), sliceOf_length rfl]

end Masks

/-! ### The tokens -/

/-- The children have the tokens of the batch when their rows are those of the batch. -/
theorem batchTokens_append {batch a b : ForwardBatch} (h : BatchShape batch) {t : Nat}
    (hrows : repeated (tokenCounts a) a.reqPoolIndices ++ repeated (tokenCounts b) b.reqPoolIndices =
      repeated (tokenCounts batch) batch.reqPoolIndices)
    (hlength : (repeated (tokenCounts a) a.reqPoolIndices).length = t) (ht : t ≤ batch.inputIds.length)
    (hA : a.positions = batch.positions.take t ∧ a.outCacheLoc = batch.outCacheLoc.take t ∧
      a.inputIds = batch.inputIds.take t)
    (hB : b.positions = batch.positions.drop t ∧ b.outCacheLoc = batch.outCacheLoc.drop t ∧
      b.inputIds = batch.inputIds.drop t) : batchTokens a ++ batchTokens b = batchTokens batch := by
  have hpositions := h.length_positions
  have hloc := h.length_outCacheLoc
  rw [batchTokens, batchTokens, batchTokens, ← hrows, hA.1, hA.2.1, hA.2.2, hB.1, hB.2.1, hB.2.2]
  have hinner : (batch.outCacheLoc.take t).zip (batch.inputIds.take t) ++
      (batch.outCacheLoc.drop t).zip (batch.inputIds.drop t) = batch.outCacheLoc.zip batch.inputIds := by
    rw [← List.zip_append (by simp [hloc]), List.take_append_drop, List.take_append_drop]
  have houter : (batch.positions.take t).zip ((batch.outCacheLoc.take t).zip (batch.inputIds.take t)) ++
      (batch.positions.drop t).zip ((batch.outCacheLoc.drop t).zip (batch.inputIds.drop t)) =
        batch.positions.zip (batch.outCacheLoc.zip batch.inputIds) := by
    rw [← List.zip_append (by simp [hloc, hpositions]), List.take_append_drop, hinner]
  rw [← List.zip_append (by simp [hlength, hloc, hpositions, ht]), houter]

/-- The tokens of each sequence, where all have as many. -/
def uniformCount (batch : ForwardBatch) : Nat :=
  match batch.forwardMode with
  | .decode => 1
  | .extend | .idle => 0
  | .targetVerify => (batch.specInfo.map EagleVerifyInput.draftTokenNum).getD 0

theorem tokenCounts_uniform {batch : ForwardBatch} (h : batch.forwardMode ≠ .extend) :
    tokenCounts batch = List.replicate batch.batchSize (uniformCount batch) := by
  unfold tokenCounts uniformCount
  cases hmode : batch.forwardMode with
  | extend => exact absurd hmode h
  | _ => rfl

/-- Sequences with as many tokens each, split at a sequence. -/
theorem repeated_uniform {α : Type} (width split : Nat) (rows : List α) (h : split ≤ rows.length) :
    repeated (List.replicate split width) (rows.take split) ++
        repeated (List.replicate (rows.length - split) width) (rows.drop split) =
      repeated (List.replicate rows.length width) rows := by
  rw [← repeated_append (by simp [h]), List.take_append_drop, List.replicate_append_replicate,
    Nat.add_sub_cancel' h]

section Uniform

variable {threshold : Rat} {batch : ForwardBatch} {split : Nat}

/-- The split index of a batch that is no extend, and the token it stands at. -/
theorem localSplitSeqIndex_uniform (h : BatchShape batch) (hmode : batch.forwardMode ≠ .extend)
    (hsplit : localSplitSeqIndex threshold batch = .ok split) :
    split ≤ batch.batchSize ∧ (batch.forwardMode = .targetVerify → split = batch.batchSize / 2) ∧
      batchSplitTokenIndex threshold batch split = .ok (split * uniformCount batch) := by
  unfold localSplitSeqIndex at hsplit
  unfold batchSplitTokenIndex uniformCount
  cases hforward : batch.forwardMode with
  | extend => exact absurd hforward hmode
  | decode =>
    rw [hforward] at hsplit
    have hvalue : batch.batchSize * 1 / 1 / 2 = split := Except.ok.inj hsplit
    exact ⟨by omega, nofun, rfl⟩
  | idle =>
    obtain ⟨-, -, -, -, -, -, hnone⟩ := h.other (Or.inr hforward)
    rw [hforward, hnone] at hsplit
    obtain rfl : 0 = split := Except.ok.inj hsplit
    exact ⟨Nat.zero_le _, nofun, rfl⟩
  | targetVerify =>
    obtain ⟨spec, hspec, hdraft, -⟩ := h.verify hforward
    rw [hforward, hspec] at hsplit
    have hvalue : batch.batchSize * spec.draftTokenNum / spec.draftTokenNum / 2 = split := Except.ok.inj hsplit
    rw [Nat.mul_div_cancel _ hdraft] at hvalue
    rw [hspec]
    exact ⟨by omega, fun _ => hvalue.symm, rfl⟩

/-- The two children of a batch that is no extend. -/
theorem prepareTbo_uniform (h : BatchShape batch) (hmode : batch.forwardMode ≠ .extend)
    (htoken : batchSplitTokenIndex threshold batch split = .ok (split * uniformCount batch))
    (hle : split * uniformCount batch ≤ batch.inputIds.length) {specA specB : Option EagleVerifyInput}
    (hspecA : splitSpecInfo batch.specInfo 0 split 0 (split * uniformCount batch) = .ok specA)
    (hspecB : splitSpecInfo batch.specInfo split batch.batchSize (split * uniformCount batch)
      batch.inputIds.length = .ok specB) : prepareTbo threshold batch split = .ok
        (childOf batch 0 (split * uniformCount batch) 0 split specA
            (childrenNumTokenNonPadded (split * uniformCount batch) batch.inputIds.length).1,
          childOf batch (split * uniformCount batch) batch.inputIds.length split batch.batchSize specB
            (childrenNumTokenNonPadded (split * uniformCount batch) batch.inputIds.length).2) := by
  rw [prepareTbo, htoken]
  simp only [bind, Except.bind, if_neg hmode, pure, Except.pure, Bool.false_eq_true, if_false,
    h.filterBatch_eq (Nat.zero_le _) hspecA, h.filterBatch_eq hle hspecB]

theorem tokenCounts_childOf (hmode : batch.forwardMode ≠ .extend) {ts te s e n : Nat}
    {specInfo : Option EagleVerifyInput}
    (hspec : specInfo.map EagleVerifyInput.draftTokenNum = batch.specInfo.map EagleVerifyInput.draftTokenNum) :
    tokenCounts (childOf batch ts te s e specInfo n) = List.replicate (e - s) (uniformCount batch) := by
  have hchild : uniformCount (childOf batch ts te s e specInfo n) = uniformCount batch := by
    have hforward : (childOf batch ts te s e specInfo n).forwardMode = batch.forwardMode := rfl
    have hinfo : (childOf batch ts te s e specInfo n).specInfo = specInfo := rfl
    unfold uniformCount
    rw [hforward, hinfo, hspec]
  rw [← hchild]
  exact tokenCounts_uniform hmode

/-- The tokens of a batch that is no extend. -/
theorem batchTokens_uniform (h : BatchShape batch) (hmode : batch.forwardMode ≠ .extend)
    (hle : split ≤ batch.batchSize) {specA specB : Option EagleVerifyInput} {nA nB : Nat}
    (hspecA : specA.map EagleVerifyInput.draftTokenNum = batch.specInfo.map EagleVerifyInput.draftTokenNum)
    (hspecB : specB.map EagleVerifyInput.draftTokenNum = batch.specInfo.map EagleVerifyInput.draftTokenNum) :
    batchTokens (childOf batch 0 (split * uniformCount batch) 0 split specA nA) ++
      batchTokens (childOf batch (split * uniformCount batch) batch.inputIds.length split batch.batchSize specB nB) =
        batchTokens batch := by
  have hrows := h.length_reqPoolIndices
  have htokens := h.sum_tokenCounts
  rw [tokenCounts_uniform hmode, List.sum_replicate, smul_eq_mul] at htokens
  have hinside : split * uniformCount batch ≤ batch.inputIds.length := htokens ▸ Nat.mul_le_mul_right _ hle
  refine batchTokens_append h ?_ ?_ hinside ⟨rfl, rfl, rfl⟩
    ⟨sliceOf_length h.length_positions _, sliceOf_length h.length_outCacheLoc _, sliceOf_length rfl _⟩
  · rw [tokenCounts_childOf hmode hspecA, tokenCounts_childOf hmode hspecB, tokenCounts_uniform hmode, ← hrows]
    have hB : sliceOf batch.reqPoolIndices split batch.reqPoolIndices.length = batch.reqPoolIndices.drop split :=
      sliceOf_length rfl split
    have happend := repeated_uniform (uniformCount batch) split batch.reqPoolIndices (hrows ▸ hle)
    rw [← hB] at happend
    exact happend
  · have hA : (childOf batch 0 (split * uniformCount batch) 0 split specA nA).reqPoolIndices.length = split := by
      have htake : (batch.reqPoolIndices.take split).length = split := by
        rw [List.length_take, hrows, Nat.min_eq_left hle]
      exact htake
    rw [tokenCounts_childOf hmode hspecA, length_repeated (by rw [List.length_replicate, hA]; rfl),
      List.sum_replicate, smul_eq_mul]
    rfl

/-- The split keeps a batch that is no extend exactly where it keeps its masks. -/
theorem splitKeeps_uniform (h : BatchShape batch) (hmode : batch.forwardMode ≠ .extend)
    (hsplit : localSplitSeqIndex threshold batch = .ok split) :
    ∃ a b, prepareTbo threshold batch split = .ok (a, b) ∧
      (SplitKeeps batch a b split ↔ SplitWell threshold batch split) := by
  obtain ⟨hle, hhalf, htoken⟩ := localSplitSeqIndex_uniform h hmode hsplit
  have htokens := h.sum_tokenCounts
  rw [tokenCounts_uniform hmode, List.sum_replicate, smul_eq_mul] at htokens
  have hinside : split * uniformCount batch ≤ batch.inputIds.length := htokens ▸ Nat.mul_le_mul_right _ hle
  obtain ⟨specA, hspecA, hdraftA, hmaskA⟩ := h.splitSpecInfo_ok 0 split 0 (split * uniformCount batch)
  obtain ⟨specB, hspecB, hdraftB, hmaskB⟩ :=
    h.splitSpecInfo_ok split batch.batchSize (split * uniformCount batch) batch.inputIds.length
  refine ⟨_, _, prepareTbo_uniform h hmode htoken hinside hspecA hspecB, ?_⟩
  have hkeeps (nA nB : Nat) : batchTokens (childOf batch 0 (split * uniformCount batch) 0 split specA nA) ++
      batchTokens (childOf batch (split * uniformCount batch) batch.inputIds.length split batch.batchSize specB nB) =
        batchTokens batch := batchTokens_uniform h hmode hle hdraftA hdraftB
  cases hforward : batch.forwardMode with
  | extend => exact absurd hforward hmode
  | decode | idle =>
    refine iff_of_true ⟨hkeeps _ _, fun hextend => ?_, fun hverify => ?_⟩ ?_
    · cases hforward.symm.trans hextend
    · cases hforward.symm.trans hverify
    · rw [SplitWell, hforward]
      trivial
  | targetVerify =>
    obtain ⟨spec, hspec, hdraft, hsum⟩ := h.verify hforward
    obtain ⟨lens, hlens, hlength⟩ := h.spec spec hspec
    have hsizes : (maskSizes spec).length = batch.batchSize := by
      rw [maskSizes, hlens, List.length_map]
      exact hlength
    rw [hspec, Option.map_some] at hmaskA hmaskB
    obtain ⟨childA, rfl, hA⟩ := Option.map_eq_some_iff.mp hmaskA
    obtain ⟨childB, rfl, hB⟩ := Option.map_eq_some_iff.mp hmaskB
    rw [hhalf hforward] at hA hB
    have hiff {mask : List Bool} (hmask : mask ∈ spec.customMask) :=
      childMask_iff hmask hdraft (hsum mask hmask) hsizes
    rw [← hA, ← hB] at hiff
    rw [SplitWell, hforward, hspec]
    constructor
    · rintro hsplits _ ⟨⟩ mask hmask
      obtain ⟨_, _, ⟨⟩, ⟨⟩, hmaskA, hmaskB⟩ := hsplits.masks hforward spec hspec mask hmask
      rw [hhalf hforward] at hmaskA hmaskB
      exact (hiff hmask).mp ⟨hmaskA, hmaskB⟩
    · refine fun hwell => ⟨hkeeps _ _, fun hextend => ?_, fun _ spec' hspec' mask hmask => ?_⟩
      · cases hforward.symm.trans hextend
      · cases hspec.symm.trans hspec'
        obtain ⟨hmaskA, hmaskB⟩ := (hiff hmask).mpr (hwell spec rfl mask hmask)
        rw [hhalf hforward]
        exact ⟨childA, childB, rfl, rfl, hmaskA, hmaskB⟩

end Uniform

/-! ### An extend split at a sequence -/

theorem extendStartLocs_take (lens : List Nat) (start k : Nat) :
    (extendStartLocs start lens).take k = extendStartLocs start (lens.take k) := by
  induction lens generalizing start k with
  | nil => rw [List.take_nil, extendStartLocs, List.take_nil]
  | cons len lens ih =>
    cases k with
    | zero => rfl
    | succ k => rw [extendStartLocs, List.take_succ_cons, List.take_succ_cons, extendStartLocs, ih]

theorem extendStartLocs_drop (lens : List Nat) (start k : Nat) :
    (extendStartLocs start lens).drop k = extendStartLocs (start + (lens.take k).sum) (lens.drop k) := by
  induction lens generalizing start k with
  | nil => rw [List.drop_nil, extendStartLocs, List.drop_nil, extendStartLocs]
  | cons len lens ih =>
    cases k with
    | zero => rfl
    | succ k =>
      rw [extendStartLocs, List.drop_succ_cons, List.drop_succ_cons, List.take_succ_cons, List.sum_cons, ih,
        Nat.add_assoc]

/-- Starts tell where they begin. -/
theorem extendStartLocs_inj {start start' : Nat} {lens : List Nat} (hne : lens ≠ [])
    (h : extendStartLocs start lens = extendStartLocs start' lens) : start = start' := by
  cases lens with
  | nil => exact absurd rfl hne
  | cons len lens => exact (List.cons.inj h).1

theorem zipWith_sliceOf {α β γ : Type} (f : α → β → γ) (xs : List α) (ys : List β) (start stop : Nat) :
    sliceOf (List.zipWith f xs ys) start stop = List.zipWith f (sliceOf xs start stop) (sliceOf ys start stop) := by
  rw [sliceOf, List.take_zipWith, List.drop_zipWith]
  rfl

theorem length_sliceOf {α : Type} {xs : List α} {start stop : Nat} (h : stop ≤ xs.length) :
    (sliceOf xs start stop).length = stop - start := by
  rw [sliceOf, List.length_drop, List.length_take, Nat.min_eq_left h]

section Extend

variable {threshold : Rat} {batch : ForwardBatch} {prefixes exts : List Nat} {split : Nat}

theorem childOf_extend (hmode : batch.forwardMode = .extend) (hext : ExtendShape batch prefixes exts)
    (ts te s e n : Nat) (specInfo : Option EagleVerifyInput) :
    (childOf batch ts te s e specInfo n).extendSeqLens = some (sliceOf exts s e) ∧
      (childOf batch ts te s e specInfo n).extendSeqLensCpu = some (sliceOf exts s e) ∧
      (childOf batch ts te s e specInfo n).extendPrefixLens = some (sliceOf prefixes s e) ∧
      (childOf batch ts te s e specInfo n).extendPrefixLensCpu = some (sliceOf prefixes s e) ∧
      (childOf batch ts te s e specInfo n).extendStartLoc = some (sliceOf (extendStartLocs 0 exts) s e) := by
  simp [childOf, hmode, hext.extendSeqLens, hext.extendSeqLensCpu, hext.extendPrefixLens, hext.extendPrefixLensCpu,
    hext.extendStartLoc]

theorem ExtendShape.lensOf (hmode : batch.forwardMode = .extend) (hext : ExtendShape batch prefixes exts)
    {ts te s e n : Nat} {specInfo : Option EagleVerifyInput} (he : e ≤ batch.batchSize) :
    ExtendLens (childOf batch ts te s e specInfo n) (sliceOf prefixes s e) (sliceOf exts s e) := by
  obtain ⟨hseq, hseqCpu, hprefix, hprefixCpu, -⟩ := childOf_extend hmode hext ts te s e n specInfo
  refine ⟨hseq, hseqCpu, hprefix, hprefixCpu, length_sliceOf (hext.length_exts ▸ he),
    length_sliceOf (hext.length_prefixes ▸ he), ?_⟩
  rw [← zipWith_sliceOf, ← hext.seqLens]
  rfl

/-- A child of sequences as they are has the fields of an extend when its starts are its own. -/
theorem ExtendShape.shapeOf (hmode : batch.forwardMode = .extend) (hext : ExtendShape batch prefixes exts)
    {ts te s e n : Nat} {specInfo : Option EagleVerifyInput} (he : e ≤ batch.batchSize)
    (hte : te ≤ batch.inputIds.length) (htokens : (sliceOf exts s e).sum = te - ts)
    (hstart : sliceOf (extendStartLocs 0 exts) s e = extendStartLocs 0 (sliceOf exts s e)) :
    ExtendShape (childOf batch ts te s e specInfo n) (sliceOf prefixes s e) (sliceOf exts s e) := by
  refine ⟨hext.lensOf hmode he, ?_, ?_⟩
  · rw [← hstart]
    exact (childOf_extend hmode hext ts te s e n specInfo).2.2.2.2
  · have hcount : (childOf batch ts te s e specInfo n).extendNumTokens =
        computeExtendNumTokens (sliceOf batch.inputIds ts te) batch.forwardMode := rfl
    rw [hcount, hmode, htokens, ← length_sliceOf hte]
    rfl

theorem twoChunk_ok (hthreshold : threshold ≤ 1 / 2) (lens : List Nat) :
    isTwoChunkSplitEnabled threshold (some lens) = .ok (twoChunkSplit threshold lens) := by
  rw [isTwoChunkSplitEnabled, pyAssert_of hthreshold]
  rfl

/-- The split index of an extend, and the token it stands at. -/
theorem localSplitSeqIndex_extend (hthreshold : threshold ≤ 1 / 2) (hmode : batch.forwardMode = .extend)
    (hext : ExtendShape batch prefixes exts) (hsplit : localSplitSeqIndex threshold batch = .ok split) :
    split = (if twoChunkSplit threshold exts then splitArrayByCumLessThanHalf exts
      else splitArrayByBalancedSum exts) ∧
    batchSplitTokenIndex threshold batch split =
      .ok (if twoChunkSplit threshold exts then exts.sum / 2 else (exts.take split).sum) := by
  constructor
  · unfold localSplitSeqIndex at hsplit
    rw [hmode, hext.extendSeqLensCpu] at hsplit
    have hvalue : (splitExtendSeqs threshold exts) = .ok split := hsplit
    rw [splitExtendSeqs, twoChunk_ok hthreshold] at hvalue
    cases htwo : twoChunkSplit threshold exts with
    | true =>
      rw [htwo] at hvalue
      exact (Except.ok.inj hvalue).symm
    | false =>
      rw [htwo] at hvalue
      exact (Except.ok.inj hvalue).symm
  · unfold batchSplitTokenIndex
    rw [hmode, hext.extendSeqLensCpu]
    have hvalue : computeSplitTokenIndex threshold split .extend (some exts) none =
        .ok (if twoChunkSplit threshold exts then exts.sum / 2 else (exts.take split).sum) := by
      rw [computeSplitTokenIndex, twoChunk_ok hthreshold]
      cases htwo : twoChunkSplit threshold exts <;> rfl
    exact hvalue

theorem tokenCounts_extend (hext : ExtendShape batch prefixes exts) (hmode : batch.forwardMode = .extend) :
    tokenCounts batch = exts := by
  rw [tokenCounts, hmode, hext.extendSeqLens]
  rfl

theorem sum_exts (h : BatchShape batch) (hmode : batch.forwardMode = .extend)
    (hext : ExtendShape batch prefixes exts) : exts.sum = batch.inputIds.length :=
  tokenCounts_extend hext hmode ▸ h.sum_tokenCounts

/-- The shape of an extend is unique. -/
theorem ExtendShape.unique {prefixes' exts' : List Nat} (hext : ExtendShape batch prefixes exts)
    (hext' : ExtendShape batch prefixes' exts') : prefixes' = prefixes ∧ exts' = exts :=
  ⟨Option.some.inj (hext'.extendPrefixLens.symm.trans hext.extendPrefixLens),
    Option.some.inj (hext'.extendSeqLens.symm.trans hext.extendSeqLens)⟩

/-- An extend split at a sequence is kept exactly when no token is in front of the split. -/
theorem splitKeeps_whole (hthreshold : threshold ≤ 1 / 2) (h : BatchShape batch)
    (hmode : batch.forwardMode = .extend) (hext : ExtendShape batch prefixes exts)
    (hsplit : localSplitSeqIndex threshold batch = .ok split) (htwo : twoChunkSplit threshold exts = false) :
    ∃ a b, prepareTbo threshold batch split = .ok (a, b) ∧
      (SplitKeeps batch a b split ↔ (exts.take split).sum = 0) := by
  obtain ⟨hindex, htoken⟩ := localSplitSeqIndex_extend hthreshold hmode hext hsplit
  rw [htwo] at hindex htoken
  have hlengthExts := hext.length_exts
  have hlengthPrefixes := hext.length_prefixes
  have hrows := h.length_reqPoolIndices
  have hsum := sum_exts h hmode hext
  have htakeDrop := List.sum_take_add_sum_drop exts split
  have hlt : exts ≠ [] → split < exts.length := fun hne => hindex ▸ splitArrayByBalancedSum_lt hne
  have hle : split ≤ exts.length := by
    rcases eq_or_ne exts [] with rfl | hne
    · rw [hindex]
      exact Nat.le_refl 0
    · exact (hlt hne).le
  obtain ⟨specA, hspecA, -⟩ := h.splitSpecInfo_ok 0 split 0 (exts.take split).sum
  obtain ⟨specB, hspecB, -⟩ := h.splitSpecInfo_ok split batch.batchSize (exts.take split).sum batch.inputIds.length
  have hfirst : (exts.take split).sum ≤ batch.inputIds.length := by omega
  have hprepare : ∃ nA nB, prepareTbo threshold batch split =
      .ok (childOf batch 0 (exts.take split).sum 0 split specA nA,
        childOf batch (exts.take split).sum batch.inputIds.length split batch.batchSize specB nB) := by
    refine ⟨(childrenNumTokenNonPadded (exts.take split).sum batch.inputIds.length).1,
      (childrenNumTokenNonPadded (exts.take split).sum batch.inputIds.length).2, ?_⟩
    rw [prepareTbo, htoken]
    simp only [bind, Except.bind, if_pos hmode, hext.extendSeqLensCpu, twoChunk_ok hthreshold, htwo, pure,
      Except.pure, Bool.false_eq_true, if_false, h.filterBatch_eq (Nat.zero_le _) hspecA,
      h.filterBatch_eq hfirst hspecB]
  obtain ⟨nA, nB, hprepare⟩ := hprepare
  refine ⟨_, _, hprepare, ?_⟩
  have hback : sliceOf exts split batch.batchSize = exts.drop split := sliceOf_length hlengthExts split
  have hstarts : sliceOf (extendStartLocs 0 exts) split batch.batchSize =
      extendStartLocs (exts.take split).sum (exts.drop split) := by
    rw [sliceOf_length ((length_extendStartLocs 0 exts).trans hlengthExts), extendStartLocs_drop, Nat.zero_add]
  constructor
  · intro hkeeps
    obtain ⟨prefixesA, extsA, prefixesB, extsB, -, hB, -⟩ := hkeeps.extend hmode prefixes exts hext
    obtain ⟨hseq, -, -, -, hloc⟩ := childOf_extend hmode hext (exts.take split).sum batch.inputIds.length split
      batch.batchSize nB specB
    obtain rfl : exts.drop split = extsB := Option.some.inj ((hback ▸ hseq).symm.trans hB.extendSeqLens)
    have hstart := Option.some.inj ((hstarts ▸ hloc).symm.trans hB.extendStartLoc)
    rcases eq_or_ne exts [] with rfl | hne
    · rw [List.take_nil]
      rfl
    · refine extendStartLocs_inj ?_ hstart
      have hsplitlt := hlt hne
      rw [Ne, List.drop_eq_nil_iff]
      omega
  · intro hzero
    have hA : ExtendShape (childOf batch 0 (exts.take split).sum 0 split specA nA) (prefixes.take split)
        (exts.take split) :=
      hext.shapeOf hmode (hlengthExts ▸ hle) hfirst rfl (extendStartLocs_take exts 0 split)
    have hB : ExtendShape (childOf batch (exts.take split).sum batch.inputIds.length split batch.batchSize specB nB)
        (sliceOf prefixes split batch.batchSize) (sliceOf exts split batch.batchSize) := by
      refine hext.shapeOf hmode (Nat.le_refl _) (Nat.le_refl _) ?_ ?_
      · rw [hback]
        omega
      · rw [hstarts, hback, hzero]
    rw [hback, sliceOf_length hlengthPrefixes] at hB
    have hrowsB : (childOf batch (exts.take split).sum batch.inputIds.length split batch.batchSize specB
        nB).reqPoolIndices = batch.reqPoolIndices.drop split := sliceOf_length hrows split
    have hfront : (exts.take split).length = (batch.reqPoolIndices.take split).length := by
      rw [List.length_take, List.length_take, hlengthExts, hrows]
    refine ⟨?_, fun _ prefixes' exts' hext' => ?_, fun hverify => ?_⟩
    · refine batchTokens_append h ?_ ?_ hfirst ⟨rfl, rfl, rfl⟩
        ⟨sliceOf_length h.length_positions _, sliceOf_length h.length_outCacheLoc _, sliceOf_length rfl _⟩
      · rw [tokenCounts_extend hA hmode, tokenCounts_extend hB hmode, tokenCounts_extend hext hmode, hrowsB]
        have happend := repeated_append hfront (exts.drop split) (batch.reqPoolIndices.drop split)
        rw [List.take_append_drop, List.take_append_drop] at happend
        exact happend.symm
      · rw [tokenCounts_extend hA hmode]
        exact length_repeated hfront
    · obtain ⟨rfl, rfl⟩ := hext.unique hext'
      refine ⟨_, _, _, _, hA, hB, .whole ?_⟩
      rw [hrowsB]
      have hrowsA : (childOf batch 0 (exts'.take split).sum 0 split specA nA).reqPoolIndices =
          batch.reqPoolIndices.take split := rfl
      rw [hrowsA, ← List.zip_append (by simp [hlengthExts, hlengthPrefixes, hrows]),
        ← List.zip_append (by simp [hlengthExts, hlengthPrefixes]), List.take_append_drop, List.take_append_drop,
        List.take_append_drop]
    · cases hmode.symm.trans hverify

end Extend

/-! ### An extend with a sequence cut in two -/

theorem split_at {α : Type} {xs : List α} {k : Nat} (h : k < xs.length) :
    ∃ front x back, xs = front ++ x :: back ∧ front.length = k :=
  ⟨xs.take k, xs[k], xs.drop (k + 1), by rw [List.getElem_cons_drop, List.take_append_drop],
    by rw [List.length_take]; omega⟩

theorem sliceOf_front {α : Type} (front : List α) (x : α) (back : List α) {k : Nat} (h : front.length = k) :
    sliceOf (front ++ x :: back) 0 (k + 1) = front ++ [x] := by
  subst h
  rw [sliceOf_zero, List.take_length_add_append]
  rfl

theorem sliceOf_back {α : Type} (front : List α) (x : α) (back : List α) {k n : Nat} (h : front.length = k)
    (hn : (front ++ x :: back).length = n) : sliceOf (front ++ x :: back) k n = x :: back := by
  rw [sliceOf_length hn, ← h, List.drop_left]

theorem set_last {α : Type} (front : List α) (x y : α) :
    (front ++ [x]).set ((front ++ [x]).length - 1) y = front ++ [y] := by
  simp

theorem extendStartLocs_concat (front : List Nat) (start x : Nat) :
    extendStartLocs start (front ++ [x]) = extendStartLocs start front ++ [start + front.sum] := by
  induction front generalizing start with
  | nil => rfl
  | cons len front ih =>
    rw [List.cons_append, extendStartLocs, extendStartLocs, ih, List.sum_cons, Nat.add_assoc, List.cons_append]

theorem subscriptable_of {lens : List Nat} (h : lens ≠ []) : subscriptable (some lens) = .ok lens := by
  cases lens with
  | nil => exact absurd rfl h
  | cons len lens => rfl

section Cut

variable {batch childA childB : ForwardBatch} {front back prefixFront prefixBack : List Nat}
  {left right pre split : Nat}

/-- What `derive_fields_related_to_seq_len_for_two_chunk` sets. -/
theorem deriveFieldsForTwoChunk_eq (hlens : batch.extendSeqLensCpu = some (front ++ (left + right) :: back))
    (hfront : front.length = split) (hhalf : (front ++ (left + right) :: back).sum / 2 = front.sum + left)
    (hA : ExtendLens childA (prefixFront ++ [pre]) (front ++ [left + right]))
    (hseqA : childA.seqLensCpu = some childA.seqLens)
    (hB : ExtendLens childB (pre :: prefixBack) ((left + right) :: back))
    (hlength : prefixFront.length = front.length) :
    deriveFieldsForTwoChunk batch childA childB split = .ok
      ({ childA with
          extendSeqLensCpu := some (front ++ [left])
          extendSeqLens := some (front ++ [left])
          extendNumTokens := some (front.sum + left)
          seqLensCpu := some (List.zipWith (· + ·) prefixFront front ++ [left + pre])
          seqLens := List.zipWith (· + ·) prefixFront front ++ [left + pre]
          seqLensSum := some (List.zipWith (· + ·) prefixFront front ++ [left + pre]).sum },
        { childB with
          extendSeqLensCpu := some (right :: back)
          extendSeqLens := some (right :: back)
          extendNumTokens := some (right :: back).sum
          extendPrefixLensCpu := some ((pre + left) :: prefixBack)
          extendPrefixLens := some ((pre + left) :: prefixBack)
          extendStartLoc := some (extendStartLocs 0 (right :: back)) }) := by
  have hcut : pyIndex (front ++ (left + right) :: back) split = .ok (left + right) := by
    rw [pyIndex_ok_iff, ← hfront, List.getElem?_append_right (Nat.le_refl _), Nat.sub_self]
    rfl
  have htake : ((front ++ (left + right) :: back).take split).sum = front.sum := by
    rw [← hfront, List.take_left]
  have hleft : front.sum + left - front.sum = left := Nat.add_sub_cancel_left _ _
  have hright : left + right - left = right := Nat.add_sub_cancel_left _ _
  have hsumA : (front ++ [left]).sum = front.sum + left := by
    rw [List.sum_append, List.sum_singleton]
  have hzip : childA.seqLens = List.zipWith (· + ·) prefixFront front ++ [pre + (left + right)] := by
    rw [hA.seqLens, List.zipWith_append hlength]
    rfl
  have hne {x : Nat} {xs : List Nat} : xs ++ [x] ≠ [] := List.append_ne_nil_of_right_ne_nil _ (List.cons_ne_nil _ _)
  have hlast {x : Nat} {xs : List Nat} : (xs ++ [x]).getLastD 0 = x := by simp
  rw [deriveFieldsForTwoChunk, hlens, hA.extendSeqLensCpu, hA.extendSeqLens, hseqA, hzip, hA.extendPrefixLensCpu,
    hB.extendSeqLensCpu, hB.extendSeqLens, hB.extendPrefixLensCpu, hB.extendPrefixLens]
  simp only [subscriptable_of hne, subscriptable_of (List.append_ne_nil_of_right_ne_nil _ (List.cons_ne_nil _ _)),
    subscriptable_of (List.cons_ne_nil _ _), bind, Except.bind, hhalf, htake, hleft, hcut, hright, set_last,
    updatedDevice, updatedSum, hsumA, hlast, List.set_cons_zero, List.headD_cons, pure, Except.pure, Option.map_some]
  rfl

/-- The first child of a cut, with the part of the last sequence that it has. -/
theorem ExtendLens.cutFront (hA : ExtendLens childA (prefixFront ++ [pre]) (front ++ [left + right]))
    (hlength : prefixFront.length = front.length) (hloc : childA.extendStartLoc =
      some (extendStartLocs 0 (front ++ [left + right]))) : ExtendShape
        { childA with
          extendSeqLensCpu := some (front ++ [left])
          extendSeqLens := some (front ++ [left])
          extendNumTokens := some (front.sum + left)
          seqLensCpu := some (List.zipWith (· + ·) prefixFront front ++ [left + pre])
          seqLens := List.zipWith (· + ·) prefixFront front ++ [left + pre]
          seqLensSum := some (List.zipWith (· + ·) prefixFront front ++ [left + pre]).sum }
        (prefixFront ++ [pre]) (front ++ [left]) := by
  have hsize := hA.length_exts
  rw [List.length_append, List.length_singleton] at hsize
  refine ⟨⟨rfl, rfl, hA.extendPrefixLens, hA.extendPrefixLensCpu, ?_, hA.length_prefixes, ?_⟩, ?_, ?_⟩
  · rw [List.length_append, List.length_singleton]
    exact hsize
  · rw [List.zipWith_append hlength, List.zipWith_cons_cons, Nat.add_comm pre left]
    rfl
  · rw [extendStartLocs_concat, ← extendStartLocs_concat front 0 (left + right)]
    exact hloc
  · have hsum : (front ++ [left]).sum = front.sum + left := by rw [List.sum_append, List.sum_singleton]
    exact congrArg some hsum.symm

/-- The second child, with the rest of the sequence first. -/
theorem ExtendLens.cutBack (hB : ExtendLens childB (pre :: prefixBack) ((left + right) :: back)) : ExtendShape
      { childB with
        extendSeqLensCpu := some (right :: back)
        extendSeqLens := some (right :: back)
        extendNumTokens := some (right :: back).sum
        extendPrefixLensCpu := some ((pre + left) :: prefixBack)
        extendPrefixLens := some ((pre + left) :: prefixBack)
        extendStartLoc := some (extendStartLocs 0 (right :: back)) }
      ((pre + left) :: prefixBack) (right :: back) := by
  refine ⟨⟨rfl, rfl, rfl, rfl, hB.length_exts, hB.length_prefixes, ?_⟩, rfl, rfl⟩
  have hseq := hB.seqLens
  rw [List.zipWith_cons_cons, ← Nat.add_assoc] at hseq
  exact hseq

end Cut

/-- The cut is in the sequence of the split index, at the middle of the tokens. -/
theorem exists_cut {exts : List Nat} (h : 0 < exts.sum) : ∃ front left right back,
    exts = front ++ (left + right) :: back ∧ front.length = splitArrayByCumLessThanHalf exts ∧
      exts.sum / 2 = front.sum + left := by
  obtain ⟨hlt, hbelow, habove⟩ := splitArrayByCumLessThanHalf_spec h
  obtain ⟨front, cut, back, hexts, hfront⟩ := split_at hlt
  rw [← hfront] at hbelow habove
  have htake : exts.take front.length = front := by rw [hexts, List.take_left]
  have htakeNext : exts.take (front.length + 1) = front ++ [cut] := by
    rw [hexts, List.take_length_add_append]
    rfl
  rw [htake] at hbelow
  rw [htakeNext, List.sum_append, List.sum_singleton] at habove
  refine ⟨front, exts.sum / 2 - front.sum, cut - (exts.sum / 2 - front.sum), back, ?_, hfront, by omega⟩
  rw [Nat.add_sub_cancel' (by omega)]
  exact hexts

section CutSplit

variable {threshold : Rat} {batch : ForwardBatch} {prefixes exts : List Nat} {split : Nat}

/-- An extend with a sequence cut in two is kept. -/
theorem splitKeeps_cut (hthreshold : threshold ≤ 1 / 2) (h : BatchShape batch)
    (hmode : batch.forwardMode = .extend) (hext : ExtendShape batch prefixes exts)
    (hsplit : localSplitSeqIndex threshold batch = .ok split) (htwo : twoChunkSplit threshold exts = true) :
    ∃ a b, prepareTbo threshold batch split = .ok (a, b) ∧ SplitKeeps batch a b split := by
  obtain ⟨hindex, htoken⟩ := localSplitSeqIndex_extend hthreshold hmode hext hsplit
  rw [htwo, if_pos rfl] at hindex htoken
  have hsum := sum_exts h hmode hext
  obtain ⟨front, left, right, back, rfl, hfront, hhalf⟩ := exists_cut (sum_pos_of_twoChunkSplit htwo)
  rw [← hindex] at hfront
  have hlengthExts := hext.length_exts
  have hlengthPrefixes := hext.length_prefixes
  have hrows := h.length_reqPoolIndices
  have hlt : split < batch.batchSize := by
    rw [← hlengthExts, List.length_append, List.length_cons]
    omega
  obtain ⟨prefixFront, pre, prefixBack, rfl, hprefixFront⟩ := split_at (hlengthPrefixes.symm ▸ hlt)
  obtain ⟨rowsFront, row, rowsBack, hrowsEq, hrowsFront⟩ := split_at (hrows.symm ▸ hlt)
  obtain ⟨specA, hspecA, -⟩ := h.splitSpecInfo_ok 0 (split + 1) 0 (front.sum + left)
  obtain ⟨specB, hspecB, -⟩ := h.splitSpecInfo_ok split batch.batchSize (front.sum + left) batch.inputIds.length
  have hinside : front.sum + left ≤ batch.inputIds.length := by omega
  -- The children before the cut.
  generalize hchildA : childOf batch 0 (front.sum + left) 0 (split + 1) specA
    (childrenNumTokenNonPadded (front.sum + left) batch.inputIds.length).1 = childA
  generalize hchildB : childOf batch (front.sum + left) batch.inputIds.length split batch.batchSize specB
    (childrenNumTokenNonPadded (front.sum + left) batch.inputIds.length).2 = childB
  have hA : ExtendLens childA (prefixFront ++ [pre]) (front ++ [left + right]) := by
    rw [← hchildA, ← sliceOf_front prefixFront pre prefixBack hprefixFront,
      ← sliceOf_front front (left + right) back hfront]
    exact hext.lensOf hmode hlt
  have hB : ExtendLens childB (pre :: prefixBack) ((left + right) :: back) := by
    rw [← hchildB, ← sliceOf_back prefixFront pre prefixBack hprefixFront hlengthPrefixes,
      ← sliceOf_back front (left + right) back hfront hlengthExts]
    exact hext.lensOf hmode (Nat.le_refl _)
  have hlocA : childA.extendStartLoc = some (extendStartLocs 0 (front ++ [left + right])) := by
    rw [← hchildA, (childOf_extend hmode hext _ _ _ _ _ _).2.2.2.2, sliceOf_zero, extendStartLocs_take]
    rw [← sliceOf_zero, sliceOf_front front (left + right) back hfront]
  have hlengthFront : prefixFront.length = front.length := hprefixFront.trans hfront.symm
  have hseqA : childA.seqLensCpu = some childA.seqLens := by
    rw [← hchildA]
    rfl
  have hderive := deriveFieldsForTwoChunk_eq hext.extendSeqLensCpu hfront hhalf hA hseqA hB hlengthFront
  have hprepare : prepareTbo threshold batch split = deriveFieldsForTwoChunk batch childA childB split := by
    rw [prepareTbo, htoken, hhalf]
    simp only [bind, Except.bind, if_pos hmode, hext.extendSeqLensCpu, twoChunk_ok hthreshold, htwo, if_true,
      h.filterBatch_eq (Nat.zero_le _) hspecA, h.filterBatch_eq hinside hspecB, hchildA, hchildB]
  refine ⟨_, _, hprepare.trans hderive, ?_⟩
  have hshapeA := hA.cutFront hlengthFront hlocA
  have hshapeB := hB.cutBack
  have hrowsA : childA.reqPoolIndices = rowsFront ++ [row] := by
    rw [← hchildA, ← sliceOf_front rowsFront row rowsBack hrowsFront, ← hrowsEq]
    rfl
  have hrowsB : childB.reqPoolIndices = row :: rowsBack := by
    rw [← hchildB, ← sliceOf_back rowsFront row rowsBack hrowsFront (hrowsEq ▸ hrows), ← hrowsEq]
    rfl
  have hmodeA : childA.forwardMode = .extend := by
    rw [← hchildA]
    exact hmode
  have hmodeB : childB.forwardMode = .extend := by
    rw [← hchildB]
    exact hmode
  have hlengthRows : front.length = rowsFront.length := hfront.trans hrowsFront.symm
  refine ⟨?_, fun _ prefixes' exts' hext' => ?_, fun hverify => ?_⟩
  · refine batchTokens_append h ?_ ?_ hinside ?_ ?_
    · rw [tokenCounts_extend hshapeA hmodeA, tokenCounts_extend hshapeB hmodeB, tokenCounts_extend hext hmode]
      dsimp only
      rw [hrowsA, hrowsB, hrowsEq, repeated_append hlengthRows, repeated_append hlengthRows, repeated_cut,
        List.append_assoc]
    · rw [tokenCounts_extend hshapeA hmodeA]
      dsimp only
      rw [hrowsA, length_repeated (by simp [hlengthRows]), List.sum_append, List.sum_singleton]
    · rw [← hchildA]
      exact ⟨rfl, rfl, rfl⟩
    · rw [← hchildB]
      exact ⟨sliceOf_length h.length_positions _, sliceOf_length h.length_outCacheLoc _, sliceOf_length rfl _⟩
  · obtain ⟨rfl, rfl⟩ := hext.unique hext'
    refine ⟨_, _, _, _, hshapeA, hshapeB, .cut (rowsFront.zip (prefixFront.zip front)) row pre left right
      (rowsBack.zip (prefixBack.zip back)) ?_ ?_ ?_⟩
    · dsimp only
      rw [hrowsA, List.zip_append hlengthFront, List.zip_append (by simp [hlengthFront, hlengthRows])]
      rfl
    · dsimp only
      rw [hrowsB]
      rfl
    · rw [hrowsEq, List.zip_append hlengthFront, List.zip_append (by simp [hlengthFront, hlengthRows])]
      rfl
  · cases hmode.symm.trans hverify

end CutSplit

/-! ### Every split -/

/-- A split keeps its batch exactly in these cases. -/
theorem two_batch_split {threshold : Rat} {batch : ForwardBatch} {split : Nat} (hthreshold : threshold ≤ 1 / 2)
    (h : BatchShape batch) (hsplit : localSplitSeqIndex threshold batch = .ok split) :
    ∃ a b, prepareTbo threshold batch split = .ok (a, b) ∧
      (SplitKeeps batch a b split ↔ SplitWell threshold batch split) := by
  by_cases hmode : batch.forwardMode = .extend
  · obtain ⟨⟨prefixes, exts, hext⟩, -⟩ := h.extend hmode
    have hwell : SplitWell threshold batch split ↔
        (twoChunkSplit threshold exts = true ∨ (exts.take split).sum = 0) := by
      rw [SplitWell, hmode, hext.extendSeqLensCpu]
      exact ⟨fun hall => hall exts rfl, fun hor _ hmem => by cases hmem; exact hor⟩
    rw [hwell]
    cases htwo : twoChunkSplit threshold exts with
    | true =>
      obtain ⟨a, b, hprepare, hkeeps⟩ := splitKeeps_cut hthreshold h hmode hext hsplit htwo
      exact ⟨a, b, hprepare, iff_of_true hkeeps (Or.inl rfl)⟩
    | false =>
      obtain ⟨a, b, hprepare, hkeeps⟩ := splitKeeps_whole hthreshold h hmode hext hsplit htwo
      refine ⟨a, b, hprepare, hkeeps.trans ?_⟩
      rw [or_iff_right (by simp)]
  · exact splitKeeps_uniform h hmode hsplit

/-- An extend of sequences that have no prefix. -/
def freshExtend (exts : List Nat) : ForwardBatch where
  forwardMode := .extend
  batchSize := exts.length
  inputIds := List.replicate exts.sum 7
  positions := List.range exts.sum
  outCacheLoc := List.range exts.sum
  reqPoolIndices := List.range exts.length
  seqLens := List.zipWith (· + ·) (List.replicate exts.length 0) exts
  seqLensCpu := some (List.zipWith (· + ·) (List.replicate exts.length 0) exts)
  seqLensSum := some exts.sum
  extendNumTokens := some exts.sum
  extendSeqLens := some exts
  extendPrefixLens := some (List.replicate exts.length 0)
  extendStartLoc := some (extendStartLocs 0 exts)
  extendPrefixLensCpu := some (List.replicate exts.length 0)
  extendSeqLensCpu := some exts
  extendLogprobStartLensCpu := none
  loraIds := none
  specInfo := none
  numTokenNonPadded := none
  tboSplitSeqIndex := none
  tboParentTokenRange := none

theorem freshExtend_shape (exts : List Nat) : BatchShape (freshExtend exts) where
  length_positions := by simp [freshExtend]
  length_outCacheLoc := by simp [freshExtend]
  length_reqPoolIndices := by simp [freshExtend]
  length_seqLens := by simp [freshExtend]
  seqLensCpu := rfl
  length_loraIds := nofun
  sum_tokenCounts := by simp [freshExtend, tokenCounts]
  spec := nofun
  extend _ := ⟨⟨List.replicate exts.length 0, exts,
    { extendSeqLens := rfl, extendSeqLensCpu := rfl, extendPrefixLens := rfl, extendPrefixLensCpu := rfl
      length_exts := rfl, length_prefixes := List.length_replicate, seqLens := rfl, extendStartLoc := rfl
      extendNumTokens := rfl }⟩, nofun⟩
  verify := nofun
  other := by rintro (h | h) <;> cases h

/-- One long sequence is cut in two, and two equal ones are not. -/
theorem two_batch_split_extend :
    (∃ a b, prepareTbo (2 / 5) (freshExtend [6]) 0 = .ok (a, b) ∧
      (SplitKeeps (freshExtend [6]) a b 0 ↔ SplitWell (2 / 5) (freshExtend [6]) 0)) ∧
    ∃ a b, prepareTbo (2 / 5) (freshExtend [2, 2]) 1 = .ok (a, b) ∧
      (SplitKeeps (freshExtend [2, 2]) a b 1 ↔ SplitWell (2 / 5) (freshExtend [2, 2]) 1) :=
  ⟨two_batch_split (by norm_num) (freshExtend_shape [6]) (by decide +kernel),
    two_batch_split (by norm_num) (freshExtend_shape [2, 2]) (by decide +kernel)⟩

/-- The second of two equal sequences keeps the start that it has in the batch. -/
theorem second_child_starts_late : ∃ a b, localSplitSeqIndex (2 / 5) (freshExtend [2, 2]) = .ok 1 ∧
    prepareTbo (2 / 5) (freshExtend [2, 2]) 1 = .ok (a, b) ∧ b.extendSeqLens = some [2] ∧
    b.extendStartLoc = some [2] ∧ ¬ SplitKeeps (freshExtend [2, 2]) a b 1 := by
  refine ⟨childOf (freshExtend [2, 2]) 0 2 0 1 none 2, childOf (freshExtend [2, 2]) 2 4 1 2 none 2,
    by decide +kernel, by decide +kernel, rfl, rfl, fun hkeeps => ?_⟩
  obtain ⟨⟨prefixes, exts, hext⟩, -⟩ := (freshExtend_shape [2, 2]).extend rfl
  obtain ⟨-, -, prefixesB, extsB, -, hB, -⟩ := hkeeps.extend rfl prefixes exts hext
  obtain rfl : [2] = extsB := Option.some.inj hB.extendSeqLens
  have hstart : [2] = extendStartLocs 0 [2] := Option.some.inj hB.extendStartLoc
  cases hstart

end QCFuse.Guarantees
