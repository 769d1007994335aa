import Mathlib.Algebra.Order.Group.Unbundled.Abs
import QCFuse.Source.RaggedAttention

/-!
# The keys a ragged query attends to

The blocked loop reads whole blocks of keys up to a pruned bound. Its mask is exact for a causal layer;
for any other one nothing takes out the padding behind the last key, which counts with score zero
unless no padding is loaded or the window ends before it.
-/

set_option autoImplicit false

namespace QCFuse.Guarantees

open QCFuse.Source

variable {S : Type} (entry : RaggedEntry S)

/-- The keys a query at `qPos` should see. -/
def Attends (qPos k : Int) : Prop :=
  0 ≤ k ∧ k < entry.kvSeqLen ∧ (entry.isCausal = true → k ≤ qPos) ∧
    (0 < entry.slidingWindowSize → |qPos - k| < entry.slidingWindowSize)

/-- Row `row` attends to exactly its keys, to each once. -/
def RowExact (row : Nat) : Prop :=
  (∀ k, k ∈ entry.contributing row ↔ Attends entry (entry.curQPos row) k) ∧
    (entry.contributing row).Nodup

/-- The mask is exact in every row. -/
def MaskExact : Prop := ∀ row < entry.qSeqLen, RowExact entry row

/-- Blocks of positive size and query positions among the keys. -/
structure WellPosed : Prop where
  blockM : 0 < entry.blockM
  blockN : 0 < entry.blockN
  positions : ∀ q ∈ entry.qPositions, 0 ≤ q ∧ q < entry.kvSeqLen

/-- No padding key gets past the mask of a query at `qPos`. -/
def PaddingMasked (qPos : Int) : Prop :=
  entry.isCausal = true ∨ (entry.blockN : Int) ∣ entry.kvSeqLen ∨
    (0 < entry.slidingWindowSize ∧ qPos + entry.slidingWindowSize ≤ entry.kvSeqLen)

/-! ## The positions the loop goes through -/

/-- The blocks one after another are the positions one after another. -/
theorem flatMap_blocks (n b : Nat) :
    ((List.range n).map (· * b)).flatMap (fun startN => (List.range b).map (startN + ·)) =
      List.range (n * b) := by
  induction n with
  | zero => simp
  | succ n ih =>
    rw [List.range_succ, List.map_append, List.flatMap_append, ih, Nat.succ_mul, List.range_add,
      List.map_singleton, List.flatMap_singleton]

/-- The positions loaded: whole blocks that cover the effective length. -/
def loaded (startM : Nat) : Nat :=
  ((entry.effectiveKvSeqLen startM).toNat + entry.blockN - 1) / entry.blockN * entry.blockN

variable {entry}

theorem contributing_eq {row : Nat} (hrow : row < entry.qSeqLen) : entry.contributing row =
    ((List.range (loaded entry (row / entry.blockM))).map fun k : Nat => (k : Int)).filter fun k =>
      entry.validMask (entry.curQPos row) k := by
  have hearly : ¬ entry.qSeqLen ≤ entry.blockM * (row / entry.blockM) := by
    have := Nat.mul_div_le row entry.blockM
    omega
  have hscores : entry.rowScores row = (List.range (loaded entry (row / entry.blockM))).map
      fun k : Nat => ((k : Int), entry.qk row k) := by
    rw [RaggedEntry.rowScores, if_neg hearly, loaded, ← flatMap_blocks, List.map_flatMap,
      RaggedEntry.startNs]
    simp only [List.map_map, Function.comp_def]
  have hfinite : ∀ k : Int, (entry.qk row k).isSome = entry.validMask (entry.curQPos row) k := by
    intro k
    rw [RaggedEntry.qk]
    cases entry.validMask (entry.curQPos row) k <;> rfl
  rw [RaggedEntry.contributing, hscores, List.filter_map, List.filter_map, List.map_map]
  simp only [Function.comp_def, hfinite]

theorem contributing_nodup {row : Nat} (hrow : row < entry.qSeqLen) : (entry.contributing row).Nodup := by
  rw [contributing_eq hrow]
  exact (List.nodup_range.map Int.ofNat_injective).filter _

theorem mem_contributing {row : Nat} (hrow : row < entry.qSeqLen) (k : Int) :
    k ∈ entry.contributing row ↔ 0 ≤ k ∧ k < (loaded entry (row / entry.blockM) : Nat) ∧
      entry.validMask (entry.curQPos row) k = true := by
  rw [contributing_eq hrow, List.mem_filter, List.mem_map]
  constructor
  · rintro ⟨⟨n, hn, rfl⟩, hmask⟩
    exact ⟨Int.natCast_nonneg n, by exact_mod_cast List.mem_range.mp hn, hmask⟩
  · rintro ⟨hlo, hhi, hmask⟩
    exact ⟨⟨k.toNat, List.mem_range.mpr (by omega), by omega⟩, hmask⟩

/-- The mask as a condition on the two positions. -/
theorem validMask_iff (qPos k : Int) : entry.validMask qPos k = true ↔
    (entry.isCausal = true → k ≤ qPos) ∧
      (0 < entry.slidingWindowSize → |qPos - k| < entry.slidingWindowSize) := by
  unfold RaggedEntry.validMask
  by_cases hcausal : entry.isCausal = true
  · by_cases hwindow : 0 < entry.slidingWindowSize
    · simp only [hcausal, hwindow, if_true, Bool.and_eq_true, decide_eq_true_eq, forall_const]
      refine and_congr_right fun hle => ?_
      rw [abs_of_nonneg (by omega)]
    · simp only [hcausal, hwindow, if_true, if_false, decide_eq_true_eq, forall_const,
        IsEmpty.forall_iff, and_true, ge_iff_le]
  · by_cases hwindow : 0 < entry.slidingWindowSize
    · simp [hcausal, hwindow]
    · simp [hcausal, hwindow]

theorem validMask_causal (entry : RaggedEntry S) (hcausal : entry.isCausal = true) (qPos k : Int) :
    entry.validMask qPos k =
      decide (k ≤ qPos ∧ (0 < entry.slidingWindowSize → qPos - k < entry.slidingWindowSize)) := by
  rw [Bool.eq_iff_iff, validMask_iff, decide_eq_true_iff]
  constructor
  · intro ⟨hle, hwindow⟩
    refine ⟨hle hcausal, fun hpos => ?_⟩
    rw [← abs_of_nonneg (by have := hle hcausal; omega : 0 ≤ qPos - k)]
    exact hwindow hpos
  · intro ⟨hle, hwindow⟩
    refine ⟨fun _ => hle, fun hpos => ?_⟩
    rw [abs_of_nonneg (by omega)]
    exact hwindow hpos

/-- The entry of a batch as the causal kernel reads it from the metadata. -/
def causalEntry (md : TritonBlendMetadata) (blockM blockN : Nat) (slidingWindowSize : Int) (batch : Nat)
    (score : Nat → Option Int → S) : RaggedEntry S where
  isCausal := true
  blockM := blockM
  blockN := blockN
  slidingWindowSize := slidingWindowSize
  qPositions := (List.range (md.qLens.getD batch 0).toNat).map fun offsM =>
    md.qPositions.getD (md.qStartLoc.getD batch 0 + (offsM : Nat)).toNat 0
  kvSeqLen := md.kvLens.getD batch 0
  score := score

/-- The keys of the causal kernel are those with a finite score. -/
theorem attendedKeys_eq (md : TritonBlendMetadata) (blockM blockN : Nat) (window : Int) (batch : Nat)
    (score : Nat → Option Int → S) {row : Nat} (hrow : (row : Int) < md.qLens.getD batch 0) :
    attendedKeys md blockM blockN window batch row =
      (causalEntry md blockM blockN window batch score).contributing row := by
  have hlen : (causalEntry md blockM blockN window batch score).qSeqLen = (md.qLens.getD batch 0).toNat := by
    rw [RaggedEntry.qSeqLen, causalEntry, List.length_map, List.length_range]
  have hpos : ∀ offsM : Nat, (offsM : Int) < md.qLens.getD batch 0 →
      (causalEntry md blockM blockN window batch score).curQPos offsM =
        md.qPositions.getD (md.qStartLoc.getD batch 0 + offsM).toNat 0 := by
    intro offsM hoffs
    rw [RaggedEntry.curQPos, hlen, if_pos (by omega), causalEntry, List.getD_eq_getElem?_getD,
      List.getElem?_map, List.getElem?_range (by omega)]
    rfl
  have hmax : (causalEntry md blockM blockN window batch score).maxQPos (row / blockM) =
      ((List.range' (row / blockM * blockM) blockM).map fun offsM : Nat =>
        if (offsM : Int) < md.qLens.getD batch 0 then
          md.qPositions.getD (md.qStartLoc.getD batch 0 + offsM).toNat 0
        else -1).foldl max (-1) := by
    rw [RaggedEntry.maxQPos, hlen]
    refine congrArg (fun xs : List Int => xs.foldl max (-1)) (List.map_congr_left fun offsM _ => ?_)
    by_cases hoffs : (offsM : Int) < md.qLens.getD batch 0
    · rw [if_pos (by omega), if_pos hoffs, hpos offsM hoffs]
    · rw [if_neg (by omega), if_neg hoffs]
  have hloaded : loaded (causalEntry md blockM blockN window batch score) (row / blockM) =
      ((min (((List.range' (row / blockM * blockM) blockM).map fun offsM : Nat =>
        if (offsM : Int) < md.qLens.getD batch 0 then
          md.qPositions.getD (md.qStartLoc.getD batch 0 + offsM).toNat 0
        else -1).foldl max (-1) + 1) (md.kvLens.getD batch 0)).toNat + blockN - 1) / blockN * blockN := by
    rw [← hmax]
    rfl
  have hcontributing := contributing_eq (by rw [hlen]; omega :
    row < (causalEntry md blockM blockN window batch score).qSeqLen)
  rw [hcontributing]
  change _ = ((List.range (loaded _ (row / blockM))).map _).filter _
  rw [hloaded, attendedKeys]
  refine List.filter_congr fun k _ => ?_
  rw [hpos row hrow]
  exact (validMask_causal (causalEntry md blockM blockN window batch score) rfl _ k).symm

theorem curQPos_bounds (h : WellPosed entry) {row : Nat} (hrow : row < entry.qSeqLen) :
    0 ≤ entry.curQPos row ∧ entry.curQPos row < entry.kvSeqLen := by
  have hget : entry.curQPos row = entry.qPositions[row] := by
    rw [RaggedEntry.curQPos, if_pos hrow, List.getD_eq_getElem?_getD, List.getElem?_eq_getElem hrow,
      Option.getD_some]
  rw [hget]
  exact h.positions _ (List.getElem_mem hrow)

/-- The pruned bound is behind every query of the block. -/
theorem curQPos_le_maxQPos (h : WellPosed entry) {row : Nat} (hrow : row < entry.qSeqLen) :
    entry.curQPos row ≤ entry.maxQPos (row / entry.blockM) := by
  rw [RaggedEntry.maxQPos, List.foldl_eq_foldr]
  refine List.le_max_of_le' _ ?_ (le_refl (entry.curQPos row))
  refine List.mem_map.mpr ⟨row, ?_, if_pos hrow⟩
  have := Nat.div_add_mod row entry.blockM
  have := Nat.mod_lt row h.blockM
  rw [List.mem_range'_1, Nat.mul_comm]
  omega

theorem effective_le_loaded (h : WellPosed entry) (startM : Nat) :
    (entry.effectiveKvSeqLen startM).toNat ≤ loaded entry startM := by
  have := Nat.div_add_mod ((entry.effectiveKvSeqLen startM).toNat + entry.blockN - 1) entry.blockN
  have := Nat.mod_lt ((entry.effectiveKvSeqLen startM).toNat + entry.blockN - 1) h.blockN
  rw [loaded, Nat.mul_comm]
  omega

/-- A bound that whole blocks reach is not overshot. -/
theorem loaded_of_dvd (h : WellPosed entry) {startM : Nat} (hdvd : entry.blockN ∣ (entry.effectiveKvSeqLen startM).toNat) :
    loaded entry startM = (entry.effectiveKvSeqLen startM).toNat := by
  obtain ⟨blocks, hblocks⟩ := hdvd
  rw [loaded, hblocks, Nat.add_sub_assoc h.blockN, Nat.mul_add_div h.blockN,
    Nat.div_eq_of_lt (by have := h.blockN; omega), Nat.add_zero, Nat.mul_comm]

theorem loaded_dvd (startM : Nat) : entry.blockN ∣ loaded entry startM := Dvd.intro_left _ rfl

/-! ## The mask of a row -/

/-- Every key a query should see is loaded. -/
theorem lt_loaded (h : WellPosed entry) {row : Nat} (hrow : row < entry.qSeqLen) {k : Int}
    (hk : k < entry.kvSeqLen) (hcausal : entry.isCausal = true → k ≤ entry.curQPos row) :
    k < (loaded entry (row / entry.blockM) : Nat) := by
  have hle := effective_le_loaded h (row / entry.blockM)
  have hmax := curQPos_le_maxQPos h hrow
  have heffective : k < entry.effectiveKvSeqLen (row / entry.blockM) := by
    unfold RaggedEntry.effectiveKvSeqLen
    split
    next hc =>
      have := hcausal hc
      omega
    next => exact hk
  omega

/-- Behind the mask there is no padding. -/
theorem lt_kvSeqLen (h : WellPosed entry) {row : Nat} (hrow : row < entry.qSeqLen)
    (hpadding : PaddingMasked entry (entry.curQPos row)) {k : Int}
    (hload : k < (loaded entry (row / entry.blockM) : Nat))
    (hmask : (entry.isCausal = true → k ≤ entry.curQPos row) ∧
      (0 < entry.slidingWindowSize → |entry.curQPos row - k| < entry.slidingWindowSize)) :
    k < entry.kvSeqLen := by
  have hbounds := curQPos_bounds h hrow
  by_cases hcausal : entry.isCausal = true
  · have := hmask.1 hcausal
    omega
  · have heffective : entry.effectiveKvSeqLen (row / entry.blockM) = entry.kvSeqLen := by
      rw [RaggedEntry.effectiveKvSeqLen, if_neg hcausal]
    rcases hpadding with hc | hdvd | ⟨hwindow, hfits⟩
    · exact absurd hc hcausal
    · have hnat : entry.blockN ∣ (entry.effectiveKvSeqLen (row / entry.blockM)).toNat := by
        rw [heffective]
        refine Int.natCast_dvd_natCast.mp ?_
        rwa [Int.toNat_of_nonneg (by omega)]
      rw [loaded_of_dvd h hnat, heffective] at hload
      omega
    · have := abs_lt.mp (hmask.2 hwindow)
      omega

/-- The first padding key is loaded unless the keys fill whole blocks. -/
theorem padding_loaded (h : WellPosed entry) {row : Nat} (hrow : row < entry.qSeqLen)
    (hcausal : ¬ entry.isCausal = true) (hdvd : ¬ (entry.blockN : Int) ∣ entry.kvSeqLen) :
    entry.kvSeqLen < (loaded entry (row / entry.blockM) : Nat) := by
  have hbounds := curQPos_bounds h hrow
  have hle := effective_le_loaded h (row / entry.blockM)
  rw [RaggedEntry.effectiveKvSeqLen, if_neg hcausal] at hle
  refine lt_of_le_of_ne (by omega) fun heq => hdvd ?_
  rw [heq]
  exact Int.natCast_dvd_natCast.mpr (loaded_dvd _)

/-- A row's mask is exact exactly if no padding gets past it. -/
theorem rowExact_iff (h : WellPosed entry) {row : Nat} (hrow : row < entry.qSeqLen) :
    RowExact entry row ↔ PaddingMasked entry (entry.curQPos row) := by
  have hbounds := curQPos_bounds h hrow
  constructor
  · rintro ⟨hexact, -⟩
    by_cases hcausal : entry.isCausal = true
    · exact .inl hcausal
    by_cases hdvd : (entry.blockN : Int) ∣ entry.kvSeqLen
    · exact .inr (.inl hdvd)
    have hout : entry.kvSeqLen ∉ entry.contributing row :=
      fun hin => lt_irrefl _ ((hexact _).mp hin).2.1
    have hload := padding_loaded h hrow hcausal hdvd
    rw [mem_contributing hrow, validMask_iff] at hout
    refine .inr (.inr ?_)
    by_contra hwindow
    refine hout ⟨by omega, hload, fun hc => absurd hc hcausal, fun hpos => ?_⟩
    rw [abs_lt]
    omega
  · intro hpadding
    refine ⟨fun k => ?_, contributing_nodup hrow⟩
    rw [mem_contributing hrow, validMask_iff, Attends]
    constructor
    · rintro ⟨hlo, hload, hmask⟩
      exact ⟨hlo, lt_kvSeqLen h hrow hpadding hload hmask, hmask⟩
    · rintro ⟨hlo, hhi, hmask⟩
      exact ⟨hlo, lt_loaded h hrow hhi hmask.1, hmask⟩

/-- The mask of an entry is exact exactly if the layer is causal, the keys fill whole blocks, or every
query's window ends before the padding. -/
theorem maskExact_iff {S : Type} {entry : RaggedEntry S} (h : WellPosed entry) :
    MaskExact entry ↔ ∀ row < entry.qSeqLen, PaddingMasked entry (entry.curQPos row) :=
  forall₂_congr fun _ hrow => rowExact_iff h hrow

/-- Five keys in blocks of four, read by two queries in no order of a layer that is not causal. -/
def paddedEntry : RaggedEntry Int := ⟨false, 16, 4, -1, [3, 0], 5, fun _ key => key.getD 0⟩

theorem paddedEntry_posed : WellPosed paddedEntry := ⟨by decide, by decide, by decide⟩

theorem maskExact_iff_padded : MaskExact paddedEntry ↔
    ∀ row < paddedEntry.qSeqLen, PaddingMasked paddedEntry (paddedEntry.curQPos row) :=
  maskExact_iff paddedEntry_posed

/-- The three padding keys of the last block count. -/
theorem padded_not_exact : ¬ MaskExact paddedEntry := by
  intro hexact
  have hkeys : (5 : Int) ∈ paddedEntry.contributing 0 := by decide
  have hattends := ((hexact 0 (by decide)).1 5).mp hkeys
  exact absurd hattends.2.1 (by decide)

end QCFuse.Guarantees
