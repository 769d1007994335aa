import QCFuse.Source.AttentionScore

/-!
# The split kernels compute the plain softmax

A row's maximum and factor stand for the sum of the exponentials of its visible keys: after every block
of a split, after the split, and after every merge of the splits. The third kernel's weights are then the
softmax, and its loops over heads and blocks of rows take their maximum.
-/

set_option autoImplicit false

namespace QCFuse.Guarantees

open QCFuse.Library QCFuse.Source
open scoped ENNReal

/-! ## The plain definition -/

section Plain

variable (tensors : AttentionTensors) (causal : Bool) (qStart : Int)

/-- The scaled product of a query row and a key, of the key head the query head shares. -/
noncomputable def plainScore (layer head i j : Nat) : ℝ :=
  (∑ d ∈ Finset.range tensors.dim,
    tensors.q layer i head d * tensors.k layer j (head / (tensors.headsQ / tensors.headsK)) d) / √tensors.dim

/-- The keys a query row sees. -/
def visibleKeys (i : Nat) : Finset Nat :=
  (Finset.range tensors.seqK).filter fun n => AttentionTensors.Visible causal qStart i n

noncomputable def softmaxDenominator (layer head i : Nat) : ℝ :=
  ∑ n ∈ visibleKeys tensors causal qStart i, Real.exp (plainScore tensors layer head i n)

noncomputable def plainSoftmax (layer head i j : Nat) : ℝ :=
  Real.exp (plainScore tensors layer head i j) / softmaxDenominator tensors causal qStart layer head i

/-- The weights of a key in a layer, of every head and every row that sees it. -/
def keyWeights (layer j : Nat) : Set ℝ :=
  {w | ∃ head < tensors.headsQ, ∃ i < tensors.seqQ, AttentionTensors.Visible causal qStart i j ∧
    w = plainSoftmax tensors causal qStart layer head i j}

/-- The mean over the layers of the greatest weight, 0 where no row sees the key. -/
noncomputable def plainImportance (j : Nat) : ℝ :=
  (∑ layer ∈ Finset.range tensors.numLayers, sSup (keyWeights tensors causal qStart layer j)) / tensors.numLayers

/-- What the plain definition returns for the targets. -/
noncomputable def plainImportances (targetStart targetLen : Int) : Except ImportanceError (List ℝ≥0∞) :=
  if tensors.clampedLen targetStart targetLen = 0 then .ok []
  else if tensors.dim = 0 then .error .zeroDivisionError
  else if tensors.headsK = 0 then .error .compilationError
  else .ok ((List.range (tensors.clampedLen targetStart targetLen)).map fun t =>
    ENNReal.ofReal (plainImportance tensors causal qStart (tensors.clampedStart targetStart + t)))

end Plain

/-! ## The sum over blocks and over splits -/

theorem sum_blocks {M : Type*} [AddCommMonoid M] (term : Nat → M) (count size : Nat) :
    ∑ i ∈ Finset.range count, ∑ c ∈ Finset.range size, term (i * size + c) =
      ∑ x ∈ Finset.range (count * size), term x := by
  induction count with
  | zero => rw [Nat.zero_mul, Finset.sum_range_zero, Finset.sum_range_zero]
  | succ count ih => rw [Finset.sum_range_succ, ih, Nat.succ_mul, Finset.sum_range_add]

theorem lt_cdiv {x y i : Nat} (hy : 0 < y) (hi : i < x) : i / y < cdiv x y := by
  rw [cdiv, Nat.div_lt_iff_lt_mul hy]
  have hle : x ≤ (x + y - 1) / y * y := by
    have hlt := Nat.lt_div_mul_add (a := x + y - 1) hy
    omega
  omega

theorem le_cdiv_mul {x y : Nat} (hy : 0 < y) : x ≤ cdiv x y * y := by
  have hlt := Nat.lt_div_mul_add (a := x + y - 1) hy
  rw [cdiv]
  omega

theorem cdiv_mul_of_dvd {x y : Nat} (hx : 0 < x) (hdvd : y ∣ x) : cdiv x y * y = x := by
  obtain ⟨count, rfl⟩ := hdvd
  have hy : 0 < y := Nat.pos_of_mul_pos_right hx
  have hcount : (y * count + y - 1) / y = count := by
    rw [Nat.add_sub_assoc hy, Nat.mul_add_div hy, Nat.div_eq_of_lt (Nat.sub_lt hy Nat.one_pos), Nat.add_zero]
  rw [cdiv, hcount, Nat.mul_comm]

/-- The blocks of a split. -/
theorem lseBlocks_represents (score : Nat → EReal) (hscore : ∀ n, score n ≠ ⊤) (base blockN count : Nat)
    {state : LseState}
    (hstate : state = ((List.range count).map (· * blockN)).foldl (fun state startN =>
      lseBlock blockN state fun c => score (base + startN + c)) ⟨⊥, 0⟩) :
    Represents state.m state.l (∑ x ∈ Finset.range (count * blockN), EReal.exp (score (base + x))) := by
  induction count generalizing state with
  | zero =>
    rw [hstate, Nat.zero_mul, Finset.sum_range_zero]
    exact Represents.empty
  | succ count ih =>
    rw [List.range_succ, List.map_append, List.foldl_append] at hstate
    rw [hstate, Nat.succ_mul, Finset.sum_range_add]
    simp only [List.map_cons, List.map_nil, List.foldl_cons, List.foldl_nil, ← Nat.add_assoc]
    exact (ih rfl).absorb _ _ fun c _ => hscore _

/-- The splits of a row. -/
theorem lseMerges_represents {splits : Nat → LseState} {mass : Nat → ℝ≥0∞} {numSplits : Nat}
    (hsplits : ∀ s < numSplits, Represents (splits s).m (splits s).l (mass s)) {state : LseState}
    (hstate : state = (List.range numSplits).foldl (fun state split => lseMerge state (splits split)) ⟨⊥, 0⟩) :
    Represents state.m state.l (∑ s ∈ Finset.range numSplits, mass s) := by
  induction numSplits generalizing state with
  | zero =>
    rw [hstate, Finset.sum_range_zero]
    exact Represents.empty
  | succ numSplits ih =>
    rw [List.range_succ, List.foldl_append] at hstate
    rw [hstate, Finset.sum_range_succ]
    exact (ih (fun s hs => hsplits s (Nat.lt_succ_of_lt hs)) rfl).merge (hsplits numSplits (Nat.lt_succ_self _))

section Kernels

variable {tensors : AttentionTensors} {blocks : KernelBlocks} {causal : Bool} {qStart : Int}

theorem maskedScore_ne_top (layer headQ headK offsM offsN : Nat) :
    tensors.maskedScore causal qStart layer headQ headK offsM offsN ≠ ⊤ := by
  unfold AttentionTensors.maskedScore
  split
  exacts [EReal.coe_ne_top _, bot_ne_top]

/-- The product of the loaded row and column, both in range. -/
theorem scaledDot_eq {mask : Prop} [Decidable mask] (hmask : mask) {layer head i j : Nat} (hi : i < tensors.seqQ) :
    tensors.scaledDot (tensors.loadQ layer head i)
      (tensors.loadK mask layer (head / (tensors.headsQ / tensors.headsK)) j) = plainScore tensors layer head i j := by
  simp only [AttentionTensors.scaledDot, AttentionTensors.loadQ, AttentionTensors.loadK, if_pos hi, if_pos hmask,
    AttentionTensors.smScale, mul_one_div]
  rfl

theorem mem_visibleKeys {i n : Nat} :
    n ∈ visibleKeys tensors causal qStart i ↔ n < tensors.seqK ∧ AttentionTensors.Visible causal qStart i n := by
  rw [visibleKeys, Finset.mem_filter, Finset.mem_range]

theorem exp_maskedScore {layer head i : Nat} (hi : i < tensors.seqQ) (n : Nat) :
    EReal.exp (tensors.maskedScore causal qStart layer head (head / (tensors.headsQ / tensors.headsK)) i n) =
      if n ∈ visibleKeys tensors causal qStart i then ENNReal.ofReal (Real.exp (plainScore tensors layer head i n))
      else 0 := by
  unfold AttentionTensors.maskedScore
  by_cases hn : n < tensors.seqK ∧ AttentionTensors.Visible causal qStart i n
  · rw [if_pos ⟨hi, hn⟩, if_pos (mem_visibleKeys.mpr hn), scaledDot_eq hn.1 hi, EReal.exp_coe]
  · rw [if_neg fun h => hn h.2, if_neg fun h => hn (mem_visibleKeys.mp h), EReal.exp_bot]

/-- The splits together hold the denominator of the row. -/
theorem sum_splits (blocks : KernelBlocks) {layer head i : Nat} (hi : i < tensors.seqQ) :
    ∑ s ∈ Finset.range (cdiv tensors.seqK blocks.splitK), ∑ x ∈ Finset.range blocks.splitK,
      EReal.exp (tensors.maskedScore causal qStart layer head (head / (tensors.headsQ / tensors.headsK)) i
        (s * blocks.splitK + x)) = ENNReal.ofReal (softmaxDenominator tensors causal qStart layer head i) := by
  have hsubset : visibleKeys tensors causal qStart i ⊆
      Finset.range (cdiv tensors.seqK blocks.splitK * blocks.splitK) := fun n hn =>
    Finset.mem_range.mpr ((mem_visibleKeys.mp hn).1.trans_le (le_cdiv_mul blocks.splitK_pos))
  rw [sum_blocks (fun n => EReal.exp (tensors.maskedScore causal qStart layer head
    (head / (tensors.headsQ / tensors.headsK)) i n)), softmaxDenominator,
    ENNReal.ofReal_sum_of_nonneg fun _ _ => (Real.exp_pos _).le]
  simp only [exp_maskedScore hi]
  rw [← Finset.sum_filter, Finset.filter_mem_eq_inter, Finset.inter_eq_right.mpr hsubset]

theorem splitRow_represents (layer head split i : Nat) :
    Represents (tensors.splitRow blocks causal qStart layer head split i).m
      (tensors.splitRow blocks causal qStart layer head split i).l
      (∑ x ∈ Finset.range blocks.splitK, EReal.exp (tensors.maskedScore causal qStart layer head
        (head / (tensors.headsQ / tensors.headsK)) i (split * blocks.splitK + x))) := by
  have h := lseBlocks_represents (tensors.maskedScore causal qStart layer head
    (head / (tensors.headsQ / tensors.headsK)) i) (maskedScore_ne_top _ _ _ _) (split * blocks.splitK) blocks.blockN
    (cdiv blocks.splitK blocks.blockN) rfl
  rw [cdiv_mul_of_dvd blocks.splitK_pos blocks.blockN_dvd] at h
  exact h

/-! ## The stores of the launches -/

/-- The program that stores a row. -/
theorem exists_storesRow (blocks : KernelBlocks) {layer head i numZ z : Nat} (hlayer : layer < tensors.numLayers)
    (hhead : head < tensors.headsQ) (hi : i < tensors.seqQ) (hz : z < numZ) :
    ∃ pid ∈ grid (cdiv tensors.seqQ blocks.blockM) (tensors.numLayers * tensors.headsQ) numZ,
      pid.2.2 = z ∧ tensors.storesRow blocks pid (layer, head) i := by
  refine ⟨(i / blocks.blockM, layer * tensors.headsQ + head, z), ?_, rfl, ?_, Nat.div_mul_le_self _ _, ?_, hi⟩
  · refine mem_grid.mpr ⟨lt_cdiv blocks.blockM_pos hi, ?_, hz⟩
    calc layer * tensors.headsQ + head < (layer + 1) * tensors.headsQ := by
          rw [Nat.succ_mul]
          omega
      _ ≤ tensors.numLayers * tensors.headsQ := Nat.mul_le_mul_right _ hlayer
  · have hpos : 0 < tensors.headsQ := Nat.zero_lt_of_lt hhead
    rw [Nat.add_comm, Nat.add_mul_div_right _ _ hpos, Nat.add_mul_mod_self_right, Nat.div_eq_of_lt hhead,
      Nat.mod_eq_of_lt hhead, Nat.zero_add]
  · exact Nat.lt_div_mul_add blocks.blockM_pos

theorem computeLseSplitk_row (mlOut : HeadTable (Nat × Nat) LseState) {numSplits layer head split i : Nat}
    (hlayer : layer < tensors.numLayers) (hhead : head < tensors.headsQ) (hsplit : split < numSplits)
    (hi : i < tensors.seqQ) :
    tensors.computeLseSplitk blocks causal qStart numSplits mlOut (layer, head) (split, i) =
      tensors.splitRow blocks causal qStart layer head split i := by
  obtain ⟨pid, hpid, hz, hstores⟩ := exists_storesRow blocks hlayer hhead hi hsplit
  refine foldl_overwrite_of_hit _ _ mlOut ⟨pid, hpid, hz.symm, hstores⟩ ?_
  rintro other - ⟨hother, -⟩
  exact congrArg (tensors.splitRow blocks causal qStart layer head · i) hother.symm

/-- What the reduce kernel stores for a row. -/
theorem exp_reduceLse (mlOut : HeadTable (Nat × Nat) LseState) (lseOut : HeadTable Nat EReal) {layer head i : Nat}
    (hlayer : layer < tensors.numLayers) (hhead : head < tensors.headsQ) (hi : i < tensors.seqQ) :
    EReal.exp (tensors.reduceLse blocks (cdiv tensors.seqK blocks.splitK)
      (tensors.computeLseSplitk blocks causal qStart (cdiv tensors.seqK blocks.splitK) mlOut) lseOut (layer, head) i) =
        ENNReal.ofReal (softmaxDenominator tensors causal qStart layer head i) := by
  obtain ⟨pid, hpid, -, hstores⟩ := exists_storesRow blocks hlayer hhead hi Nat.one_pos
  have hstored := foldl_overwrite_of_hit (fun pid layerHead offsM => tensors.storesRow blocks pid layerHead offsM)
    (fun _ layerHead offsM => AttentionTensors.reducedLse (cdiv tensors.seqK blocks.splitK) fun split =>
      tensors.computeLseSplitk blocks causal qStart (cdiv tensors.seqK blocks.splitK) mlOut layerHead (split, offsM))
    lseOut ⟨pid, hpid, hstores⟩ fun _ _ _ => rfl
  rw [AttentionTensors.reduceLse, hstored, ← sum_splits blocks hi]
  refine (lseMerges_represents (fun split hsplit => ?_) rfl).exp_logMass
  rw [computeLseSplitk_row mlOut hlayer hhead hsplit hi]
  exact splitRow_represents layer head split i

/-! ## The weights and their maximum -/

theorem softmaxDenominator_pos {layer head i j : Nat} (hj : j ∈ visibleKeys tensors causal qStart i) :
    0 < softmaxDenominator tensors causal qStart layer head i :=
  Finset.sum_pos (fun _ _ => Real.exp_pos _) ⟨j, hj⟩

theorem plainSoftmax_le_one {layer head i j : Nat} (hj : j ∈ visibleKeys tensors causal qStart i) :
    plainSoftmax tensors causal qStart layer head i j ≤ 1 :=
  (div_le_one (softmaxDenominator_pos hj)).mpr
    (Finset.single_le_sum (f := fun n => Real.exp (plainScore tensors layer head i n))
      (fun _ _ => (Real.exp_pos _).le) hj)

variable {targetStart targetLen : Nat} {lse : HeadTable Nat EReal}

theorem attnWeight_eq {layer head i t : Nat} (hi : i < tensors.seqQ) (ht : t < targetLen)
    (hkey : targetStart + t < tensors.seqK)
    (hlse : EReal.exp (lse (layer, head) i) = ENNReal.ofReal (softmaxDenominator tensors causal qStart layer head i)) :
    tensors.attnWeight causal qStart targetStart targetLen lse layer head
      (head / (tensors.headsQ / tensors.headsK)) i t =
        if AttentionTensors.Visible causal qStart i (targetStart + t) then
          ENNReal.ofReal (plainSoftmax tensors causal qStart layer head i (targetStart + t))
        else 0 := by
  unfold AttentionTensors.attnWeight
  simp only [if_pos hi]
  by_cases hvisible : AttentionTensors.Visible causal qStart i (targetStart + t)
  · have hdenominator : 0 < softmaxDenominator tensors causal qStart layer head i :=
      softmaxDenominator_pos (mem_visibleKeys.mpr ⟨hkey, hvisible⟩)
    rw [if_pos ⟨hi, ht, hkey, hvisible⟩, if_pos hvisible, scaledDot_eq ⟨ht, hkey⟩ hi, exp_sub_eq_div, hlse,
      EReal.exp_coe, plainSoftmax, ENNReal.ofReal_div_of_pos hdenominator]
  · rw [if_neg fun h => hvisible h.2.2.2, if_neg hvisible]

theorem targetImportance_le_iff (layer t : Nat) (bound : ℝ≥0∞) :
    tensors.targetImportance blocks causal qStart targetStart targetLen lse layer t ≤ bound ↔
      ∀ headK ∈ List.range tensors.headsK, ∀ groupIdx ∈ List.range (tensors.headsQ / tensors.headsK),
        ∀ startM ∈ blockStarts tensors.seqQ blocks.blockMImp, ∀ r ∈ Finset.range blocks.blockMImp,
          tensors.attnWeight causal qStart targetStart targetLen lse layer
            (headK * (tensors.headsQ / tensors.headsK) + groupIdx) headK (startM + r) t ≤ bound := by
  unfold AttentionTensors.targetImportance
  rw [foldl_le_iff fun acc headK bound => foldl_le_iff (fun acc groupIdx bound =>
    foldl_le_iff (fun acc startM bound => by rw [max_le_iff, Finset.sup_le_iff]) _ _ _) _ _ _]
  exact and_iff_right zero_le

/-- Below a bound are the weights of every row that sees the key, once each head is a head of some group. -/
theorem targetImportance_le_iff_weights (hheads : tensors.headsK ∣ tensors.headsQ) {layer t : Nat}
    (ht : t < targetLen) (hkey : targetStart + t < tensors.seqK)
    (hlse : ∀ head < tensors.headsQ, ∀ i < tensors.seqQ, EReal.exp (lse (layer, head) i) =
      ENNReal.ofReal (softmaxDenominator tensors causal qStart layer head i)) (bound : ℝ≥0∞) :
    tensors.targetImportance blocks causal qStart targetStart targetLen lse layer t ≤ bound ↔
      ∀ w ∈ keyWeights tensors causal qStart layer (targetStart + t), ENNReal.ofReal w ≤ bound := by
  have hgroups : tensors.headsK * (tensors.headsQ / tensors.headsK) = tensors.headsQ := Nat.mul_div_cancel' hheads
  rw [targetImportance_le_iff]
  constructor
  · rintro h w ⟨head, hhead, i, hi, hvisible, rfl⟩
    have hgroup : 0 < tensors.headsQ / tensors.headsK :=
      Nat.pos_of_ne_zero fun hzero => by rw [hzero, Nat.mul_zero] at hgroups; omega
    have hheadK : head / (tensors.headsQ / tensors.headsK) < tensors.headsK :=
      (Nat.div_lt_iff_lt_mul hgroup).mpr (hgroups.symm ▸ hhead)
    have hweight := h _ (List.mem_range.mpr hheadK) (head % (tensors.headsQ / tensors.headsK))
      (List.mem_range.mpr (Nat.mod_lt _ hgroup)) (i / blocks.blockMImp * blocks.blockMImp)
      (List.mem_map.mpr ⟨_, List.mem_range.mpr (lt_cdiv blocks.blockMImp_pos hi), rfl⟩) (i % blocks.blockMImp)
      (Finset.mem_range.mpr (Nat.mod_lt _ blocks.blockMImp_pos))
    rw [Nat.div_add_mod', Nat.div_add_mod'] at hweight
    rwa [attnWeight_eq hi ht hkey (hlse head hhead i hi), if_pos hvisible] at hweight
  · intro h headK hheadK groupIdx hgroupIdx startM hstartM r hr
    rw [List.mem_range] at hheadK hgroupIdx
    have hhead : headK * (tensors.headsQ / tensors.headsK) + groupIdx < tensors.headsQ := by
      calc headK * (tensors.headsQ / tensors.headsK) + groupIdx
          < (headK + 1) * (tensors.headsQ / tensors.headsK) := by rw [Nat.succ_mul]; omega
        _ ≤ tensors.headsK * (tensors.headsQ / tensors.headsK) := Nat.mul_le_mul_right _ hheadK
        _ = tensors.headsQ := hgroups
    have hheadK' : (headK * (tensors.headsQ / tensors.headsK) + groupIdx) / (tensors.headsQ / tensors.headsK) = headK := by
      rw [Nat.add_comm, Nat.add_mul_div_right _ _ (Nat.zero_lt_of_lt hgroupIdx), Nat.div_eq_of_lt hgroupIdx,
        Nat.zero_add]
    by_cases hi : startM + r < tensors.seqQ
    · have hweight : tensors.attnWeight causal qStart targetStart targetLen lse layer _ _ (startM + r) t = _ :=
        attnWeight_eq hi ht hkey (hlse _ hhead _ hi)
      rw [hheadK'] at hweight
      rw [hweight]
      split
      next hvisible => exact h _ ⟨_, hhead, _, hi, hvisible, rfl⟩
      next => exact zero_le
    · rw [AttentionTensors.attnWeight, if_neg fun hrow => hi hrow.1]
      exact zero_le

theorem ofReal_sSup_le_iff {weights : Set ℝ} (hbounded : BddAbove weights) (bound : ℝ≥0∞) :
    ENNReal.ofReal (sSup weights) ≤ bound ↔ ∀ w ∈ weights, ENNReal.ofReal w ≤ bound := by
  constructor
  · exact fun h w hw => (ENNReal.ofReal_le_ofReal (le_csSup hbounded hw)).trans h
  · intro h
    by_cases htop : bound = ⊤
    · exact htop ▸ le_top
    · refine (ENNReal.ofReal_le_iff_le_toReal htop).mpr (Real.sSup_le (fun w hw => ?_) ENNReal.toReal_nonneg)
      exact (ENNReal.ofReal_le_iff_le_toReal htop).mp (h w hw)

theorem keyWeights_le_one {layer j : Nat} (hj : j < tensors.seqK) :
    ∀ w ∈ keyWeights tensors causal qStart layer j, w ≤ 1 := by
  rintro w ⟨head, -, i, -, hvisible, rfl⟩
  exact plainSoftmax_le_one (mem_visibleKeys.mpr ⟨hj, hvisible⟩)

theorem sSup_keyWeights_nonneg (layer j : Nat) : 0 ≤ sSup (keyWeights tensors causal qStart layer j) := by
  refine Real.sSup_nonneg ?_
  rintro w ⟨head, -, i, -, -, rfl⟩
  exact div_nonneg (Real.exp_pos _).le (Finset.sum_nonneg fun _ _ => (Real.exp_pos _).le)

theorem targetImportance_eq (hheads : tensors.headsK ∣ tensors.headsQ) {layer t : Nat}
    (ht : t < targetLen) (hkey : targetStart + t < tensors.seqK)
    (hlse : ∀ head < tensors.headsQ, ∀ i < tensors.seqQ, EReal.exp (lse (layer, head) i) =
      ENNReal.ofReal (softmaxDenominator tensors causal qStart layer head i)) :
    tensors.targetImportance blocks causal qStart targetStart targetLen lse layer t =
      ENNReal.ofReal (sSup (keyWeights tensors causal qStart layer (targetStart + t))) :=
  eq_of_forall_ge_iff fun bound => (targetImportance_le_iff_weights hheads ht hkey hlse bound).trans
    (ofReal_sSup_le_iff ⟨1, keyWeights_le_one hkey⟩ bound).symm

theorem flashImportanceTarget_target (importance : Nat → Nat → ℝ≥0∞) {layer t : Nat}
    (hlayer : layer < tensors.numLayers) (ht : t < targetLen) :
    tensors.flashImportanceTarget blocks causal qStart targetStart targetLen lse importance layer t =
      tensors.targetImportance blocks causal qStart targetStart targetLen lse layer t :=
  foldl_overwrite_of_hit _ _ importance
    ⟨(t / blocks.blockNImp, layer, 0), mem_grid.mpr ⟨lt_cdiv blocks.blockNImp_pos ht, hlayer, Nat.one_pos⟩, rfl,
      Nat.div_mul_le_self _ _, Nat.lt_div_mul_add blocks.blockNImp_pos, ht⟩ fun _ _ _ => rfl

theorem ofReal_plainImportance (j : Nat) :
    ENNReal.ofReal (plainImportance tensors causal qStart j) =
      (∑ layer ∈ Finset.range tensors.numLayers,
        ENNReal.ofReal (sSup (keyWeights tensors causal qStart layer j))) / tensors.numLayers := by
  rw [← ENNReal.ofReal_sum_of_nonneg fun layer _ => sSup_keyWeights_nonneg layer j, plainImportance]
  obtain hzero | hpos := Nat.eq_zero_or_pos tensors.numLayers
  · rw [hzero, Finset.sum_range_zero, zero_div, ENNReal.ofReal_zero, ENNReal.zero_div]
  · rw [ENNReal.ofReal_div_of_pos (Nat.cast_pos.mpr hpos), ENNReal.ofReal_natCast]

theorem clamped_le (targetStart targetLen : Int) :
    tensors.clampedStart targetStart + tensors.clampedLen targetStart targetLen ≤ tensors.seqK := by
  unfold AttentionTensors.clampedLen AttentionTensors.clampedStart
  omega

theorem importanceWith_eq (blocks : KernelBlocks) (hheads : tensors.headsK ∣ tensors.headsQ)
    (targetStart targetLen : Int) (empty : EmptyTensors) :
    tensors.importanceWith blocks causal targetStart targetLen qStart empty =
      plainImportances tensors causal qStart targetStart targetLen := by
  simp only [AttentionTensors.importanceWith, plainImportances]
  congr 3
  refine congrArg Except.ok (List.map_congr_left fun t ht => ?_)
  rw [List.mem_range] at ht
  have hkey : tensors.clampedStart targetStart + t < tensors.seqK :=
    (Nat.add_lt_add_left ht _).trans_le (clamped_le targetStart targetLen)
  rw [ofReal_plainImportance]
  congr 1
  refine Finset.sum_congr rfl fun layer hlayer => ?_
  rw [Finset.mem_range] at hlayer
  rw [flashImportanceTarget_target _ hlayer ht, targetImportance_eq hheads ht hkey]
  exact fun head hhead i hi => exp_reduceLse _ _ hlayer hhead hi

end Kernels

/-- The importance the kernels compute is the plain one, with the sizes the source chooses and with any others. -/
theorem split_importance_plain {tensors : AttentionTensors} (hheads : tensors.headsK ∣ tensors.headsQ)
    (causal : Bool) (targetStart targetLen qStart : Int) (empty : EmptyTensors) :
    tensors.computeAttFullSoftmaxImportance causal targetStart targetLen qStart empty =
        plainImportances tensors causal qStart targetStart targetLen ∧
      ∀ blocks, tensors.importanceWith blocks causal targetStart targetLen qStart empty =
        plainImportances tensors causal qStart targetStart targetLen :=
  ⟨importanceWith_eq _ hheads targetStart targetLen empty,
    fun blocks => importanceWith_eq blocks hheads targetStart targetLen empty⟩

/-- Four query heads over two key heads in two layers, one key before the three query rows, two targets. -/
theorem split_importance_plain_grouped :
    let tensors : AttentionTensors := ⟨2, 3, 4, 4, 2, 1, fun _ _ _ _ => 1, fun _ j _ _ => j⟩
    let empty : EmptyTensors := ⟨fun _ _ => ⟨⊥, 0⟩, fun _ _ => ⊥, fun _ _ => 0⟩
    tensors.headsK ∣ tensors.headsQ ∧ tensors.computeAttFullSoftmaxImportance true 1 2 1 empty =
      plainImportances tensors true 1 1 2 :=
  ⟨⟨2, rfl⟩, (split_importance_plain ⟨2, rfl⟩ true 1 2 1 _).1⟩

end QCFuse.Guarantees
