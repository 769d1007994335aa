import QCFuse.Library.OnlineSoftmax
import QCFuse.Library.Overwrites
import QCFuse.Source.PagedAllocator
import Mathlib.Analysis.Real.Sqrt

/-!
# `compute_att_full_softmax_importance`

The three kernels over exact numbers: scores are extended reals and weights extended nonnegative reals.
A tensor is read and written by its indices in place of strides, the programs of a launch store one
after another, and what Triton asks of the shapes is left out.
-/

set_option autoImplicit false

namespace QCFuse.Source

open QCFuse.Library
open scoped ENNReal

inductive ImportanceError where
  | zeroDivisionError | compilationError
  deriving DecidableEq, Repr

/-- `q: [Layer, Seq_Q, Heads_Q, Head_Dim]` and `k: [Layer, Seq_K, Heads_K, Head_Dim]`. -/
structure AttentionTensors where
  numLayers : Nat
  seqQ : Nat
  seqK : Nat
  headsQ : Nat
  headsK : Nat
  dim : Nat
  q : Nat → Nat → Nat → Nat → ℝ
  k : Nat → Nat → Nat → Nat → ℝ

/-- The sizes the kernels are compiled for: whole blocks of keys in a split. -/
structure KernelBlocks where
  splitK : Nat
  blockM : Nat
  blockN : Nat
  blockMImp : Nat
  blockNImp : Nat
  blockN_dvd : blockN ∣ splitK
  splitK_pos : 0 < splitK
  blockM_pos : 0 < blockM
  blockMImp_pos : 0 < blockMImp
  blockNImp_pos : 0 < blockNImp

/-- `_bounded_power_of_2`. -/
def boundedPowerOf2 (value lower upper : Nat) : Nat :=
  min upper (max lower (if 0 < value then nextPowerOf2 value else lower))

theorem boundedPowerOf2_pos (value : Nat) {lower upper : Nat} (hlower : 0 < lower) (hupper : 0 < upper) :
    0 < boundedPowerOf2 value lower upper :=
  lt_min hupper (lt_max_of_lt_left hlower)

/-- The sizes `compute_att_full_softmax_importance` chooses. -/
def kernelBlocks (seqQ : Nat) : KernelBlocks where
  splitK := 1024
  blockM := boundedPowerOf2 seqQ 16 64
  blockN := 128
  blockMImp := boundedPowerOf2 seqQ 32 128
  blockNImp := 64
  blockN_dvd := ⟨8, rfl⟩
  splitK_pos := by decide
  blockM_pos := boundedPowerOf2_pos seqQ (by decide) (by decide)
  blockMImp_pos := boundedPowerOf2_pos seqQ (by decide) (by decide)
  blockNImp_pos := by decide

/-- `triton.cdiv`. -/
def cdiv (x y : Nat) : Nat := (x + y - 1) / y

/-- `range(0, stop, block)`. -/
def blockStarts (stop block : Nat) : List Nat := (List.range (cdiv stop block)).map (· * block)

/-- `m_i` and `l_i` of a row. -/
structure LseState where
  m : EReal
  l : ℝ≥0∞

/-- A tensor by layer and head, then by the rest of its index. -/
abbrev HeadTable (ι : Type) (α : Type) := Nat × Nat → ι → α

namespace AttentionTensors

variable (tensors : AttentionTensors)

noncomputable def smScale : ℝ := 1 / √tensors.dim

/-- A row of `q`, zeros past the last. -/
def loadQ (layer head offsM d : Nat) : ℝ := if offsM < tensors.seqQ then tensors.q layer offsM head d else 0

/-- A column of `k` where the mask holds, zeros elsewhere. -/
def loadK (mask : Prop) [Decidable mask] (layer head offsN d : Nat) : ℝ :=
  if mask then tensors.k layer offsN head d else 0

/-- `tl.dot(q, k) * sm_scale` of a row and a column. -/
noncomputable def scaledDot (q k : Nat → ℝ) : ℝ := (∑ d ∈ Finset.range tensors.dim, q d * k d) * tensors.smScale

variable (causal : Bool) (qStart : Int)

/-- The key may enter the row: `offs_n <= q_abs` under `CAUSAL`. -/
def Visible (offsM offsN : Nat) : Prop := causal = true → (offsN : Int) ≤ qStart + offsM

instance (offsM offsN : Nat) : Decidable (Visible causal qStart offsM offsN) := by
  unfold Visible
  infer_instance

/-- `qk` of the split kernel after the mask. -/
noncomputable def maskedScore (layer headQ headK offsM offsN : Nat) : EReal :=
  if offsM < tensors.seqQ ∧ offsN < tensors.seqK ∧ Visible causal qStart offsM offsN then
    ((tensors.scaledDot (tensors.loadQ layer headQ offsM)
      (tensors.loadK (offsN < tensors.seqK) layer headK offsN) : ℝ) : EReal)
  else ⊥

end AttentionTensors

/-- The body of the split kernel's loop for a row: the scores of a block of keys. -/
noncomputable def lseBlock (blockN : Nat) (state : LseState) (qk : Nat → EReal) : LseState :=
  let mIj := (Finset.range blockN).sup qk
  let mNew := max state.m mIj
  ⟨mNew, state.l * expShifted state.m mNew + ∑ c ∈ Finset.range blockN, expShifted (qk c) mNew⟩

/-- The body of the reduce kernel's loop for a row. -/
noncomputable def lseMerge (state split : LseState) : LseState :=
  let mNew := max state.m split.m
  ⟨mNew, state.l * expShifted state.m mNew + split.l * expShifted split.m mNew⟩

/-- The programs of a launch. -/
def grid (x y z : Nat) : List (Nat × Nat × Nat) := List.range x ×ˢ List.range y ×ˢ List.range z

theorem mem_grid {x y z : Nat} {pid : Nat × Nat × Nat} :
    pid ∈ grid x y z ↔ pid.1 < x ∧ pid.2.1 < y ∧ pid.2.2 < z := by
  obtain ⟨a, b, c⟩ := pid
  simp only [grid, List.mem_product, List.mem_range]

namespace AttentionTensors

variable (tensors : AttentionTensors) (blocks : KernelBlocks) (causal : Bool) (qStart : Int)

/-- What a program of `_compute_lse_splitk_causal_kernel` holds for a row at its end. -/
noncomputable def splitRow (batchIdx headQ pidSplit offsM : Nat) : LseState :=
  let groupSize := tensors.headsQ / tensors.headsK
  let headK := headQ / groupSize
  let startKBase := pidSplit * blocks.splitK
  (blockStarts blocks.splitK blocks.blockN).foldl (fun state startN =>
    lseBlock blocks.blockN state fun c =>
      tensors.maskedScore causal qStart batchIdx headQ headK offsM (startKBase + startN + c)) ⟨⊥, 0⟩

/-- The program `(pid_m, pid_bh, ..)` stores the row `offs_m` of the layer and the head. -/
def storesRow (pid : Nat × Nat × Nat) (layerHead : Nat × Nat) (offsM : Nat) : Prop :=
  layerHead = (pid.2.1 / tensors.headsQ, pid.2.1 % tensors.headsQ) ∧
    pid.1 * blocks.blockM ≤ offsM ∧ offsM < pid.1 * blocks.blockM + blocks.blockM ∧ offsM < tensors.seqQ

instance (pid : Nat × Nat × Nat) (layerHead : Nat × Nat) (offsM : Nat) :
    Decidable (tensors.storesRow blocks pid layerHead offsM) := by
  unfold storesRow
  infer_instance

/-- `_compute_lse_splitk_causal_kernel`: `M_OUT` and `L_OUT`, by split and row. -/
noncomputable def computeLseSplitk (numSplits : Nat) (mlOut : HeadTable (Nat × Nat) LseState) :
    HeadTable (Nat × Nat) LseState :=
  (grid (cdiv tensors.seqQ blocks.blockM) (tensors.numLayers * tensors.headsQ) numSplits).foldl
    (overwriteStep (fun pid layerHead row => row.1 = pid.2.2 ∧ tensors.storesRow blocks pid layerHead row.2)
      (fun pid layerHead row => tensors.splitRow blocks causal qStart layerHead.1 layerHead.2 pid.2.2 row.2))
    mlOut

/-- `lse` of a row at the end of `_reduce_lse_kernel`. -/
noncomputable def reducedLse (numSplits : Nat) (splits : Nat → LseState) : EReal :=
  let state := (List.range numSplits).foldl (fun state split => lseMerge state (splits split)) ⟨⊥, 0⟩
  if 0 < state.l then state.m + ENNReal.log state.l else ⊥

/-- `_reduce_lse_kernel`. -/
noncomputable def reduceLse (numSplits : Nat) (mlOut : HeadTable (Nat × Nat) LseState)
    (lseOut : HeadTable Nat EReal) : HeadTable Nat EReal :=
  (grid (cdiv tensors.seqQ blocks.blockM) (tensors.numLayers * tensors.headsQ) 1).foldl
    (overwriteStep (fun pid layerHead offsM => tensors.storesRow blocks pid layerHead offsM)
      (fun _ layerHead offsM => reducedLse numSplits fun split => mlOut layerHead (split, offsM)))
    lseOut

variable (targetStart targetLen : Nat)

/-- `attn_weight` of a row and a target after the mask. -/
noncomputable def attnWeight (lse : HeadTable Nat EReal) (layer headQ headK offsM offsLocal : Nat) : ℝ≥0∞ :=
  let offsN := targetStart + offsLocal
  let qk := tensors.scaledDot (tensors.loadQ layer headQ offsM)
    (tensors.loadK (offsLocal < targetLen ∧ offsN < tensors.seqK) layer headK offsN)
  let lseRow := if offsM < tensors.seqQ then lse (layer, headQ) offsM else 0
  if offsM < tensors.seqQ ∧ offsLocal < targetLen ∧ offsN < tensors.seqK ∧ Visible causal qStart offsM offsN then
    EReal.exp ((qk : EReal) - lseRow)
  else 0

/-- `importance` of a target at the end of a program of `_flash_importance_target_kernel`. -/
noncomputable def targetImportance (lse : HeadTable Nat EReal) (layer offsLocal : Nat) : ℝ≥0∞ :=
  let groupSize := tensors.headsQ / tensors.headsK
  (List.range tensors.headsK).foldl (fun importance headK =>
    (List.range groupSize).foldl (fun importance groupIdx =>
      (blockStarts tensors.seqQ blocks.blockMImp).foldl (fun importance startM =>
        max importance ((Finset.range blocks.blockMImp).sup fun r =>
          tensors.attnWeight causal qStart targetStart targetLen lse layer (headK * groupSize + groupIdx) headK
            (startM + r) offsLocal)) importance) importance) 0

/-- `_flash_importance_target_kernel`. -/
noncomputable def flashImportanceTarget (lse : HeadTable Nat EReal) (importance : Nat → Nat → ℝ≥0∞) :
    Nat → Nat → ℝ≥0∞ :=
  (grid (cdiv targetLen blocks.blockNImp) tensors.numLayers 1).foldl
    (overwriteStep (fun pid layer offsLocal => layer = pid.2.1 ∧ pid.1 * blocks.blockNImp ≤ offsLocal ∧
        offsLocal < pid.1 * blocks.blockNImp + blocks.blockNImp ∧ offsLocal < targetLen)
      (fun _ layer offsLocal =>
        tensors.targetImportance blocks causal qStart targetStart targetLen lse layer offsLocal))
    importance

end AttentionTensors

/-- The tensors of `torch.empty` before the kernels store to them. -/
structure EmptyTensors where
  mlOut : HeadTable (Nat × Nat) LseState
  lse : HeadTable Nat EReal
  perLayerImportance : Nat → Nat → ℝ≥0∞

namespace AttentionTensors

variable (tensors : AttentionTensors) (blocks : KernelBlocks) (causal : Bool)

/-- `max(0, min(int(target_start), seq_k))`. -/
def clampedStart (targetStart : Int) : Nat := (max 0 (min targetStart tensors.seqK)).toNat

/-- `max(0, min(int(target_len), seq_k - target_start))`. -/
def clampedLen (targetStart targetLen : Int) : Nat :=
  (max 0 (min targetLen (tensors.seqK - tensors.clampedStart targetStart))).toNat

/-- `compute_att_full_softmax_importance` with the sizes of its kernels. -/
noncomputable def importanceWith (targetStart targetLen qStart : Int) (empty : EmptyTensors) :
    Except ImportanceError (List ℝ≥0∞) :=
  let start := tensors.clampedStart targetStart
  let len := tensors.clampedLen targetStart targetLen
  if len = 0 then .ok []
  else if tensors.dim = 0 then .error .zeroDivisionError
  else if tensors.headsK = 0 then .error .compilationError
  else
    let numSplits := cdiv tensors.seqK blocks.splitK
    let mlOut := tensors.computeLseSplitk blocks causal qStart numSplits empty.mlOut
    let lse := tensors.reduceLse blocks numSplits mlOut empty.lse
    let perLayer := tensors.flashImportanceTarget blocks causal qStart start len lse empty.perLayerImportance
    .ok ((List.range len).map fun t =>
      (∑ layer ∈ Finset.range tensors.numLayers, perLayer layer t) / tensors.numLayers)

/-- `compute_att_full_softmax_importance`. -/
noncomputable def computeAttFullSoftmaxImportance (targetStart targetLen qStart : Int) (empty : EmptyTensors) :
    Except ImportanceError (List ℝ≥0∞) :=
  tensors.importanceWith (kernelBlocks tensors.seqQ) causal targetStart targetLen qStart empty

end AttentionTensors

end QCFuse.Source
