import QCFuse.Source.BatchBlendInfo

/-!
# `_ragged_positions_fwd_kernel` on one batch entry

The loop over the key blocks, row by row: the score each key position has in an iteration after the
mask, `none` for minus infinity. The softmax over the scores and the values are left out. A key past
`KV_Seqlen` is loaded as zeros, and its score is finite like any other.
-/

set_option autoImplicit false

namespace QCFuse.Source

/-- A batch entry. `score row key` is the scaled and capped product of a query row with a stored key,
or with the zeros loaded in place of one. -/
structure RaggedEntry (S : Type) where
  isCausal : Bool
  blockM : Nat
  blockN : Nat
  slidingWindowSize : Int
  qPositions : List Int
  kvSeqLen : Int
  score : Nat → Option Int → S

namespace RaggedEntry

variable {S : Type} (entry : RaggedEntry S)

def qSeqLen : Nat := entry.qPositions.length

/-- `cur_q_pos`, a masked load with 0 for the rest. -/
def curQPos (offsM : Nat) : Int := if offsM < entry.qSeqLen then entry.qPositions.getD offsM 0 else 0

/-- `max_q_pos` of a block of rows. -/
def maxQPos (startM : Nat) : Int :=
  ((List.range' (startM * entry.blockM) entry.blockM).map fun offsM =>
    if offsM < entry.qSeqLen then entry.curQPos offsM else -1).foldl max (-1)

/-- `effective_kv_seq_len`. -/
def effectiveKvSeqLen (startM : Nat) : Int :=
  if entry.isCausal then min (entry.maxQPos startM + 1) entry.kvSeqLen else entry.kvSeqLen

/-- `range(0, effective_kv_seq_len, BLOCK_N)`. -/
def startNs (startM : Nat) : List Nat :=
  (List.range (((entry.effectiveKvSeqLen startM).toNat + entry.blockN - 1) / entry.blockN)).map
    (· * entry.blockN)

/-- The mask of the four combinations of `IS_CAUSAL` and `SLIDING_WINDOW_SIZE > 0`. -/
def validMask (qPos kPos : Int) : Bool :=
  if entry.isCausal then
    if 0 < entry.slidingWindowSize then
      decide (qPos ≥ kPos) && decide (qPos - kPos < entry.slidingWindowSize)
    else decide (qPos ≥ kPos)
  else if 0 < entry.slidingWindowSize then decide (|qPos - kPos| < entry.slidingWindowSize)
  else true

/-- The key loaded for a position: `mask_kv`, with zeros for the rest. -/
def loadKey (kPos : Int) : Option Int := if kPos < entry.kvSeqLen then some kPos else none

/-- `qk` of a row and a key position; `none` is minus infinity. -/
def qk (row : Nat) (kPos : Int) : Option S :=
  if entry.validMask (entry.curQPos row) kPos then some (entry.score row (entry.loadKey kPos)) else none

/-- The scores of a row over the whole loop of its program. -/
def rowScores (row : Nat) : List (Int × Option S) :=
  if entry.qSeqLen ≤ entry.blockM * (row / entry.blockM) then []
  else (entry.startNs (row / entry.blockM)).flatMap fun startN =>
    (List.range entry.blockN).map fun offsN => (((startN + offsN : Nat) : Int), entry.qk row ((startN + offsN : Nat) : Int))

/-- The key positions with a finite score, one for each time it enters the softmax. -/
def contributing (row : Nat) : List Int := ((entry.rowScores row).filter fun s => s.2.isSome).map Prod.fst

end RaggedEntry

end QCFuse.Source
