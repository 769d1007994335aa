import Mathlib
import QCFuse.Source.ExpertLocation

/-!
# The expert distribution recorder

The counts of the chosen experts of one forward pass, the buffer of the passes, and `dump`. The recorder
is on and takes every pass; the counts of all ranks are side by side, as the all-reduce of `dump` finds them.
-/

set_option autoImplicit false

namespace QCFuse.Source

/-- `global_physical_count` of one pass on each rank: by rank, layer and physical expert. -/
abbrev PassCount := Nat → Nat → Nat → Nat

/-- `on_select_experts` on one row of `_data`. -/
def onSelectExperts (data : Nat → Nat) (topkIds : List Int) : Nat → Nat :=
  topkIds.foldl (fun data id => if id = -1 then data else Function.update data id.toNat (data id.toNat + 1)) data

/-- `_CircularBuffer` and `_InfiniteBuffer`. -/
inductive CountBuffer where
  | circular (buffer : List PassCount) (currIndex : Nat)
  | infinite (buffer : List PassCount) (size : Nat)

namespace CountBuffer

/-- `_Buffer.init_new`. -/
def initNew (bufferSize : Int) : CountBuffer :=
  if bufferSize < 0 then .infinite (List.replicate 128 0) 0 else .circular (List.replicate bufferSize.toNat 0) 0

def append (value : PassCount) : CountBuffer → Except UpdaterError CountBuffer
  | .circular buffer currIndex =>
    if currIndex < buffer.length then
      .ok (.circular (buffer.set currIndex value) ((currIndex + 1) % buffer.length))
    else .error .indexError
  | .infinite buffer size =>
    let buffer := if size = buffer.length then buffer ++ List.replicate buffer.length 0 else buffer
    if size < buffer.length then .ok (.infinite (buffer.set size value) (size + 1)) else .error .indexError

def getAll : CountBuffer → List PassCount
  | .circular buffer _ => buffer
  | .infinite buffer size => buffer.take size

def reset : CountBuffer → CountBuffer
  | .circular buffer currIndex => .circular (buffer.map fun _ => 0) currIndex
  | .infinite buffer _ => .infinite (buffer.map fun _ => 0) 0

end CountBuffer

/-- `_convert_global_physical_count_to_logical_count` on one layer of a pass of one rank. -/
def convertToLogicalCount (physicalToLogicalMap : List Nat) (globalPhysicalCount : Nat → Nat) : Nat → Nat :=
  physicalToLogicalMap.zipIdx.foldl (fun logicalCount pair =>
    Function.update logicalCount pair.1 (logicalCount pair.1 + globalPhysicalCount pair.2)) fun _ => 0

/-- `logical_count` of `dump` after the all-reduce, for a pass of the buffer and a layer. -/
def dumpedCount (numRanks : Nat) (physicalToLogicalMap : List Nat) (layerId : Nat) (pass : PassCount)
    (logical : Nat) : Nat :=
  ((List.range numRanks).map fun rank => convertToLogicalCount physicalToLogicalMap (pass rank layerId) logical).sum

/-- The sum of `logical_count` over the buffer, for each layer. -/
def tokensPerExpert (numRanks : Nat) (metadata : ExpertLocationMetadata) (buffer : CountBuffer) : List (Nat → Rat) :=
  metadata.physicalToLogicalMap.zipIdx.map fun layer logical =>
    ((buffer.getAll.map fun pass => dumpedCount numRanks layer.1 layer.2 pass logical).sum : Nat)

end QCFuse.Source
