import Mathlib
import QCFuse.Source.ExpertLocationUpdater
import QCFuse.Source.ExpertRecorder

/-!
# `EPLBManager` between the forward passes

The generator that counts the passes, dumps the record, and moves the experts of one chunk of layers after
the other, with the router and the recorder in the passes between. All ranks run in step; no rank is
elastic. Timing and logging are left out.
-/

set_option autoImplicit false

namespace QCFuse.Source

/-- The configuration, with what `__init__` asserts. -/
structure EplbConfig extends EpArgs where
  numTensors : Nat
  /-- The keys of `routed_experts_weights_of_layer`, sorted. -/
  allLayerIds : List Nat
  eplbRebalanceNumIterations : Nat
  eplbRebalanceLayersPerChunk : Option Nat
  eplbMinRebalancingUtilizationThreshold : Rat
  expertDistributionRecorderBufferSize : Int
  numIterations_pos : 0 < eplbRebalanceNumIterations
  bufferSize_le : expertDistributionRecorderBufferSize ≤ eplbRebalanceNumIterations

/-- Where the generator stands: the yields of the counting loop so far, or the chunks still to do. -/
inductive EplbPhase where
  | counting (done : Nat)
  | updating (metadata : ExpertLocationMetadata) (chunks : List (List Nat))

/-- The weights by layer and rank. -/
structure EplbState (W : Type) where
  metadata : ExpertLocationMetadata
  weights : Nat → Nat → ExpertTensors W
  buffer : CountBuffer
  phase : EplbPhase

/-- After `__init__`, before the generator has been asked for a step. -/
def EplbState.start {W : Type} (config : EplbConfig) (metadata : ExpertLocationMetadata)
    (weights : Nat → Nat → ExpertTensors W) : EplbState W where
  metadata := metadata
  weights := weights
  buffer := .initNew config.expertDistributionRecorderBufferSize
  phase := .counting 0

/-- What a forward pass brings: the logical experts by rank and layer, `none` in the padded rows, the drawn
numbers, the measured utilization, and what is in the new temporary buffers. -/
structure PassInput (W : Type) where
  topkIds : Nat → Nat → List (Option Nat)
  randint : Nat → Nat → Nat → Nat
  utilization : Option Rat
  tempBuffers : Nat → Nat → ExpertTensors W

section Step

variable {W R : Type} (sort : DescendingSort) (random : PyRandom R) (config : EplbConfig)

/-! ## The forward pass -/

/-- The physical experts of one layer's rows on a rank, -1 in the padded rows. -/
def selectedExperts (metadata : ExpertLocationMetadata) (input : PassInput W) (rank layerId : Nat) :
    Except UpdaterError (List Int) :=
  (input.topkIds rank layerId).zipIdx.mapM fun (topkId, position) =>
    match topkId with
    | none => .ok (-1)
    | some topkId => topkIdLogicalToPhysical metadata config.epDispatchAlgorithm layerId rank topkId
        (input.randint rank layerId position)

/-- The counts a rank gathers in a pass. -/
def gatherRank (metadata : ExpertLocationMetadata) (input : PassInput W) (rank : Nat) :
    Except UpdaterError (Nat → Nat → Nat) :=
  config.allLayerIds.foldlM (fun data layerId => do
    let topkIds ← selectedExperts config metadata input rank layerId
    return Function.update data layerId (onSelectExperts (data layerId) topkIds)) fun _ _ => 0

def gatherPass (metadata : ExpertLocationMetadata) (input : PassInput W) : Except UpdaterError PassCount :=
  (List.range config.epSize).foldlM (fun count rank => do
    return Function.update count rank (← gatherRank config metadata input rank)) fun _ _ _ => 0

/-! ## Moving the experts -/

/-- The layouts `_update_expert_weights_raw` calls the updater of one layer with. -/
def layerLayouts (oldMap newMap : List Nat) : Except UpdaterError ExpertLayouts := do
  let (numLocalPhysicalExperts, _) ← divmod oldMap.length config.epSize
  let (numGpuPerNode, _) ← divmod config.epSize config.nnodes
  if hold : oldMap.length = config.epSize * numLocalPhysicalExperts then
    if hnew : newMap.length = config.epSize * numLocalPhysicalExperts then
      if hgpus : 0 < numGpuPerNode then
        return {
          worldSize := config.epSize
          numGpuPerNode := numGpuPerNode
          numLocalPhysicalExperts := numLocalPhysicalExperts
          numTensors := config.numTensors
          oldPhysicalToLogicalMap := oldMap.map Nat.cast
          newPhysicalToLogicalMap := newMap.map Nat.cast
          oldLength := (List.length_map ..).trans hold
          newLength := (List.length_map ..).trans hnew
          numGpuPerNode_pos := hgpus }
      else .error .zeroDivisionError
    else .error .indexError
  else .error .assertionError

/-- `_update_expert_weights_raw` on all ranks; `none` when a rank waits for ever. -/
def updateExpertWeightsRaw (oldMetadata newMetadata : ExpertLocationMetadata)
    (tempBuffers : Nat → Nat → ExpertTensors W) : List Nat → (Nat → Nat → ExpertTensors W) →
      Except UpdaterError (Option (Nat → Nat → ExpertTensors W))
  | [], weights => .ok (some weights)
  | layerId :: layerIds, weights => do
    let oldMap ← getIndex oldMetadata.physicalToLogicalMap layerId
    let newMap ← getIndex newMetadata.physicalToLogicalMap layerId
    let layouts ← layerLayouts config oldMap newMap
    match ← layouts.updateExpertWeightsSingleLayer (weights layerId) (tempBuffers layerId) with
    | none => return none
    | some after =>
      updateExpertWeightsRaw oldMetadata newMetadata tempBuffers layerIds
        (Function.update weights layerId fun rank => after.getD rank (weights layerId rank))

/-- `update_expert_location`. -/
def updateExpertLocation (input : PassInput W) (newMetadata : ExpertLocationMetadata) (updateLayerIds : List Nat)
    (state : EplbState W) : Except UpdaterError (Option (EplbState W)) := do
  match ← updateExpertWeightsRaw config state.metadata newMetadata input.tempBuffers updateLayerIds state.weights with
  | none => return none
  | some weights => return some { state with weights, metadata := ← state.metadata.update newMetadata updateLayerIds }

/-! ## The generator -/

/-- `_chunk_list`. -/
def chunkList (items : List Nat) (chunkSize : Nat) : List (List Nat) :=
  (List.range ((items.length + chunkSize - 1) / chunkSize)).map fun i => (items.drop (i * chunkSize)).take chunkSize

/-- `_compute_update_layer_ids_chunks`. -/
def computeUpdateLayerIdsChunks : List (List Nat) :=
  chunkList config.allLayerIds
    (match config.eplbRebalanceLayersPerChunk with
      | none | some 0 => 1000000
      | some chunkSize => chunkSize)

/-- `_check_rebalance_needed`. -/
def checkRebalanceNeeded (averageUtilizationRateOverWindow : Option Rat) : Bool :=
  match averageUtilizationRateOverWindow with
  | none => true
  | some rate => ¬ config.eplbMinRebalancingUtilizationThreshold < rate

/-- `rebalance` up to its first yield, or to the first one of the counting loop after it. -/
def rebalance (input : PassInput W) (state : EplbState W) : Except UpdaterError (Option (EplbState W)) := do
  let logicalCount := tokensPerExpert config.epSize state.metadata state.buffer
  let state := { state with buffer := state.buffer.reset }
  if checkRebalanceNeeded config input.utilization then
    let newMetadata ← initByEplb sort random config.toEpArgs (List.replicate config.epSize true) logicalCount
    match computeUpdateLayerIdsChunks config with
    | [] => return some { state with phase := .counting 1 }
    | [updateLayerIds] =>
      let updated ← updateExpertLocation config input newMetadata updateLayerIds state
      return updated.map fun state => { state with phase := .counting 1 }
    | chunks => return some { state with phase := .updating newMetadata chunks }
  else return some { state with phase := .counting 1 }

/-- `on_forward_pass_end`: the generator up to its next yield. -/
def onForwardPassEnd (input : PassInput W) (state : EplbState W) : Except UpdaterError (Option (EplbState W)) :=
  match state.phase with
  | .counting done =>
    if done < config.eplbRebalanceNumIterations then .ok (some { state with phase := .counting (done + 1) })
    else rebalance sort random config input state
  | .updating _ [] => .ok (some { state with phase := .counting 1 })
  | .updating newMetadata (updateLayerIds :: chunks) => do
    let updated ← updateExpertLocation config input newMetadata updateLayerIds state
    return updated.map fun state =>
      { state with phase := if chunks = [] then .counting 1 else .updating newMetadata chunks }

/-- A forward pass with what follows it; `none` when a rank waits for ever. -/
def eplbStep (input : PassInput W) (state : EplbState W) : Except UpdaterError (Option (EplbState W)) := do
  let count ← gatherPass config state.metadata input
  let buffer ← state.buffer.append count
  onForwardPassEnd sort random config input { state with buffer }

def eplbRun : List (PassInput W) → EplbState W → Except UpdaterError (Option (EplbState W))
  | [], state => .ok (some state)
  | input :: inputs, state => do
    match ← eplbStep sort random config input state with
    | none => return none
    | some state => eplbRun inputs state

end Step

end QCFuse.Source
