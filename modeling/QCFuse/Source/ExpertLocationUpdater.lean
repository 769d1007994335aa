import Mathlib.Data.List.Sort

/-!
# `update_expert_weights_single_layer` on every rank

Each rank plans its receives, its sends and its local copies from the two layouts, posts the
operations in the order of the logical experts, and copies the temporary buffers into its weights. A
tensor is a row for each local physical expert, so the check of the first dimensions is left out, and
so are the logs and the metrics.
-/

set_option autoImplicit false

namespace QCFuse.Source

inductive UpdaterError where
  | assertionError | zeroDivisionError | valueError | indexError
  deriving DecidableEq, Repr

/-- `divmod(a, b)`. -/
def divmod (a b : Nat) : Except UpdaterError (Nat × Nat) :=
  if b = 0 then .error .zeroDivisionError else .ok (a / b, a % b)

/-- `xs.index(x)`. -/
def listIndex (xs : List Nat) (x : Nat) : Except UpdaterError Nat :=
  if x ∈ xs then .ok (xs.idxOf x) else .error .valueError

/-- `_ChunkUtils`. -/
structure ChunkUtils where
  chunkValues : List Nat
  elementValues : List Nat

namespace ChunkUtils

def chunkIndexFromElementIndex (numElements numChunks elementIndex : Nat) : Except UpdaterError Nat := do
  let (shortChunkSize, numLongChunks) ← divmod numElements numChunks
  let numElementsForLongChunks := numLongChunks * (shortChunkSize + 1)
  if elementIndex < numElementsForLongChunks then return elementIndex / (shortChunkSize + 1)
  else
    let (quotient, _) ← divmod (elementIndex - numElementsForLongChunks) shortChunkSize
    return numLongChunks + quotient

/-- The slice's start and end. -/
def elementSliceFromChunkIndex (numElements numChunks chunkIndex : Nat) :
    Except UpdaterError (Nat × Nat) := do
  let (shortChunkSize, numLongChunks) ← divmod numElements numChunks
  let start := chunkIndex * shortChunkSize + min chunkIndex numLongChunks
  return (start, start + shortChunkSize + if chunkIndex < numLongChunks then 1 else 0)

variable (utils : ChunkUtils)

def chunkValueFromElementValue (elementValue : Nat) : Except UpdaterError Nat := do
  let elementIndex ← listIndex utils.elementValues elementValue
  let chunkIndex ← chunkIndexFromElementIndex utils.elementValues.length utils.chunkValues.length elementIndex
  match utils.chunkValues[chunkIndex]? with
  | some chunkValue => return chunkValue
  | none => .error .indexError

def elementValuesFromChunkValue (chunkValue : Nat) : Except UpdaterError (List Nat) :=
  if utils.elementValues.length = 0 then .ok []
  else do
    let chunkIndex ← listIndex utils.chunkValues chunkValue
    let (start, stop) ← elementSliceFromChunkIndex utils.elementValues.length utils.chunkValues.length chunkIndex
    return (utils.elementValues.drop start).take (stop - start)

end ChunkUtils

/-- `_deduplicate_ordered`. -/
def deduplicateOrdered (arr : List Nat) : List Nat :=
  arr.foldl (fun output item => if output.getLast? = some item then output else output ++ [item]) []

/-- The arguments all ranks share: the layouts before and after, of one physical expert for each local
slot of each rank. -/
structure ExpertLayouts where
  worldSize : Nat
  numGpuPerNode : Nat
  numLocalPhysicalExperts : Nat
  numTensors : Nat
  oldPhysicalToLogicalMap : List Int
  newPhysicalToLogicalMap : List Int
  oldLength : oldPhysicalToLogicalMap.length = worldSize * numLocalPhysicalExperts
  newLength : newPhysicalToLogicalMap.length = worldSize * numLocalPhysicalExperts
  numGpuPerNode_pos : 0 < numGpuPerNode

inductive P2PKind where
  | isend | irecv
  deriving DecidableEq, Repr

/-- A `P2POp` on the row of one local expert in one tensor: of the weights for a send, of the temporary
buffers for a receive. -/
structure P2POp where
  kind : P2PKind
  tensorIndex : Nat
  localLocation : Nat
  peer : Nat
  deriving DecidableEq, Repr

/-- Tensors by index, their rows by local expert location. -/
abbrev ExpertTensors (W : Type) := Nat → Nat → W

/-- The cases of `_handle_recv_of_dst_expert_location`. -/
inductive RecvCase where
  | unchanged
  | sameGpu (srcExpertLocation : Nat)
  | freeRider (srcExpertLocation : Nat)
  | fromRank (chosenSrcRank : Nat)
  deriving DecidableEq, Repr

/-- The result of `_compute_comm_info`. -/
structure CommInfo where
  sameNodeMapping : ChunkUtils
  crossNodeMapping : ChunkUtils
  needCommSelfNodeDstRanks : List Nat

/-- What a rank gathers before it communicates. -/
structure RankPlan (W : Type) where
  tempBuffers : ExpertTensors W
  buffer2weightCopyInfos : List (Nat × Nat)
  p2pOpInfos : List (Int × List P2POp)

namespace ExpertLayouts

variable (layouts : ExpertLayouts)

def numPhysicalExperts : Nat := layouts.oldPhysicalToLogicalMap.length

/-- `old_physical_to_logical_map[x]`. -/
def old (x : Nat) : Int := layouts.oldPhysicalToLogicalMap.getD x 0

/-- `new_physical_to_logical_map[x]`. -/
def new (x : Nat) : Int := layouts.newPhysicalToLogicalMap.getD x 0

/-- `range(*local_expert_location_range)`. -/
def localRange (rank : Nat) : List Nat :=
  List.range' (rank * layouts.numLocalPhysicalExperts) layouts.numLocalPhysicalExperts

/-- `_get_local_expert_location`. -/
def localExpertLocation (rank expertLocation : Nat) : Except UpdaterError Nat :=
  if rank * layouts.numLocalPhysicalExperts ≤ expertLocation ∧
      expertLocation < (rank + 1) * layouts.numLocalPhysicalExperts then
    .ok (expertLocation % layouts.numLocalPhysicalExperts)
  else .error .assertionError

def node (rank : Nat) : Nat := rank / layouts.numGpuPerNode

def allSrcRanks (logicalExpertId : Int) : List Nat :=
  deduplicateOrdered (((List.range layouts.numPhysicalExperts).filter fun x =>
    layouts.old x = logicalExpertId).map (· / layouts.numLocalPhysicalExperts))

def needCommDstRanks (logicalExpertId : Int) : List Nat :=
  deduplicateOrdered (((List.range layouts.numPhysicalExperts).filter fun x =>
    layouts.new x = logicalExpertId ∧
      x / layouts.numLocalPhysicalExperts ∉ layouts.allSrcRanks logicalExpertId).map
    (· / layouts.numLocalPhysicalExperts))

/-- `_compute_comm_info` on `rank`. -/
def computeCommInfo (rank : Nat) (logicalExpertId : Int) : CommInfo :=
  let allSrcRanks := layouts.allSrcRanks logicalExpertId
  let allSrcNodes := allSrcRanks.map layouts.node
  let selfNodeSrcRanks := allSrcRanks.filter fun x => layouts.node x = layouts.node rank
  let needCommDstRanks := layouts.needCommDstRanks logicalExpertId
  let needCommSelfNodeDstRanks := if 0 < selfNodeSrcRanks.length then
    needCommDstRanks.filter fun x => layouts.node x = layouts.node rank else []
  let needCommCrossNodeDstRanks := needCommDstRanks.filter fun x => layouts.node x ∉ allSrcNodes
  ⟨⟨selfNodeSrcRanks, needCommSelfNodeDstRanks⟩, ⟨allSrcRanks, needCommCrossNodeDstRanks⟩,
    needCommSelfNodeDstRanks⟩

/-- `chosen_src_rank` of the cases same-node and cross-node. -/
def chosenSrcRank (rank : Nat) (logicalExpertId : Int) : Except UpdaterError Nat :=
  let info := layouts.computeCommInfo rank logicalExpertId
  if rank ∈ info.needCommSelfNodeDstRanks then info.sameNodeMapping.chunkValueFromElementValue rank
  else info.crossNodeMapping.chunkValueFromElementValue rank

/-- `all_dst_ranks` of the sends of an expert. -/
def allDstRanks (rank : Nat) (logicalExpertId : Int) : Except UpdaterError (List Nat) := do
  let info := layouts.computeCommInfo rank logicalExpertId
  let sameNodeDstRanks ← info.sameNodeMapping.elementValuesFromChunkValue rank
  let crossNodeDstRanks ← info.crossNodeMapping.elementValuesFromChunkValue rank
  return sameNodeDstRanks ++ crossNodeDstRanks

/-- Which case applies to a destination. -/
def recvCase (rank dstExpertLocation : Nat) : Except UpdaterError RecvCase :=
  let logicalExpertId := layouts.new dstExpertLocation
  if layouts.old dstExpertLocation = logicalExpertId then .ok .unchanged
  else
    match (layouts.localRange rank).find? fun src => layouts.old src = logicalExpertId with
    | some src => .ok (.sameGpu src)
    | none =>
      match (List.range' (rank * layouts.numLocalPhysicalExperts)
          (dstExpertLocation - rank * layouts.numLocalPhysicalExperts)).find? fun src =>
            layouts.new src = logicalExpertId with
      | some src => .ok (.freeRider src)
      | none => do return .fromRank (← layouts.chosenSrcRank rank logicalExpertId)

variable {W : Type}

/-- `dst[i][dstLocation].copy_(src[i][srcLocation])` for each tensor. -/
def copyRows (dst : ExpertTensors W) (dstLocation : Nat) (src : ExpertTensors W) (srcLocation : Nat) :
    ExpertTensors W := fun i location =>
  if i < layouts.numTensors ∧ location = dstLocation then src i srcLocation else dst i location

/-- `_handle_recv_of_dst_expert_location`. -/
def handleRecvOfDstExpertLocation (rank : Nat) (weights : ExpertTensors W) (plan : RankPlan W)
    (dstExpertLocation : Nat) : Except UpdaterError (RankPlan W) := do
  match ← layouts.recvCase rank dstExpertLocation with
  | .unchanged => return plan
  | .sameGpu src =>
    let dstLocation ← layouts.localExpertLocation rank dstExpertLocation
    let srcLocation ← layouts.localExpertLocation rank src
    return { plan with
      tempBuffers := layouts.copyRows plan.tempBuffers dstLocation weights srcLocation
      buffer2weightCopyInfos := plan.buffer2weightCopyInfos ++ [(dstExpertLocation, dstExpertLocation)] }
  | .freeRider src =>
    return { plan with buffer2weightCopyInfos := plan.buffer2weightCopyInfos ++ [(src, dstExpertLocation)] }
  | .fromRank chosenSrcRank =>
    let dstLocation ← layouts.localExpertLocation rank dstExpertLocation
    return { plan with
      p2pOpInfos := plan.p2pOpInfos ++ [(layouts.new dstExpertLocation,
        (List.range layouts.numTensors).map fun i => ⟨.irecv, i, dstLocation, chosenSrcRank⟩)]
      buffer2weightCopyInfos := plan.buffer2weightCopyInfos ++ [(dstExpertLocation, dstExpertLocation)] }

/-- `_create_isend_ops_of_logical_expert_id`: the info it appends. -/
def createIsendOpsOfLogicalExpertId (rank : Nat) (logicalExpertId : Int) (srcExpertLocation : Nat) :
    Except UpdaterError (Int × List P2POp) := do
  let allDstRanks ← layouts.allDstRanks rank logicalExpertId
  let srcLocation ← layouts.localExpertLocation rank srcExpertLocation
  return (logicalExpertId, allDstRanks.flatMap fun dstRank =>
    (List.range layouts.numTensors).map fun i => ⟨.isend, i, srcLocation, dstRank⟩)

/-- The loop of `_create_isend_ops` over the source locations. -/
def createIsendOps (rank : Nat) : List Nat → List Int → List (Int × List P2POp) →
    Except UpdaterError (List (Int × List P2POp))
  | [], _, infos => .ok infos
  | src :: srcs, handledLogicalExpertIds, infos =>
    let logicalExpertId := layouts.old src
    if logicalExpertId ∈ handledLogicalExpertIds then
      createIsendOps rank srcs handledLogicalExpertIds infos
    else do
      let info ← layouts.createIsendOpsOfLogicalExpertId rank logicalExpertId src
      createIsendOps rank srcs (logicalExpertId :: handledLogicalExpertIds) (infos ++ [info])

/-- `_handle_recv` and `_create_isend_ops`. -/
def preparePlan (rank : Nat) (weights tempBuffers : ExpertTensors W) : Except UpdaterError (RankPlan W) := do
  let plan ← (layouts.localRange rank).foldlM (layouts.handleRecvOfDstExpertLocation rank weights)
    ⟨tempBuffers, [], []⟩
  let infos ← layouts.createIsendOps rank (layouts.localRange rank) [] plan.p2pOpInfos
  return { plan with p2pOpInfos := infos }

/-- `_execute_buffer2weight_copies`. -/
def executeBuffer2weightCopies (rank : Nat) (tempBuffers : ExpertTensors W) :
    List (Nat × Nat) → ExpertTensors W → Except UpdaterError (ExpertTensors W)
  | [], weights => .ok weights
  | (tempLocation, weightsLocation) :: infos, weights => do
    let dstLocation ← layouts.localExpertLocation rank weightsLocation
    let srcLocation ← layouts.localExpertLocation rank tempLocation
    executeBuffer2weightCopies rank tempBuffers infos
      (layouts.copyRows weights dstLocation tempBuffers srcLocation)

end ExpertLayouts

/-- `p2p_ops`, each with the logical expert it was sorted by. -/
def sortedOps (infos : List (Int × List P2POp)) : List (Int × P2POp) :=
  (infos.mergeSort fun a b => decide (a.1 ≤ b.1)).flatMap fun info => info.2.map fun op => (info.1, op)

/-- The operations of one kind with one peer, in the order posted. -/
def opsWith (kind : P2PKind) (peer : Nat) (ops : List (Int × P2POp)) : List (Int × P2POp) :=
  ops.filter fun op => op.2.kind = kind ∧ op.2.peer = peer

/-- `batch_isend_irecv` ends on every rank: between two ranks there are as many sends as receives. -/
def BatchEnds (worldSize : Nat) (ops : Nat → List (Int × P2POp)) : Prop :=
  ∀ a < worldSize, (∀ op ∈ ops a, op.2.peer < worldSize) ∧ ∀ b < worldSize,
    (opsWith .isend b (ops a)).length = (opsWith .irecv a (ops b)).length

instance (worldSize : Nat) (ops : Nat → List (Int × P2POp)) : Decidable (BatchEnds worldSize ops) := by
  unfold BatchEnds
  infer_instance

/-- What `rank` receives from `peer`: its k-th receive gets the row of the peer's k-th send. -/
def receivedFrom {W : Type} (weights : Nat → ExpertTensors W) (ops : Nat → List (Int × P2POp))
    (rank peer : Nat) : List (P2POp × W) :=
  List.zipWith (fun recv send => (recv.2, weights peer send.2.tensorIndex send.2.localLocation))
    (opsWith .irecv peer (ops rank)) (opsWith .isend rank (ops peer))

/-- The temporary buffers of `rank` after the batch. -/
def afterBatch {W : Type} (worldSize : Nat) (weights : Nat → ExpertTensors W)
    (ops : Nat → List (Int × P2POp)) (rank : Nat) (tempBuffers : ExpertTensors W) : ExpertTensors W :=
  ((List.range worldSize).flatMap (receivedFrom weights ops rank)).foldl
    (fun buffers recv i location =>
      if i = recv.1.tensorIndex ∧ location = recv.1.localLocation then recv.2 else buffers i location)
    tempBuffers

/-- The operations each rank posts. -/
def postedOps {W : Type} (plans : List (RankPlan W)) (rank : Nat) : List (Int × P2POp) :=
  ((plans[rank]?).map fun plan => sortedOps plan.p2pOpInfos).getD []

namespace ExpertLayouts

variable (layouts : ExpertLayouts) {W : Type}

/-- The plans of all ranks. -/
def preparePlans (weights tempBuffers : Nat → ExpertTensors W) : Except UpdaterError (List (RankPlan W)) :=
  (List.range layouts.worldSize).mapM fun rank => layouts.preparePlan rank (weights rank) (tempBuffers rank)

/-- `update_expert_weights_single_layer` on all ranks: their weights afterwards, or `none` when a rank
waits for an operation without a counterpart. -/
def updateExpertWeightsSingleLayer (weights tempBuffers : Nat → ExpertTensors W) :
    Except UpdaterError (Option (List (ExpertTensors W))) := do
  let plans ← layouts.preparePlans weights tempBuffers
  let ops := postedOps plans
  if BatchEnds layouts.worldSize ops then
    let after ← plans.zipIdx.mapM fun (plan, rank) =>
      layouts.executeBuffer2weightCopies rank (afterBatch layouts.worldSize weights ops rank plan.tempBuffers)
        plan.buffer2weightCopyInfos (weights rank)
    return some after
  else return none

end ExpertLayouts

end QCFuse.Source
