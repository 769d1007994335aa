import Mathlib
import QCFuse.Source.ExpertBalancer

/-!
# `ExpertLocationMetadata` and the dispatch

The maps of every layer, how they are made from a mapping or by the balancer, and how a logical expert
becomes a physical one. The maps of the ranks are equal but for their row of the dispatch map, so one
record stands for all of them; the copies on the CPU are left out.
-/

set_option autoImplicit false

namespace QCFuse.Source

/-- What `random.Random` is used for. -/
structure PyRandom (R : Type) where
  /-- `random.Random(seed)`. -/
  start : R
  sample : List Int → Nat → R → List Int × R
  shuffle : List Int → R → List Int × R
  sample_length : ∀ arr k r, k ≤ arr.length → (sample arr k r).1.length = k
  sample_subperm : ∀ arr k r, k ≤ arr.length → (sample arr k r).1.Subperm arr
  shuffle_perm : ∀ arr r, (shuffle arr r).1.Perm arr

inductive EpDispatchAlgorithm where
  | static | dynamic | fake
  deriving DecidableEq, Repr

inductive EplbAlgorithm where
  | deepseek | deepseekHierarchical | elasticityAware
  deriving DecidableEq, Repr

/-- The arguments of the server and of the model that the expert location depends on; `eplbAlgorithm` is
`none` for `auto`. -/
structure EpArgs where
  epSize : Nat
  nnodes : Nat
  epNumRedundantExperts : Nat
  epDispatchAlgorithm : Option EpDispatchAlgorithm
  eplbAlgorithm : Option EplbAlgorithm
  numLayers : Nat
  numLogicalExperts : Nat
  numGroups : Option Nat

/-- Rows by layer; a row of the dispatch map has a place for each logical expert and rank. -/
structure ExpertLocationMetadata where
  physicalToLogicalMap : List (List Nat)
  logicalToAllPhysicalMap : List (List (List Int))
  logicalToAllPhysicalMapNumValid : List (List Nat)
  logicalToRankDispatchPhysicalMap : Option (List (List (List Int)))

/-! ## The static dispatch -/

/-- `_fair_choices`. -/
def fairChoices {R : Type} (random : PyRandom R) (arr : List Int) (k : Nat) (r : R) :
    Except UpdaterError (List Int × R) := do
  let (quotient, remainder) ← divmod k arr.length
  let (sampled, r) := random.sample arr remainder r
  return random.shuffle ((List.replicate quotient arr).flatten ++ sampled) r

/-- The candidates in block `id` when the physical experts are cut into blocks of `size`. -/
def candidatesOf (candidates : List Int) (size id : Nat) : Except UpdaterError (List Int) :=
  if size = 0 ∧ candidates ≠ [] then .error .zeroDivisionError
  else .ok (candidates.filter fun p => p / size = id)

/-- The choice for one GPU before the random ones: same GPU, then same node, else -1. -/
def localChoice (numLocalGpu numGpusPerNode : Nat) (candidates : List Int) (gpuId : Nat) :
    Except UpdaterError Int := do
  let sameGpu ← candidatesOf candidates numLocalGpu gpuId
  match sameGpu with
  | p :: _ => return p
  | [] =>
    let (nodeId, _) ← divmod gpuId numGpusPerNode
    let sameNode ← candidatesOf candidates (numLocalGpu * numGpusPerNode) nodeId
    return sameNode.headD (-1)

/-- `output_partial[output_partial == -1] = choices`. -/
def fillRemaining : List Int → List Int → List Int
  | [], _ => []
  | p :: output, choices =>
    if p = -1 then choices.headD p :: fillRemaining output choices.tail else p :: fillRemaining output choices

/-- `_logical_to_all_physical_raw` on a row. -/
def logicalToAllPhysicalRaw (row : List Int) : List Int := row.filter fun p => p ≠ -1

/-- The choices of all ranks for one logical expert. -/
def dispatchExpert {R : Type} (random : PyRandom R) (numGpus numLocalGpu numGpusPerNode : Nat) (row : List Int) :
    StateT R (Except UpdaterError) (List Int) := fun r => do
  let candidates := logicalToAllPhysicalRaw row
  let output ← (List.range numGpus).mapM (localChoice numLocalGpu numGpusPerNode candidates)
  let (choices, r) ← fairChoices random candidates (output.count (-1)) r
  return (fillRemaining output choices, r)

/-- `compute_logical_to_rank_dispatch_physical_map`. -/
def computeLogicalToRankDispatchPhysicalMap {R : Type} (random : PyRandom R) (args : EpArgs)
    (numPhysicalExperts : Nat) (logicalToAllPhysicalMap : List (List (List Int))) :
    Except UpdaterError (List (List (List Int))) := do
  let (numLocalGpu, _) ← divmod numPhysicalExperts args.epSize
  let (numGpusPerNode, _) ← divmod args.epSize args.nnodes
  let (map, _) ← (logicalToAllPhysicalMap.mapM fun (layer : List (List Int)) =>
    layer.mapM (dispatchExpert random args.epSize numLocalGpu numGpusPerNode)).run random.start
  if ∀ layer ∈ map, ∀ row ∈ layer, ∀ p ∈ row, p ≠ -1 then return map else .error .assertionError

/-! ## Construction -/

/-- `_init_raw`. -/
def initRaw {R : Type} (random : PyRandom R) (args : EpArgs) (physicalToLogicalMap : List (List Nat))
    (logicalToAllPhysicalMap : List (List (List Int))) : Except UpdaterError ExpertLocationMetadata := do
  let numPhysicalExperts := (physicalToLogicalMap.head?.map List.length).getD 0
  let dispatch ← if args.epDispatchAlgorithm = some .static then
      some <$> computeLogicalToRankDispatchPhysicalMap random args numPhysicalExperts logicalToAllPhysicalMap
    else pure none
  return {
    physicalToLogicalMap := physicalToLogicalMap
    logicalToAllPhysicalMap := logicalToAllPhysicalMap.map fun layer => layer.map fun row =>
      row ++ List.replicate (numPhysicalExperts - row.length) (-1)
    logicalToAllPhysicalMapNumValid := logicalToAllPhysicalMap.map fun layer => layer.map fun row =>
      row.countP fun p => p ≠ -1
    logicalToRankDispatchPhysicalMap := dispatch }

/-- `_init_common`: `num_physical_experts` and `num_local_physical_experts`. -/
def initCommon (args : EpArgs) : Except UpdaterError (Nat × Nat) := do
  let numPhysicalExperts := args.numLogicalExperts + args.epNumRedundantExperts
  let (numLocalPhysicalExperts, remainder) ← divmod numPhysicalExperts args.epSize
  if remainder = 0 then return (numPhysicalExperts, numLocalPhysicalExperts) else .error .assertionError

/-- The loop of `_compute_logical_to_all_physical_map` over a layer. -/
def appendPhysical : List Nat → Nat → List (List Int) → Except UpdaterError (List (List Int))
  | [], _, map => .ok map
  | logicalExpertId :: rest, physicalExpertId, map =>
    match map[logicalExpertId]? with
    | none => .error .indexError
    | some row =>
      appendPhysical rest (physicalExpertId + 1) (map.set logicalExpertId (row ++ [(physicalExpertId : Int)]))

/-- `_compute_logical_to_all_physical_map`, with `_pad_nested_array`. -/
def computeLogicalToAllPhysicalMap (numLogicalExperts : Nat) (physicalToLogicalMap : List (List Nat)) :
    Except UpdaterError (List (List (List Int))) := do
  let arr ← physicalToLogicalMap.mapM fun layer => appendPhysical layer 0 (List.replicate numLogicalExperts [])
  match (arr.flatMap fun outer => outer.map List.length).max? with
  | none => .error .valueError
  | some maxLen => return arr.map fun outer => outer.map fun inner =>
      inner ++ List.replicate (maxLen - inner.length) (-1)

/-- `init_by_mapping`. -/
def initByMapping {R : Type} (random : PyRandom R) (args : EpArgs) (physicalToLogicalMap : List (List Nat)) :
    Except UpdaterError ExpertLocationMetadata := do
  let _ ← initCommon args
  let logicalToAllPhysicalMap ← computeLogicalToAllPhysicalMap args.numLogicalExperts physicalToLogicalMap
  initRaw random args physicalToLogicalMap logicalToAllPhysicalMap

/-- `init_trivial`. -/
def initTrivial {R : Type} (random : PyRandom R) (args : EpArgs) : Except UpdaterError ExpertLocationMetadata := do
  let (numPhysicalExperts, _) ← initCommon args
  initByMapping random args
    (List.replicate args.numLayers ((List.range numPhysicalExperts).map fun p => p % args.numLogicalExperts))

/-- `compute_algorithm`. -/
def computeAlgorithm (args : EpArgs) : EplbAlgorithm :=
  match args.eplbAlgorithm with
  | some algorithm => algorithm
  | none =>
    match args.numGroups with
    | some numGroups => if numGroups % args.nnodes = 0 then .deepseekHierarchical else .deepseek
    | none => .deepseek

/-- `rebalance_experts` of `eplb_algorithms`; `activeRanks` is the state of the elastic ranks. -/
def rebalanceByAlgorithm (sort : DescendingSort) (args : EpArgs) (tokensPerExpert : List (Nat → Rat))
    (numPhysicalExperts numLocalPhysicalExperts : Nat) (activeRanks : List Bool) :
    Except UpdaterError ExpertMaps := do
  let (numGpus, _) ← divmod numPhysicalExperts numLocalPhysicalExperts
  match computeAlgorithm args with
  | .deepseek =>
    rebalanceExperts sort args.numLogicalExperts tokensPerExpert numPhysicalExperts (args.numGroups.getD 0)
      args.nnodes numGpus false
  | .deepseekHierarchical =>
    rebalanceExperts sort args.numLogicalExperts tokensPerExpert numPhysicalExperts (args.numGroups.getD 0)
      args.nnodes numGpus true
  | .elasticityAware =>
    rebalanceExpertsElastic sort args.numLogicalExperts tokensPerExpert numPhysicalExperts (args.numGroups.getD 0)
      args.nnodes numGpus true activeRanks

/-- `init_by_eplb`, on the counts that are already summed over the window. -/
def initByEplb {R : Type} (sort : DescendingSort) (random : PyRandom R) (args : EpArgs) (activeRanks : List Bool)
    (logicalCount : List (Nat → Rat)) : Except UpdaterError ExpertLocationMetadata := do
  let (numPhysicalExperts, numLocalPhysicalExperts) ← initCommon args
  let maps ← rebalanceByAlgorithm sort args logicalCount numPhysicalExperts numLocalPhysicalExperts activeRanks
  initRaw random args maps.physicalToLogicalMap maps.logicalToPhysicalMap

/-! ## Mutation -/

/-- `torch.where(mask_update, other_field, self_field)`. -/
def whereUpdated {α : Type} (updateLayerIds : List Nat) (other self : List α) : List α :=
  List.zipWith (fun (row, layerId) otherRow => if layerId ∈ updateLayerIds then otherRow else row) self.zipIdx other

/-- `ExpertLocationMetadata.update`. -/
def ExpertLocationMetadata.update (self other : ExpertLocationMetadata) (updateLayerIds : List Nat) :
    Except UpdaterError ExpertLocationMetadata := do
  let dispatch ← match self.logicalToRankDispatchPhysicalMap, other.logicalToRankDispatchPhysicalMap with
    | some selfField, some otherField => pure (some (whereUpdated updateLayerIds otherField selfField))
    | none, none => pure none
    | _, _ => .error .assertionError
  return {
    physicalToLogicalMap := whereUpdated updateLayerIds other.physicalToLogicalMap self.physicalToLogicalMap
    logicalToAllPhysicalMap := whereUpdated updateLayerIds other.logicalToAllPhysicalMap self.logicalToAllPhysicalMap
    logicalToAllPhysicalMapNumValid :=
      whereUpdated updateLayerIds other.logicalToAllPhysicalMapNumValid self.logicalToAllPhysicalMapNumValid
    logicalToRankDispatchPhysicalMap := dispatch }

/-! ## `topk_ids_logical_to_physical` -/

/-- `xs[i]`. -/
def getIndex {α : Type} (xs : List α) (i : Nat) : Except UpdaterError α :=
  match xs[i]? with
  | some x => .ok x
  | none => .error .indexError

/-- The physical expert of a logical one on a rank; `randint` is the drawn number. -/
def topkIdLogicalToPhysical (metadata : ExpertLocationMetadata) (algorithm : Option EpDispatchAlgorithm)
    (layerId rank topkId randint : Nat) : Except UpdaterError Int :=
  match algorithm with
  | none => .ok topkId
  | some .static => do
    match metadata.logicalToRankDispatchPhysicalMap with
    -- indexing `None` raises as well
    | none => .error .indexError
    | some map => getIndex (← getIndex (← getIndex map layerId) topkId) rank
  | some .dynamic | some .fake => do
    let numValid ← getIndex (← getIndex metadata.logicalToAllPhysicalMapNumValid layerId) topkId
    let (_, chosenDispatchIndex) ← divmod randint numValid
    getIndex (← getIndex (← getIndex metadata.logicalToAllPhysicalMap layerId) topkId) chosenDispatchIndex

end QCFuse.Source
