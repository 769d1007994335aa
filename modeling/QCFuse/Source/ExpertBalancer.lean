import Mathlib
import QCFuse.Source.ExpertLocationUpdater

/-!
# Balancing experts

`balanced_packing`, `replicate_experts`, `rebalance_experts_hierarchical` and the two `rebalance_experts`
on it. A row of a tensor is a function of its index; where nothing was stored `inverse` holds 0. The loads
are exact numbers, and what `torch.sort` does with equal ones is a parameter.
-/

set_option autoImplicit false

namespace QCFuse.Source

/-- The indices of `sort(-1, descending=True)` on a row of a given length. -/
structure DescendingSort where
  indices : (length : Nat) → (Nat → Rat) → List Nat
  perm : ∀ length row, (indices length row).Perm (List.range length)
  descending : ∀ length row, (indices length row).Pairwise fun i j => row j ≤ row i

def divisible (a b : Nat) : Except UpdaterError Nat := do
  let (quotient, remainder) ← divmod a b
  if remainder = 0 then return quotient else .error .assertionError

/-! ## `balanced_packing` -/

/-- The pack of each item and its rank in there, with the loop's tables of the packs. -/
structure Packing where
  packIndex : Nat → Int
  rankInPack : Nat → Int
  packWeights : Nat → Rat
  packItems : Nat → Nat

def Packing.put (packing : Packing) (group pack : Nat) (weight : Rat) : Packing where
  packIndex := Function.update packing.packIndex group pack
  rankInPack := Function.update packing.rankInPack group (packing.packItems pack)
  packWeights := Function.update packing.packWeights pack (packing.packWeights pack + weight)
  packItems := Function.update packing.packItems pack (packing.packItems pack + 1)

@[simp] theorem Packing.put_packIndex (packing : Packing) (group pack : Nat) (weight : Rat) :
    (packing.put group pack weight).packIndex = Function.update packing.packIndex group pack := rfl

@[simp] theorem Packing.put_rankInPack (packing : Packing) (group pack : Nat) (weight : Rat) :
    (packing.put group pack weight).rankInPack =
      Function.update packing.rankInPack group (packing.packItems pack) := rfl

@[simp] theorem Packing.put_packItems (packing : Packing) (group pack : Nat) (weight : Rat) :
    (packing.put group pack weight).packItems =
      Function.update packing.packItems pack (packing.packItems pack + 1) := rfl

/-- One turn of the loop: the lightest of the packs with room takes the item. -/
def packGroup (weight : Nat → Rat) (numPacks groupsPerPack : Nat) (packing : Packing) (group : Nat) :
    Except UpdaterError Packing :=
  match ((List.range numPacks).filter fun i => packing.packItems i < groupsPerPack).argmin packing.packWeights with
  | none => .error .valueError
  | some pack => .ok (packing.put group pack (weight group))

/-- `balanced_packing` on one row. -/
def balancedPacking (sort : DescendingSort) (numGroups : Nat) (weight : Nat → Rat) (numPacks : Nat) :
    Except UpdaterError Packing := do
  let groupsPerPack ← divisible numGroups numPacks
  if groupsPerPack = 1 then return ⟨fun group => group, fun _ => 0, fun _ => 0, fun _ => 0⟩
  else
    (sort.indices numGroups weight).foldlM (packGroup weight numPacks groupsPerPack)
      ⟨fun _ => -1, fun _ => -1, fun _ => 0, fun _ => 0⟩

/-! ## `replicate_experts` -/

structure Replicas where
  phy2log : Nat → Nat
  rank : Nat → Nat
  logcnt : Nat → Nat

def Replicas.add (replicas : Replicas) (i redundant : Nat) : Replicas where
  phy2log := Function.update replicas.phy2log i redundant
  rank := Function.update replicas.rank i (replicas.logcnt redundant)
  logcnt := Function.update replicas.logcnt redundant (replicas.logcnt redundant + 1)

@[simp] theorem Replicas.add_phy2log (replicas : Replicas) (i redundant : Nat) :
    (replicas.add i redundant).phy2log = Function.update replicas.phy2log i redundant := rfl

@[simp] theorem Replicas.add_rank (replicas : Replicas) (i redundant : Nat) :
    (replicas.add i redundant).rank = Function.update replicas.rank i (replicas.logcnt redundant) := rfl

@[simp] theorem Replicas.add_logcnt (replicas : Replicas) (i redundant : Nat) : (replicas.add i redundant).logcnt =
    Function.update replicas.logcnt redundant (replicas.logcnt redundant + 1) := rfl

/-- One turn of the loop: physical expert `i` goes to the first logical one of the highest load. -/
def addReplica (numLog : Nat) (weight : Nat → Rat) (replicas : Replicas) (i : Nat) :
    Except UpdaterError Replicas :=
  match (List.range numLog).argmax fun e => weight e / replicas.logcnt e with
  | none => .error .indexError
  | some redundant => .ok (replicas.add i redundant)

/-- `replicate_experts` on one row. -/
def replicateExperts (numLog : Nat) (weight : Nat → Rat) (numPhy : Nat) : Except UpdaterError Replicas :=
  if numPhy < numLog then .error .assertionError
  else
    (List.range' numLog (numPhy - numLog)).foldlM (addReplica numLog weight) ⟨fun i => i, fun _ => 0, fun _ => 1⟩

/-! ## `rebalance_experts_hierarchical` -/

/-- `inverse` on one row: `inv[perm[j]] = j` for each `j` in turn. -/
def inversePerm (length : Nat) (perm : Nat → Nat) : Nat → Nat :=
  (List.range length).foldl (fun inv j => Function.update inv (perm j) j) fun _ => 0

/-- Steps 2 and 3 on one node, with what each physical expert has in its place on the GPUs. -/
def balanceNode (sort : DescendingSort) (numLog : Nat) (tokensPerMlog : Nat → Rat)
    (numPhy numGpus phyExpertsPerGpu : Nat) : Except UpdaterError Replicas := do
  let replicas ← replicateExperts numLog tokensPerMlog numPhy
  let tokensPerPhy : Nat → Rat := fun p => tokensPerMlog (replicas.phy2log p) / replicas.logcnt (replicas.phy2log p)
  let packing ← balancedPacking sort numPhy tokensPerPhy numGpus
  let phy2pphy : Nat → Nat := fun p => (packing.packIndex p * phyExpertsPerGpu + packing.rankInPack p).toNat
  let pphy2phy := inversePerm numPhy phy2pphy
  return { replicas with
    phy2log := fun p => replicas.phy2log (pphy2phy p)
    rank := fun p => replicas.rank (pphy2phy p) }

/-- `log2mlog`: the places of the experts when the groups of a node are next to each other. -/
def log2mlog (groupSize groupsPerNode : Nat) (packing : Packing) (e : Nat) : Nat :=
  ((packing.packIndex (e / groupSize) * groupsPerNode + packing.rankInPack (e / groupSize)) * groupSize).toNat +
    e % groupSize

/-- The experts of all nodes, under their logical ids. -/
def joinNodes (log2mlog mlog2log : Nat → Nat) (logPerNode phyPerNode : Nat) (node : Nat → Replicas) : Replicas where
  phy2log p := mlog2log ((node (p / phyPerNode)).phy2log (p % phyPerNode) + p / phyPerNode * logPerNode)
  rank p := (node (p / phyPerNode)).rank (p % phyPerNode)
  logcnt e := (node (log2mlog e / logPerNode)).logcnt (log2mlog e % logPerNode)

/-- `rebalance_experts_hierarchical` on one layer: `pphy2log`, `pphyrank` and `logcnt`. -/
def rebalanceExpertsHierarchical (sort : DescendingSort) (numLogicalExperts : Nat) (weight : Nat → Rat)
    (numPhysicalExperts numGroups numNodes numGpus : Nat) : Except UpdaterError Replicas := do
  let groupSize ← divisible numLogicalExperts numGroups
  let groupsPerNode ← divisible numGroups numNodes
  let gpusPerNode ← divisible numGpus numNodes
  let phyExpertsPerGpu ← divisible numPhysicalExperts numGpus
  let tokensPerGroup : Nat → Rat := fun group =>
    ((List.range groupSize).map fun i => weight (group * groupSize + i)).sum
  let groupPacking ← balancedPacking sort numGroups tokensPerGroup numNodes
  let log2mlog := log2mlog groupSize groupsPerNode groupPacking
  let mlog2log := inversePerm numLogicalExperts log2mlog
  let logPerNode := numLogicalExperts / numNodes
  let phyPerNode := numPhysicalExperts / numNodes
  let nodes ← (List.range numNodes).mapM fun node =>
    balanceNode sort logPerNode (fun m => weight (mlog2log (node * logPerNode + m))) phyPerNode gpusPerNode
      phyExpertsPerGpu
  return joinNodes log2mlog mlog2log logPerNode phyPerNode fun i =>
    nodes.getD i ⟨fun _ => 0, fun _ => 0, fun _ => 0⟩

/-! ## `rebalance_experts` -/

/-- What `rebalance_experts` returns, a row for each layer. -/
structure ExpertMaps where
  physicalToLogicalMap : List (List Nat)
  logicalToPhysicalMap : List (List (List Int))
  logicalCount : List (List Nat)

/-- `log2phy` on one layer: -1 everywhere, then the scatter of the physical experts. -/
def scatterReplicas (numLogicalExperts maxlogcnt numPhy : Nat) (replicas : Replicas) : List (List Int) :=
  let log2phy : Nat → Int := (List.range numPhy).foldl
    (fun log2phy p => Function.update log2phy (replicas.phy2log p * maxlogcnt + replicas.rank p) p) fun _ => -1
  (List.range numLogicalExperts).map fun e => (List.range maxlogcnt).map fun k => log2phy (e * maxlogcnt + k)

/-- What both `rebalance_experts` do with the replicas of the layers. -/
def expertMaps (numLogicalExperts numPhy : Nat) (layers : List Replicas) : Except UpdaterError ExpertMaps :=
  match (layers.flatMap fun replicas => (List.range numLogicalExperts).map replicas.logcnt).max? with
  | none => .error .valueError
  | some maxlogcnt => .ok {
      physicalToLogicalMap := layers.map fun replicas => (List.range numPhy).map replicas.phy2log
      logicalToPhysicalMap := layers.map (scatterReplicas numLogicalExperts maxlogcnt numPhy)
      logicalCount := layers.map fun replicas => (List.range numLogicalExperts).map replicas.logcnt }

/-- `rebalance_experts` of `deepseek`. -/
def rebalanceExperts (sort : DescendingSort) (numLogicalExperts : Nat) (weight : List (Nat → Rat))
    (numReplicas numGroups numNodes numGpus : Nat) (enableHierarchical : Bool) : Except UpdaterError ExpertMaps := do
  let layers ← weight.mapM fun row =>
    if enableHierarchical then
      rebalanceExpertsHierarchical sort numLogicalExperts row numReplicas numGroups numNodes numGpus
    else rebalanceExpertsHierarchical sort numLogicalExperts row numReplicas 1 1 numGpus
  expertMaps numLogicalExperts numReplicas layers

/-- One layer with a slice for each active rank: rank `idx` is not active. -/
def insertRank (numLocalExperts : Nat) (layer : List (List Nat) × List (List Int)) (idx : Nat) :
    List (List Nat) × List (List Int) :=
  (layer.1.take idx ++ [List.replicate numLocalExperts 0] ++ layer.1.drop idx,
    layer.2.map fun row => row.map fun p =>
      if ((idx * numLocalExperts : Nat) : Int) ≤ p then p + numLocalExperts else p)

/-- The indices of the ranks that are not active. -/
def failedRanks (activeRanks : List Bool) : List Nat :=
  (List.range activeRanks.length).filter fun idx => activeRanks[idx]? = some false

/-- The maps with slots for the ranks that are not active. -/
def widenMaps (activeRanks : List Bool) (numLocalExperts : Nat) (maps : ExpertMaps) : ExpertMaps :=
  let widened := List.zipWith (fun phy2log log2phy => (failedRanks activeRanks).foldl (insertRank numLocalExperts)
    ((List.range (activeRanks.count true)).map fun rank =>
      (phy2log.drop (rank * numLocalExperts)).take numLocalExperts, log2phy))
    maps.physicalToLogicalMap maps.logicalToPhysicalMap
  { maps with
    physicalToLogicalMap := widened.map fun layer => layer.1.flatten
    logicalToPhysicalMap := widened.map Prod.snd }

/-- `rebalance_experts` of `elasticity_aware`. -/
def rebalanceExpertsElastic (sort : DescendingSort) (numLogicalExperts : Nat) (weight : List (Nat → Rat))
    (numReplicas numGroups numNodes numGpus : Nat) (enableHierarchical : Bool) (activeRanks : List Bool) :
    Except UpdaterError ExpertMaps := do
  let numActiveRanks := activeRanks.count true
  let (numLocalExperts, _) ← divmod numReplicas numGpus
  let layers ← weight.mapM fun row =>
    if numActiveRanks < numGpus then
      rebalanceExpertsHierarchical sort numLogicalExperts row (numLocalExperts * numActiveRanks) 1 1 numActiveRanks
    else if enableHierarchical then
      rebalanceExpertsHierarchical sort numLogicalExperts row numReplicas numGroups numNodes numGpus
    else rebalanceExpertsHierarchical sort numLogicalExperts row numReplicas 1 1 numGpus
  let maps ← expertMaps numLogicalExperts (numLocalExperts * numActiveRanks) layers
  if numActiveRanks < numGpus then return widenMaps activeRanks numLocalExperts maps
  else return maps

end QCFuse.Source
