import QCFuse.Guarantees.ExpertPacking

/-!
# The maps of a layer and their inverses

`rebalance_experts` returns where each physical expert's weights come from and where the replicas of each
logical one are. The two agree, also when some ranks have failed, and no placement has a lower highest load.
-/

set_option autoImplicit false

namespace QCFuse.Guarantees

open QCFuse.Library QCFuse.Source

/-- The three maps of a layer agree: `log2phy` lists, for each logical expert, its replicas among the physical
experts that are live, each once, and then -1, and `logcnt` says how many they are. -/
structure PlacedOn (live : Nat → Prop) (numLogical : Nat) (phy2log : List Nat) (log2phy : List (List Int))
    (logcnt : List Nat) : Prop where
  bound : ∀ e ∈ phy2log, e < numLogical
  rows : log2phy.length = numLogical
  counts : logcnt.length = numLogical
  ids : ∀ e < numLogical, ∃ (ids : List Nat) (pad : Nat),
    log2phy[e]? = some (ids.map Nat.cast ++ List.replicate pad (-1)) ∧ logcnt[e]? = some ids.length ∧
      ids ≠ [] ∧ ids.Nodup ∧ ∀ p, p ∈ ids ↔ live p ∧ phy2log[p]? = some e

section Maps

variable {live : Nat → Prop} {numLogical : Nat} {phy2log : List Nat} {log2phy : List (List Int)} {logcnt : List Nat}

theorem PlacedOn.congr (h : PlacedOn live numLogical phy2log log2phy logcnt) {live' : Nat → Prop}
    (hlive : ∀ p < phy2log.length, live p ↔ live' p) : PlacedOn live' numLogical phy2log log2phy logcnt where
  bound := h.bound
  rows := h.rows
  counts := h.counts
  ids e he := by
    obtain ⟨ids, pad, hrow, hcount, hne, hnodup, hmem⟩ := h.ids e he
    refine ⟨ids, pad, hrow, hcount, hne, hnodup, fun p => (hmem p).trans ⟨?_, ?_⟩⟩
    · rintro ⟨hp, hlog⟩
      exact ⟨(hlive p (List.getElem?_eq_some_iff.mp hlog).1).mp hp, hlog⟩
    · rintro ⟨hp, hlog⟩
      exact ⟨(hlive p (List.getElem?_eq_some_iff.mp hlog).1).mpr hp, hlog⟩

/-- A stretch of `room` physical experts that are not live is put in at `start`. -/
theorem PlacedOn.insert (h : PlacedOn live numLogical phy2log log2phy logcnt) (hlog : 0 < numLogical)
    {start : Nat} (hstart : start ≤ phy2log.length) (room : Nat) :
    PlacedOn (fun p => p < start ∧ live p ∨ start + room ≤ p ∧ live (p - room)) numLogical
      (phy2log.take start ++ List.replicate room 0 ++ phy2log.drop start)
      (log2phy.map fun row => row.map fun p => if (start : Int) ≤ p then p + room else p) logcnt where
  bound e he := by
    rcases List.mem_append.mp he with he | he
    · rcases List.mem_append.mp he with he | he
      · exact h.bound e (List.mem_of_mem_take he)
      · exact (List.mem_replicate.mp he).2 ▸ hlog
    · exact h.bound e (List.mem_of_mem_drop he)
  rows := by rw [List.length_map, h.rows]
  counts := h.counts
  ids e he := by
    obtain ⟨ids, pad, hrow, hcount, hne, hnodup, hmem⟩ := h.ids e he
    let shift : Nat → Nat := fun p => if start ≤ p then p + room else p
    have hshift : ∀ p, shift p < start ↔ p < start := fun p => by
      simp only [shift]
      split <;> omega
    have hinj : ∀ p q, shift p = shift q → p = q := fun p q heq => by
      simp only [shift] at heq
      split at heq <;> split at heq <;> omega
    refine ⟨ids.map shift, pad, ?_, by rw [List.length_map, hcount], ?_, hnodup.map fun p q => hinj p q, fun p => ?_⟩
    · rw [List.getElem?_map, hrow, Option.map_some, List.map_append, List.map_map, List.map_map, List.map_replicate,
        if_neg (by omega)]
      refine congrArg some (congrArg (· ++ _) (List.map_congr_left fun p _ => ?_))
      simp only [Function.comp_apply, shift, Nat.cast_le]
      split <;> simp
    · rwa [Ne, List.map_eq_nil_iff]
    · have hfront : ∀ p < start,
          (phy2log.take start ++ List.replicate room 0 ++ phy2log.drop start)[p]? = phy2log[p]? := fun p hp => by
          rw [List.append_assoc, List.getElem?_append_left (by rw [List.length_take]; omega), List.getElem?_take,
            if_pos hp]
      have hback : ∀ p, start ≤ p →
          (phy2log.take start ++ List.replicate room 0 ++ phy2log.drop start)[p + room]? = phy2log[p]? := by
        intro p hp
        have hlen : (phy2log.take start ++ List.replicate room 0).length = start + room := by
          rw [List.length_append, List.length_take, List.length_replicate, Nat.min_eq_left hstart]
        rw [List.getElem?_append_right (by omega), hlen, List.getElem?_drop]
        exact congrArg (phy2log[·]?) (by omega)
      rw [List.mem_map]
      constructor
      · rintro ⟨q, hq, rfl⟩
        obtain ⟨hlive, hat⟩ := (hmem q).mp hq
        by_cases hle : start ≤ q
        · simp only [shift, if_pos hle]
          exact ⟨.inr ⟨by omega, by rwa [Nat.add_sub_cancel]⟩, (hback q hle).trans hat⟩
        · simp only [shift, if_neg hle]
          exact ⟨.inl ⟨by omega, hlive⟩, (hfront q (by omega)).trans hat⟩
      · rintro ⟨⟨hlt, hlive⟩ | ⟨hle, hlive⟩, hat⟩
        · exact ⟨p, (hmem p).mpr ⟨hlive, (hfront p hlt).symm.trans hat⟩, if_neg (by omega)⟩
        · have hp : p - room + room = p := by omega
          refine ⟨p - room, (hmem _).mpr ⟨hlive, ?_⟩, ?_⟩
          · rw [← hback _ (by omega), hp, hat]
          · simp only [shift, if_pos (show start ≤ p - room by omega), hp]

end Maps

section Scatter

variable {numLog numPhy maxlogcnt : Nat} {replicas : Replicas}

theorem scatterReplicas_row (h : Replicated numLog numPhy replicas)
    (hmax : ∀ e < numLog, replicas.logcnt e ≤ maxlogcnt) {e : Nat} (he : e < numLog) :
    ∃ ids : List Nat, (scatterReplicas numLog maxlogcnt numPhy replicas)[e]? =
        some (ids.map Nat.cast ++ List.replicate (maxlogcnt - replicas.logcnt e) (-1)) ∧
      ids.length = replicas.logcnt e ∧ ids.Nodup ∧ ∀ p, p ∈ ids ↔ p < numPhy ∧ replicas.phy2log p = e := by
  choose! at_ hat using h.onto e he
  have hkey : ∀ p < numPhy, ∀ k < maxlogcnt, replicas.phy2log p * maxlogcnt + replicas.rank p = e * maxlogcnt + k →
      replicas.phy2log p = e ∧ replicas.rank p = k := by
    intro p hp k hk heq
    have hrank : replicas.rank p < maxlogcnt := Nat.lt_of_lt_of_le (h.lt p hp).2 (hmax _ (h.lt p hp).1)
    exact place_inj hrank hk heq
  refine ⟨(List.range (replicas.logcnt e)).map at_, ?_, by rw [List.length_map, List.length_range], ?_, fun p => ?_⟩
  · rw [scatterReplicas, List.getElem?_map, List.getElem?_range he, Option.map_some, Option.some_inj]
    refine List.ext_getElem ?_ fun k hk hk' => ?_
    · have hle := hmax e he
      simp only [List.length_map, List.length_range, List.length_append, List.length_replicate]
      omega
    · rw [List.length_map, List.length_range] at hk
      rw [List.getElem_map, List.getElem_range]
      by_cases hcnt : k < replicas.logcnt e
      · obtain ⟨hp, hlog, hrank⟩ := hat k hcnt
        rw [List.getElem_append_left (by simpa using hcnt), List.getElem_map, List.getElem_map, List.getElem_range]
        refine foldl_update_of_hit (fun p => replicas.phy2log p * maxlogcnt + replicas.rank p) (fun p => (p : Int)) _
          ⟨at_ k, List.mem_range.mpr hp, by rw [hlog, hrank]⟩ fun p hmem heq => ?_
        have hp' := List.mem_range.mp hmem
        obtain ⟨hlog', hrank'⟩ := hkey p hp' k hk heq
        rw [h.inj p hp' _ hp (hlog'.trans hlog.symm) (hrank'.trans hrank.symm)]
      · rw [List.getElem_append_right (by simpa using hcnt), List.getElem_replicate]
        refine foldl_update_of_ne _ _ _ fun p hmem heq => hcnt ?_
        have hp' := List.mem_range.mp hmem
        obtain ⟨hlog', hrank'⟩ := hkey p hp' k hk heq
        exact hrank' ▸ hlog' ▸ (h.lt p hp').2
  · refine List.Nodup.map_on (fun k hk k' hk' heq => ?_) List.nodup_range
    rw [← (hat k (List.mem_range.mp hk)).2.2, heq, (hat k' (List.mem_range.mp hk')).2.2]
  · rw [List.mem_map]
    constructor
    · rintro ⟨k, hk, rfl⟩
      obtain ⟨hp, hlog, -⟩ := hat k (List.mem_range.mp hk)
      exact ⟨hp, hlog⟩
    · rintro ⟨hp, rfl⟩
      have hrank := (h.lt p hp).2
      obtain ⟨hp', hlog', hrank'⟩ := hat (replicas.rank p) hrank
      exact ⟨_, List.mem_range.mpr hrank, h.inj _ hp' p hp hlog' hrank'⟩

theorem placedOn_scatter (h : Replicated numLog numPhy replicas)
    (hmax : ∀ e < numLog, replicas.logcnt e ≤ maxlogcnt) :
    PlacedOn (fun _ => True) numLog ((List.range numPhy).map replicas.phy2log)
      (scatterReplicas numLog maxlogcnt numPhy replicas) ((List.range numLog).map replicas.logcnt) where
  bound e he := by
    obtain ⟨p, hp, rfl⟩ := List.mem_map.mp he
    exact (h.lt p (List.mem_range.mp hp)).1
  rows := by rw [scatterReplicas, List.length_map, List.length_range]
  counts := by rw [List.length_map, List.length_range]
  ids e he := by
    obtain ⟨ids, hids, hlen, hnodup, hmem⟩ := scatterReplicas_row h hmax he
    refine ⟨ids, _, hids, ?_, ?_, hnodup, fun p => ?_⟩
    · rw [List.getElem?_map, List.getElem?_range he, Option.map_some, hlen]
    · rintro rfl
      have hone := h.one_le e he
      rw [← hlen] at hone
      cases hone
    · rw [hmem, true_and, List.getElem?_map, Option.map_eq_some_iff]
      constructor
      · rintro ⟨hp, hlog⟩
        exact ⟨p, List.getElem?_range hp, hlog⟩
      · rintro ⟨q, hq, hlog⟩
        obtain ⟨hlt, hq⟩ := List.getElem?_eq_some_iff.mp hq
        rw [List.length_range] at hlt
        rw [List.getElem_range] at hq
        exact ⟨hlt, hq ▸ hlog⟩

end Scatter

/-! ## `rebalance_experts` -/

/-- A sort that keeps the order of equal loads. -/
def stableSort : DescendingSort where
  indices length row := (List.range length).mergeSort fun i j => row j ≤ row i
  perm length row := List.mergeSort_perm ..
  descending length row := by
    have hsorted := @List.pairwise_mergeSort Nat (fun i j => decide (row j ≤ row i))
      (fun i j k hij hjk => decide_eq_true ((of_decide_eq_true hjk).trans (of_decide_eq_true hij)))
      (fun i j => by simpa using le_total (row j) (row i)) (List.range length)
    exact hsorted.imp fun h => of_decide_eq_true h

/-- Two nodes of two GPUs with three slots each, four groups of two experts. -/
def twoNodes : BalanceShape where
  groupSize := 2
  groupsPerNode := 2
  numNodes := 2
  gpusPerNode := 2
  room := 3
  numNodes_pos := Nat.two_pos
  gpusPerNode_pos := Nat.two_pos
  logPerNode_pos := Nat.le_add_left 1 3
  enough := Nat.le_add_right 4 2

/-- The rows of the maps that belong to a layer. -/
def layerMaps (maps : ExpertMaps) (l : Nat) : Option (List Nat × List (List Int) × List Nat) := do
  return (← maps.physicalToLogicalMap[l]?, ← maps.logicalToPhysicalMap[l]?, ← maps.logicalCount[l]?)

theorem layerMaps_rows {maps : ExpertMaps} {l : Nat} {phy2log : List Nat} {log2phy : List (List Int)}
    {logcnt : List Nat} (h : layerMaps maps l = some (phy2log, log2phy, logcnt)) :
    maps.physicalToLogicalMap[l]? = some phy2log ∧ maps.logicalToPhysicalMap[l]? = some log2phy ∧
      maps.logicalCount[l]? = some logcnt := by
  simp only [layerMaps, Option.bind_eq_bind, Option.bind_eq_some_iff, Option.pure_def, Option.some_inj] at h
  obtain ⟨_, hphys, _, hlog, _, hcount, heq⟩ := h
  cases heq
  exact ⟨hphys, hlog, hcount⟩

/-- The maps of so many layers, where the physical experts of each layer are placed on the live ones. -/
structure MapsPlaced (live : Nat → Prop) (numLogical numPhysical numLayers : Nat) (maps : ExpertMaps) : Prop where
  physical : maps.physicalToLogicalMap.length = numLayers
  logical : maps.logicalToPhysicalMap.length = numLayers
  layer : ∀ l < numLayers, ∃ phy2log log2phy logcnt, layerMaps maps l = some (phy2log, log2phy, logcnt) ∧
    phy2log.length = numPhysical ∧ PlacedOn live numLogical phy2log log2phy logcnt

theorem expertMaps_ok {numLog numPhy : Nat} (hlog : 0 < numLog) {layers : List Replicas} (hne : layers ≠ [])
    (h : ∀ replicas ∈ layers, Replicated numLog numPhy replicas) :
    ∃ maps, expertMaps numLog numPhy layers = .ok maps ∧
      MapsPlaced (fun _ => True) numLog numPhy layers.length maps ∧
      maps.physicalToLogicalMap = layers.map fun replicas => (List.range numPhy).map replicas.phy2log := by
  rw [expertMaps]
  cases hmax : (layers.flatMap fun replicas => (List.range numLog).map replicas.logcnt).max? with
  | none =>
    obtain ⟨replicas, hmem⟩ := List.exists_mem_of_ne_nil _ hne
    have hnone := List.flatMap_eq_nil_iff.mp (List.max?_eq_none_iff.mp hmax) replicas hmem
    rw [List.map_eq_nil_iff, List.range_eq_nil] at hnone
    omega
  | some maxlogcnt =>
    refine ⟨_, rfl, ⟨List.length_map .., List.length_map .., fun l hl => ?_⟩, rfl⟩
    have hmem : layers[l] ∈ layers := List.getElem_mem hl
    have hle : ∀ e < numLog, layers[l].logcnt e ≤ maxlogcnt := fun e he => by
      refine (List.max?_eq_some_iff.mp hmax).2 _ (List.mem_flatMap.mpr ⟨layers[l], hmem, ?_⟩)
      exact List.mem_map.mpr ⟨e, List.mem_range.mpr he, rfl⟩
    refine ⟨_, _, _, ?_, ?_, placedOn_scatter (h _ hmem) hle⟩
    · simp only [layerMaps, List.getElem?_map, List.getElem?_eq_getElem hl]
      rfl
    · rw [List.length_map, List.length_range]

/-- The global policy: one group of all experts on one node. -/
def BalanceShape.onOneNode (shape : BalanceShape) : BalanceShape where
  groupSize := shape.numLogicalExperts
  groupsPerNode := 1
  numNodes := 1
  gpusPerNode := shape.numGpus
  room := shape.room
  numNodes_pos := Nat.one_pos
  gpusPerNode_pos := Nat.mul_pos shape.gpusPerNode_pos shape.numNodes_pos
  logPerNode_pos := by
    rw [Nat.mul_one, shape.numLogicalExperts_eq]
    exact Nat.mul_pos shape.logPerNode_pos shape.numNodes_pos
  enough := by
    rw [Nat.mul_one, shape.numLogicalExperts_eq, BalanceShape.numGpus, ← Nat.mul_assoc]
    exact Nat.mul_le_mul_right _ shape.enough

/-- The shape that the policy works with. -/
def BalanceShape.policy (shape : BalanceShape) (enableHierarchical : Bool) : BalanceShape :=
  if enableHierarchical then shape else shape.onOneNode

theorem BalanceShape.numLogicalExperts_policy (shape : BalanceShape) (enableHierarchical : Bool) :
    (shape.policy enableHierarchical).numLogicalExperts = shape.numLogicalExperts := by
  cases enableHierarchical with
  | true => rfl
  | false => exact Nat.mul_one _

theorem BalanceShape.numPhysicalExperts_policy (shape : BalanceShape) (enableHierarchical : Bool) :
    (shape.policy enableHierarchical).numPhysicalExperts = shape.numPhysicalExperts := by
  cases enableHierarchical with
  | true => rfl
  | false => exact congrArg (shape.room * ·) (Nat.mul_one _)

theorem BalanceShape.numLogicalExperts_pos (shape : BalanceShape) : 0 < shape.numLogicalExperts :=
  shape.numLogicalExperts_eq ▸ Nat.mul_pos shape.logPerNode_pos shape.numNodes_pos

/-- The policy takes every layer on its own. -/
theorem policy_layer (sort : DescendingSort) (shape : BalanceShape) (enableHierarchical : Bool) (row : Nat → Rat) :
    ∃ replicas, (if enableHierarchical then rebalanceExpertsHierarchical sort shape.numLogicalExperts row
        shape.numPhysicalExperts shape.numGroups shape.numNodes shape.numGpus
      else rebalanceExpertsHierarchical sort shape.numLogicalExperts row shape.numPhysicalExperts 1 1 shape.numGpus) =
        .ok replicas ∧ LayerBalanced (shape.policy enableHierarchical) row replicas := by
  obtain ⟨replicas, hrun, h⟩ := rebalanceExpertsHierarchical_ok sort (shape.policy enableHierarchical) row
  refine ⟨replicas, ?_, h⟩
  rw [← hrun, shape.numLogicalExperts_policy, shape.numPhysicalExperts_policy]
  cases enableHierarchical with
  | true => rfl
  | false =>
    rw [show (shape.policy false).numGpus = shape.numGpus from Nat.mul_one _]
    rfl

/-- The experts of a group are on one node. -/
def GroupsOnNodes (shape : BalanceShape) (phy2log : List Nat) : Prop :=
  ∀ p e p' e', phy2log[p]? = some e → phy2log[p']? = some e' → e / shape.groupSize = e' / shape.groupSize →
    p / shape.phyPerNode = p' / shape.phyPerNode

theorem LayerBalanced.groupsOnNodes {shape : BalanceShape} {row : Nat → Rat} {replicas : Replicas}
    (h : LayerBalanced shape row replicas) :
    GroupsOnNodes shape ((List.range shape.numPhysicalExperts).map replicas.phy2log) := by
  have hat : ∀ p e, ((List.range shape.numPhysicalExperts).map replicas.phy2log)[p]? = some e →
      p < shape.numPhysicalExperts ∧ replicas.phy2log p = e := fun p e hget => by
    obtain ⟨hlt, hget⟩ := List.getElem?_eq_some_iff.mp hget
    rw [List.length_map, List.length_range] at hlt
    rw [List.getElem_map, List.getElem_range] at hget
    exact ⟨hlt, hget⟩
  rintro p e p' e' hget hget' hgroup
  obtain ⟨hp, rfl⟩ := hat p e hget
  obtain ⟨hp', rfl⟩ := hat p' e' hget'
  exact h.sameNode p hp p' hp' hgroup

/-- The layers one by one, and then their maps. -/
theorem layers_ok {numLog numPhy : Nat} {balance : (Nat → Rat) → Except UpdaterError Replicas}
    {good : (Nat → Rat) → Replicas → Prop} (heach : ∀ row, ∃ replicas, balance row = .ok replicas ∧ good row replicas)
    (hgood : ∀ row replicas, good row replicas → Replicated numLog numPhy replicas) (hlog : 0 < numLog)
    {weight : List (Nat → Rat)} (hweight : weight ≠ []) :
    ∃ layers maps, weight.mapM balance = .ok layers ∧ expertMaps numLog numPhy layers = .ok maps ∧
      MapsPlaced (fun _ => True) numLog numPhy weight.length maps ∧
      ∀ (l : Nat) phy2log, maps.physicalToLogicalMap[l]? = some phy2log → ∃ row replicas, weight[l]? = some row ∧
        good row replicas ∧ phy2log = (List.range numPhy).map replicas.phy2log := by
  obtain ⟨layers, hlayers⟩ := mapM_exists
    (show ∀ row ∈ weight, ∃ replicas, balance row = .ok replicas from fun row _ => (heach row).imp fun _ h => h.1)
  obtain ⟨hlen, hget⟩ := mapM_ok hlayers
  have hbalanced : ∀ l (hw : l < weight.length) (hl : l < layers.length), good weight[l] layers[l] := by
    intro l hw hl
    obtain ⟨replicas, hrun, h⟩ := heach weight[l]
    exact Except.ok.inj ((hget l hw hl).symm.trans hrun) ▸ h
  have hne : layers ≠ [] := fun hnil => hweight (List.length_eq_zero_iff.mp (by rw [← hlen, hnil, List.length_nil]))
  obtain ⟨maps, hmaps, hplaced, hphysical⟩ := @expertMaps_ok numLog numPhy hlog layers hne fun replicas hmem => by
    obtain ⟨l, hl, rfl⟩ := List.mem_iff_getElem.mp hmem
    exact hgood _ _ (hbalanced l (hlen ▸ hl) hl)
  refine ⟨layers, maps, hlayers, hmaps, hlen ▸ hplaced, fun l phy2log hrow => ?_⟩
  rw [hphysical, List.getElem?_map, Option.map_eq_some_iff] at hrow
  obtain ⟨replicas, hlayer, rfl⟩ := hrow
  obtain ⟨hl, rfl⟩ := List.getElem?_eq_some_iff.mp hlayer
  exact ⟨_, layers[l], List.getElem?_eq_getElem (hlen ▸ hl), hbalanced l (hlen ▸ hl) hl, rfl⟩

theorem LayerBalanced.replicated_policy {shape : BalanceShape} {enableHierarchical : Bool} {row : Nat → Rat}
    {replicas : Replicas} (h : LayerBalanced (shape.policy enableHierarchical) row replicas) :
    Replicated shape.numLogicalExperts shape.numPhysicalExperts replicas := by
  have hreplicated := h.replicated
  rwa [shape.numLogicalExperts_policy, shape.numPhysicalExperts_policy] at hreplicated

theorem rebalanceExperts_layers (sort : DescendingSort) (shape : BalanceShape) (enableHierarchical : Bool)
    {weight : List (Nat → Rat)} (hweight : weight ≠ []) :
    ∃ maps, rebalanceExperts sort shape.numLogicalExperts weight shape.numPhysicalExperts shape.numGroups
        shape.numNodes shape.numGpus enableHierarchical = .ok maps ∧
      MapsPlaced (fun _ => True) shape.numLogicalExperts shape.numPhysicalExperts weight.length maps ∧
      ∀ (l : Nat) phy2log, maps.physicalToLogicalMap[l]? = some phy2log → ∃ row replicas, weight[l]? = some row ∧
        LayerBalanced (shape.policy enableHierarchical) row replicas ∧
        phy2log = (List.range (shape.policy enableHierarchical).numPhysicalExperts).map replicas.phy2log := by
  obtain ⟨layers, maps, hlayers, hmaps, hplaced, hrows⟩ := layers_ok (policy_layer sort shape enableHierarchical)
    (fun _ _ h => h.replicated_policy) shape.numLogicalExperts_pos hweight
  rw [shape.numPhysicalExperts_policy]
  refine ⟨maps, ?_, hplaced, hrows⟩
  simp only [rebalanceExperts, bind, Except.bind]
  rw [show weight.mapM _ = _ from hlayers]
  exact hmaps

/-- `rebalance_experts` succeeds on the shapes it asks for; in each layer its maps agree, no expert is without
a replica, and the experts of a group stay on one node. -/
theorem rebalanceExperts_placed (sort : DescendingSort) (shape : BalanceShape) (enableHierarchical : Bool)
    (weight : List (Nat → Rat)) (hweight : weight ≠ []) :
    ∃ maps, rebalanceExperts sort shape.numLogicalExperts weight shape.numPhysicalExperts shape.numGroups
        shape.numNodes shape.numGpus enableHierarchical = .ok maps ∧
      MapsPlaced (fun _ => True) shape.numLogicalExperts shape.numPhysicalExperts weight.length maps ∧
      ∀ phy2log ∈ maps.physicalToLogicalMap, GroupsOnNodes (shape.policy enableHierarchical) phy2log := by
  obtain ⟨maps, hrun, hplaced, hrows⟩ := rebalanceExperts_layers sort shape enableHierarchical hweight
  refine ⟨maps, hrun, hplaced, fun phy2log hmem => ?_⟩
  obtain ⟨l, hl⟩ := List.mem_iff_getElem?.mp hmem
  obtain ⟨row, replicas, -, hbalanced, rfl⟩ := hrows l phy2log hl
  exact hbalanced.groupsOnNodes

theorem rebalanceExperts_placed_twoNodes : ∃ maps,
    rebalanceExperts stableSort 8 [fun e => e] 12 4 2 4 true = .ok maps ∧
      MapsPlaced (fun _ => True) 8 12 1 maps ∧
      ∀ phy2log ∈ maps.physicalToLogicalMap, GroupsOnNodes twoNodes phy2log :=
  rebalanceExperts_placed stableSort twoNodes true [fun e => e] (List.cons_ne_nil _ _)

/-! ## The highest load -/

/-- The experts of a node's slots. -/
def nodeSlots (shape : BalanceShape) (phy2log : List Nat) (node : Nat) : List Nat :=
  (phy2log.drop (node * shape.phyPerNode)).take shape.phyPerNode

/-- No other choice of experts for the slots, with every expert of theirs still in one, has a lower highest
load of a replica. -/
def LowestPeak (row : Nat → Rat) (slots : List Nat) : Prop :=
  ∀ other : List Nat, other.length ≤ slots.length → (∀ e ∈ slots, e ∈ other) →
    ∀ e ∈ slots, ∃ e' ∈ slots, row e / slots.count e ≤ row e' / other.count e'

theorem lowestPeak_of_heaviestFirst {row : Nat → Rat} {slots : List Nat} (hrow : ∀ e ∈ slots, 0 ≤ row e)
    (h : HeaviestFirst slots.toFinset row slots.count) : LowestPeak row slots := by
  intro other hlen hcover e he
  have hsub : slots.toFinset ⊆ other.toFinset := fun e he =>
    List.mem_toFinset.mpr (hcover e (List.mem_toFinset.mp he))
  have htotal : ∑ e ∈ slots.toFinset, other.count e ≤ ∑ e ∈ slots.toFinset, slots.count e := by
    rw [List.sum_toFinset_count_eq_length]
    refine Nat.le_trans ?_ hlen
    rw [← List.sum_toFinset_count_eq_length other]
    exact Finset.sum_le_sum_of_subset hsub
  obtain ⟨e', he', hle⟩ := h.least (fun e he => hrow e (List.mem_toFinset.mp he))
    (fun e he => List.one_le_count_iff.mpr (hcover e (List.mem_toFinset.mp he))) htotal (List.mem_toFinset.mpr he)
  exact ⟨e', List.mem_toFinset.mp he', hle⟩

/-- Slots that hold every replica of an expert hold it as often as it has replicas. -/
theorem Replicated.count_eq {numLog done : Nat} {replicas : Replicas} (h : Replicated numLog done replicas) {e : Nat}
    (he : e < numLog) {ps : List Nat} (hnodup : ps.Nodup) (hlt : ∀ p ∈ ps, p < done)
    (hall : ∀ p < done, replicas.phy2log p = e → p ∈ ps) : (ps.map replicas.phy2log).count e = replicas.logcnt e := by
  have hperm : ((ps.filter fun p => replicas.phy2log p == e).map replicas.rank).Perm
      (List.range (replicas.logcnt e)) := by
    refine (List.perm_ext_iff_of_nodup ?_ List.nodup_range).mpr fun k => ?_
    · refine List.Nodup.map_on (fun p hp p' hp' heq => ?_) (hnodup.filter _)
      obtain ⟨hp, hlog⟩ := List.mem_filter.mp hp
      obtain ⟨hp', hlog'⟩ := List.mem_filter.mp hp'
      exact h.inj p (hlt p hp) p' (hlt p' hp') ((beq_iff_eq.mp hlog).trans (beq_iff_eq.mp hlog').symm) heq
    · rw [List.mem_map, List.mem_range]
      constructor
      · rintro ⟨p, hp, rfl⟩
        obtain ⟨hp, hlog⟩ := List.mem_filter.mp hp
        exact beq_iff_eq.mp hlog ▸ (h.lt p (hlt p hp)).2
      · intro hk
        obtain ⟨p, hp, hlog, hrank⟩ := h.onto e he k hk
        exact ⟨p, List.mem_filter.mpr ⟨hall p hp hlog, beq_iff_eq.mpr hlog⟩, hrank⟩
  have hlen := hperm.length_eq
  rw [List.length_map, List.length_range, ← List.countP_eq_length_filter] at hlen
  rw [List.count_eq_countP, List.countP_map, ← hlen]
  rfl

theorem nodeSlots_map (shape : BalanceShape) (phy2log : Nat → Nat) {node : Nat} (hnode : node < shape.numNodes) :
    nodeSlots shape ((List.range shape.numPhysicalExperts).map phy2log) node =
      (List.range' (node * shape.phyPerNode) shape.phyPerNode).map phy2log := by
  have hle : node * shape.phyPerNode + shape.phyPerNode ≤ shape.numPhysicalExperts := by
    rw [shape.numPhysicalExperts_eq, Nat.mul_comm shape.phyPerNode, ← Nat.succ_mul]
    exact Nat.mul_le_mul_right _ hnode
  rw [nodeSlots, ← List.map_drop, ← List.map_take, List.range_eq_range', List.drop_range',
    List.take_range'_of_length_ge (by omega), Nat.zero_add, Nat.mul_one]

theorem LayerBalanced.lowestPeak {shape : BalanceShape} {row : Nat → Rat} {replicas : Replicas}
    (h : LayerBalanced shape row replicas) (hrow : ∀ e < shape.numLogicalExperts, 0 ≤ row e) {node : Nat}
    (hnode : node < shape.numNodes) :
    LowestPeak row (nodeSlots shape ((List.range shape.numPhysicalExperts).map replicas.phy2log) node) := by
  rw [nodeSlots_map shape _ hnode]
  have hat : ∀ p, p ∈ List.range' (node * shape.phyPerNode) shape.phyPerNode ↔
      p < shape.numPhysicalExperts ∧ p / shape.phyPerNode = node := fun p => by
    rw [List.mem_range'_1, Nat.div_eq_iff (phyPerNode_pos shape), shape.numPhysicalExperts_eq]
    have hle : (node + 1) * shape.phyPerNode ≤ shape.phyPerNode * shape.numNodes := by
      rw [Nat.mul_comm shape.phyPerNode]
      exact Nat.mul_le_mul_right _ hnode
    rw [Nat.succ_mul] at hle
    have hpos := phyPerNode_pos shape
    omega
  have hcount : ∀ p ∈ List.range' (node * shape.phyPerNode) shape.phyPerNode,
      ((List.range' (node * shape.phyPerNode) shape.phyPerNode).map replicas.phy2log).count (replicas.phy2log p) =
        replicas.logcnt (replicas.phy2log p) := fun p hp => by
    obtain ⟨hp, hsame⟩ := (hat p).mp hp
    refine h.replicated.count_eq (h.replicated.lt p hp).1 List.nodup_range' (fun q hq => ((hat q).mp hq).1)
      fun q hq hlog => (hat q).mpr ⟨hq, ?_⟩
    rw [h.sameNode q hq p hp (by rw [hlog]), hsame]
  refine lowestPeak_of_heaviestFirst (fun e he => ?_) ⟨fun e he => ?_, fun e' he' htwo e he => ?_⟩
  · obtain ⟨p, hp, rfl⟩ := List.mem_map.mp he
    exact hrow _ (h.replicated.lt p ((hat p).mp hp).1).1
  · exact List.one_le_count_iff.mpr (List.mem_toFinset.mp he)
  · obtain ⟨p', hp', rfl⟩ := List.mem_map.mp (List.mem_toFinset.mp he')
    obtain ⟨p, hp, rfl⟩ := List.mem_map.mp (List.mem_toFinset.mp he)
    rw [hcount p hp, hcount p' hp'] at *
    obtain ⟨hp, hsame⟩ := (hat p).mp hp
    obtain ⟨hp', hsame'⟩ := (hat p').mp hp'
    exact h.even hrow p hp p' hp' (hsame.trans hsame'.symm) htwo

section Elastic

variable {activeRanks : List Bool} {room numLogical : Nat} {logcnt : List Nat}

/-- What the loop has made of a layer's slices and its `log2phy` when it is at rank `n`. -/
structure Widened (activeRanks : List Bool) (room numLogical : Nat) (logcnt : List Nat) (n : Nat)
    (layer : List (List Nat) × List (List Int)) : Prop where
  slices : ∀ slice ∈ layer.1, slice.length = room
  length : layer.1.length = activeRanks.count true + (activeRanks.take n).count false
  placed : PlacedOn (fun p => p / room < n → activeRanks[p / room]? = some true) numLogical layer.1.flatten layer.2
    logcnt

theorem flatten_take {slices : List (List Nat)} (h : ∀ slice ∈ slices, slice.length = room) (n : Nat) :
    (slices.take n).flatten = slices.flatten.take (n * room) ∧
      (slices.drop n).flatten = slices.flatten.drop (n * room) := by
  induction slices generalizing n with
  | nil => simp
  | cons slice slices ih =>
    obtain ⟨hslice, hslices⟩ := List.forall_mem_cons.mp h
    cases n with
    | zero => simp
    | succ n =>
      have hsplit : (n + 1) * room = slice.length + n * room := by rw [hslice, Nat.succ_mul, Nat.add_comm]
      rw [List.take_succ_cons, List.drop_succ_cons, List.flatten_cons, List.flatten_cons, (ih hslices n).1,
        (ih hslices n).2, hsplit, List.take_length_add_append, List.drop_length_add_append]
      exact ⟨rfl, rfl⟩

theorem length_flatten_slices {slices : List (List Nat)} (h : ∀ slice ∈ slices, slice.length = room) :
    slices.flatten.length = slices.length * room := by
  rw [List.length_flatten, List.map_congr_left h, List.map_const', List.sum_replicate, smul_eq_mul]

theorem count_take_le (n : Nat) : n ≤ activeRanks.length →
    n ≤ activeRanks.count true + (activeRanks.take n).count false := fun hn => by
  have hsplit := List.count_true_add_count_false (activeRanks.take n)
  have hle := (List.take_sublist n activeRanks).count_le true
  rw [List.length_take, Nat.min_eq_left hn] at hsplit
  omega

/-- One turn of the loop. -/
theorem Widened.step {layer : List (List Nat) × List (List Int)} {n : Nat} (hlog : 0 < numLogical) (hroom : 0 < room)
    (h : Widened activeRanks room numLogical logcnt n layer) (hn : n < activeRanks.length) :
    Widened activeRanks room numLogical logcnt (n + 1)
      (if activeRanks[n]? = some false then insertRank room layer n else layer) := by
  have hget := List.getElem?_eq_getElem hn
  have htake : activeRanks.take (n + 1) = activeRanks.take n ++ [activeRanks[n]] :=
    List.take_succ_eq_append_getElem hn
  have hnext : ∀ p, p / room < n + 1 ↔ p / room < n ∨ p / room = n := fun p => Nat.lt_succ_iff_lt_or_eq
  by_cases hfailed : activeRanks[n]? = some false
  · rw [if_pos hfailed]
    have hvalue : activeRanks[n] = false := Option.some_inj.mp (hget.symm.trans hfailed)
    have hle : n ≤ layer.1.length := h.length ▸ count_take_le n (Nat.le_of_lt hn)
    obtain ⟨hfront, hback⟩ := flatten_take h.slices n
    refine ⟨fun slice hslice => ?_, ?_, ?_⟩
    · rw [insertRank, List.mem_append, List.mem_append, List.mem_singleton] at hslice
      rcases hslice with (hmem | rfl) | hmem
      · exact h.slices slice (List.mem_of_mem_take hmem)
      · exact List.length_replicate ..
      · exact h.slices slice (List.mem_of_mem_drop hmem)
    · have hlen := h.length
      simp only [insertRank, List.length_append, List.length_take, List.length_drop, List.length_singleton, htake,
        hvalue, List.count_append, List.count_singleton_self]
      omega
    · have hstart : n * room ≤ layer.1.flatten.length :=
        length_flatten_slices h.slices ▸ Nat.mul_le_mul_right _ hle
      have hplaced := h.placed.insert hlog hstart room
      have hflat : (insertRank room layer n).1.flatten =
          layer.1.flatten.take (n * room) ++ List.replicate room 0 ++ layer.1.flatten.drop (n * room) := by
        rw [insertRank, List.flatten_append, List.flatten_append, List.flatten_singleton, hfront, hback]
      rw [hflat]
      refine hplaced.congr fun p _ => ?_
      have hlt : p < n * room ↔ p / room < n := (Nat.div_lt_iff_lt_mul hroom).symm
      have hge : n * room + room ≤ p ↔ n < p / room := by
        rw [← Nat.succ_mul, ← Nat.le_div_iff_mul_le hroom]
        exact Nat.succ_le_iff
      have hdead : p / room = n → activeRanks[p / room]? ≠ some true := fun heq => by
        rw [heq, hfailed]
        decide
      have hprev : (p - room) / room = p / room - 1 := by
        have hsub := Nat.sub_mul_div p room 1
        rwa [Nat.mul_one] at hsub
      rw [hlt, hge, hnext, hprev]
      constructor
      · rintro (⟨hp, hlive⟩ | ⟨hp, -⟩)
        · exact fun _ => hlive hp
        · intro hor
          omega
      · intro hlive
        rcases Nat.lt_trichotomy (p / room) n with hp | hp | hp
        · exact .inl ⟨hp, fun _ => hlive (.inl hp)⟩
        · exact absurd (hlive (.inr hp)) (hdead hp)
        · exact .inr ⟨hp, fun hp' => by omega⟩
  · rw [if_neg hfailed]
    have hvalue : activeRanks[n] = true := by
      rw [hget] at hfailed
      cases hb : activeRanks[n] with
      | true => rfl
      | false => exact absurd (congrArg some hb) hfailed
    refine ⟨h.slices, ?_, h.placed.congr fun p _ => ?_⟩
    · rw [htake, hvalue, List.count_append, h.length]
      rfl
    · rw [hnext]
      refine ⟨fun hlive hor => ?_, fun hlive hp => hlive (.inl hp)⟩
      rcases hor with hp | hp
      · exact hlive hp
      · rw [hp, hget, hvalue]

/-- The whole loop. -/
theorem Widened.run {layer : List (List Nat) × List (List Int)} (hlog : 0 < numLogical) (hroom : 0 < room)
    (h : Widened activeRanks room numLogical logcnt 0 layer) {n : Nat} (hn : n ≤ activeRanks.length) :
    Widened activeRanks room numLogical logcnt n
      (((List.range n).filter fun idx => activeRanks[idx]? = some false).foldl (insertRank room) layer) := by
  induction n with
  | zero => exact h
  | succ n ih =>
    have hstep := (ih (Nat.le_of_succ_le hn)).step hlog hroom hn
    rw [List.range_succ, List.filter_append, List.foldl_append]
    by_cases hfailed : activeRanks[n]? = some false
    · rw [if_pos hfailed] at hstep
      rwa [List.filter_singleton, decide_eq_true hfailed]
    · rw [if_neg hfailed] at hstep
      rwa [List.filter_singleton, decide_eq_false hfailed]

theorem flatten_slices {phy2log : List Nat} (n : Nat) :
    ((List.range n).map fun rank => (phy2log.drop (rank * room)).take room).flatten = phy2log.take (n * room) := by
  induction n with
  | zero => rw [Nat.zero_mul]; rfl
  | succ n ih =>
    rw [List.range_succ, List.map_append, List.flatten_append, ih, Nat.succ_mul, List.take_add]
    simp

theorem widened_start {phy2log : List Nat} {log2phy : List (List Int)}
    (hlen : phy2log.length = room * activeRanks.count true)
    (h : PlacedOn (fun _ => True) numLogical phy2log log2phy logcnt) :
    Widened activeRanks room numLogical logcnt 0
      ((List.range (activeRanks.count true)).map fun rank => (phy2log.drop (rank * room)).take room, log2phy) where
  slices slice hslice := by
    obtain ⟨rank, hrank, rfl⟩ := List.mem_map.mp hslice
    have hle : (rank + 1) * room ≤ activeRanks.count true * room :=
      Nat.mul_le_mul_right _ (List.mem_range.mp hrank)
    rw [Nat.succ_mul, Nat.mul_comm (activeRanks.count true), ← hlen] at hle
    rw [List.length_take, List.length_drop]
    omega
  length := by rw [List.length_map, List.length_range, List.take_zero, List.count_nil, Nat.add_zero]
  placed := by
    rw [flatten_slices, Nat.mul_comm, ← hlen, List.take_length]
    exact h.congr fun p _ => ⟨fun _ hp => absurd hp (Nat.not_lt_zero _), fun _ => trivial⟩

end Elastic

/-- The shape of the ranks that are left. -/
def BalanceShape.onActive (shape : BalanceShape) {activeRanks : List Bool}
    (henough : shape.numLogicalExperts ≤ shape.room * activeRanks.count true) : BalanceShape where
  groupSize := shape.numLogicalExperts
  groupsPerNode := 1
  numNodes := 1
  gpusPerNode := activeRanks.count true
  room := shape.room
  numNodes_pos := Nat.one_pos
  gpusPerNode_pos := Nat.pos_of_mul_pos_left (Nat.lt_of_lt_of_le shape.numLogicalExperts_pos henough)
  logPerNode_pos := by
    rw [Nat.mul_one]
    exact shape.numLogicalExperts_pos
  enough := by rwa [Nat.mul_one]

theorem BalanceShape.room_pos (shape : BalanceShape) : 0 < shape.room :=
  Nat.pos_of_mul_pos_right (Nat.lt_of_lt_of_le shape.logPerNode_pos shape.enough)

theorem divmod_experts (shape : BalanceShape) :
    divmod shape.numPhysicalExperts shape.numGpus = .ok (shape.room, 0) := by
  have hgpus : 0 < shape.numGpus := Nat.mul_pos shape.gpusPerNode_pos shape.numNodes_pos
  rw [divmod, if_neg (Nat.ne_of_gt hgpus), BalanceShape.numPhysicalExperts, Nat.mul_div_cancel _ hgpus,
    Nat.mul_mod_left]

/-- As long as no rank has failed the balancer is the other one. -/
theorem rebalanceExpertsElastic_active (sort : DescendingSort) (shape : BalanceShape) (enableHierarchical : Bool)
    {weight : List (Nat → Rat)} (hweight : weight ≠ []) {activeRanks : List Bool}
    (hcount : activeRanks.count true = shape.numGpus) :
    ∃ maps, rebalanceExpertsElastic sort shape.numLogicalExperts weight shape.numPhysicalExperts shape.numGroups
        shape.numNodes shape.numGpus enableHierarchical activeRanks = .ok maps ∧
      MapsPlaced (fun _ => True) shape.numLogicalExperts shape.numPhysicalExperts weight.length maps := by
  obtain ⟨layers, maps, hlayers, hmaps, hplaced, -⟩ := layers_ok (policy_layer sort shape enableHierarchical)
    (fun _ _ h => h.replicated_policy) shape.numLogicalExperts_pos hweight
  have hphys : shape.room * shape.numGpus = shape.numPhysicalExperts := rfl
  refine ⟨maps, ?_, hplaced⟩
  simp only [rebalanceExpertsElastic, divmod_experts, bind, Except.bind, hcount, if_neg (Nat.lt_irrefl _), hphys]
  rw [show weight.mapM _ = _ from hlayers]
  simp only [hmaps]
  rfl

/-- When ranks have failed and the others have room for every expert, the maps agree about the physical experts
of the others and name no other one. -/
theorem rebalanceExpertsElastic_placed (sort : DescendingSort) (shape : BalanceShape) (enableHierarchical : Bool)
    (weight : List (Nat → Rat)) (hweight : weight ≠ []) (activeRanks : List Bool)
    (hranks : activeRanks.length = shape.numGpus)
    (henough : shape.numLogicalExperts ≤ shape.room * activeRanks.count true) :
    ∃ maps, rebalanceExpertsElastic sort shape.numLogicalExperts weight shape.numPhysicalExperts shape.numGroups
        shape.numNodes shape.numGpus enableHierarchical activeRanks = .ok maps ∧
      MapsPlaced (fun p => activeRanks[p / shape.room]? = some true) shape.numLogicalExperts
        shape.numPhysicalExperts weight.length maps := by
  have hlog := shape.numLogicalExperts_pos
  by_cases hall : activeRanks.count true < shape.numGpus
  · have hshape : (shape.onActive henough).numPhysicalExperts = shape.room * activeRanks.count true :=
      congrArg (shape.room * ·) (Nat.mul_one _)
    have heach : ∀ row, ∃ replicas, rebalanceExpertsHierarchical sort shape.numLogicalExperts row
        (shape.room * activeRanks.count true) 1 1 (activeRanks.count true) = .ok replicas ∧
          Replicated shape.numLogicalExperts (shape.room * activeRanks.count true) replicas := fun row => by
      obtain ⟨replicas, hrun, h⟩ := rebalanceExpertsHierarchical_ok sort (shape.onActive henough) row
      have hreplicated := h.replicated
      rw [hshape, show (shape.onActive henough).numLogicalExperts = shape.numLogicalExperts from Nat.mul_one _] at *
      rw [show (shape.onActive henough).numGpus = activeRanks.count true from Nat.mul_one _] at hrun
      exact ⟨replicas, hrun, hreplicated⟩
    obtain ⟨layers, maps, hlayers, hmaps, hplaced, -⟩ := layers_ok heach (fun _ _ h => h) hlog hweight
    refine ⟨widenMaps activeRanks shape.room maps, ?_, ?_, ?_, fun l hl => ?_⟩
    · simp only [rebalanceExpertsElastic, divmod_experts, bind, Except.bind, if_pos hall]
      rw [show weight.mapM _ = _ from hlayers]
      simp only [hmaps]
      rfl
    · rw [widenMaps, List.length_map, List.length_zipWith, hplaced.physical, hplaced.logical, Nat.min_self]
    · rw [widenMaps, List.length_map, List.length_zipWith, hplaced.physical, hplaced.logical, Nat.min_self]
    · obtain ⟨phy2log, log2phy, logcnt, hlayer, hlen, h⟩ := hplaced.layer l hl
      have hwidened := (widened_start hlen h).run hlog shape.room_pos (Nat.le_refl activeRanks.length)
      have htotal : (activeRanks.count true + (activeRanks.take activeRanks.length).count false) * shape.room =
          shape.numPhysicalExperts := by
        rw [List.take_length, List.count_true_add_count_false, hranks, Nat.mul_comm, BalanceShape.numPhysicalExperts]
      have hlen := (length_flatten_slices hwidened.slices).trans
        ((congrArg (· * shape.room) hwidened.length).trans htotal)
      refine ⟨_, _, logcnt, ?_, hlen, hwidened.placed.congr fun p hp => ?_⟩
      · obtain ⟨hphys, hlogical, hcounts⟩ := layerMaps_rows hlayer
        simp only [layerMaps, widenMaps, List.getElem?_map, List.getElem?_zipWith, hphys, hlogical, hcounts]
        rfl
      · have hrank : p / shape.room < activeRanks.length := by
          rw [hranks]
          exact Nat.div_lt_of_lt_mul (Nat.lt_of_lt_of_eq hp hlen)
        exact ⟨fun hlive => hlive hrank, fun hlive _ => hlive⟩
  · have hcount : activeRanks.count true = activeRanks.length :=
      Nat.le_antisymm List.count_le_length (hranks ▸ Nat.le_of_not_lt hall)
    obtain ⟨maps, hrun, hplaced⟩ :=
      rebalanceExpertsElastic_active sort shape enableHierarchical hweight (hcount.trans hranks)
    refine ⟨maps, hrun, hplaced.physical, hplaced.logical, fun l hl => ?_⟩
    obtain ⟨phy2log, log2phy, logcnt, hlayer, hlen, h⟩ := hplaced.layer l hl
    refine ⟨phy2log, log2phy, logcnt, hlayer, hlen, h.congr fun p hp => ?_⟩
    rw [hlen, BalanceShape.numPhysicalExperts] at hp
    have hrank : p / shape.room < activeRanks.length := hranks ▸ Nat.div_lt_of_lt_mul hp
    refine ⟨fun _ => ?_, fun _ => trivial⟩
    rw [List.getElem?_eq_getElem hrank, Option.some_inj]
    exact (List.count_eq_length.mp hcount _ (List.getElem_mem hrank)).symm

theorem rebalanceExpertsElastic_placed_twoNodes : ∃ maps,
    rebalanceExpertsElastic stableSort 8 [fun e => e] 12 4 2 4 true [true, false, true, true] = .ok maps ∧
      MapsPlaced (fun p => [true, false, true, true][p / 3]? = some true) 8 12 1 maps :=
  rebalanceExpertsElastic_placed stableSort twoNodes true [fun e => e] (List.cons_ne_nil _ _)
    [true, false, true, true] rfl (Nat.le_add_right 8 1)

end QCFuse.Guarantees
