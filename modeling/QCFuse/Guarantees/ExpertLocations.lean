import QCFuse.Guarantees.ExpertDispatch

/-!
# The maps of the metadata

However the metadata is made and updated, the maps of each layer agree, and a logical expert is sent to a
physical one that is its replica.
-/

set_option autoImplicit false

namespace QCFuse.Guarantees

open QCFuse.Library QCFuse.Source

variable {args : EpArgs} {gpus : GpuShape} {metadata : ExpertLocationMetadata}

/-- `num_physical_experts`. -/
def numPhysicalExperts (args : EpArgs) : Nat := args.numLogicalExperts + args.epNumRedundantExperts

/-- The rows of one layer agree. -/
structure LayerLocated (args : EpArgs) (gpus : GpuShape) (phy2log : List Nat) (all : List (List Int))
    (numValid : List Nat) (dispatch : Option (List (List Int))) : Prop where
  length : phy2log.length = numPhysicalExperts args
  placed : PlacedOn (fun _ => True) args.numLogicalExperts phy2log all numValid
  static : dispatch.isSome ↔ args.epDispatchAlgorithm = some .static
  dispatched : ∀ rows, dispatch = some rows → List.Forall₂ (RowDispatched gpus args.epSize) all rows

/-- The rows of every layer agree. -/
structure ExpertsLocated (args : EpArgs) (gpus : GpuShape) (metadata : ExpertLocationMetadata) : Prop where
  physical : metadata.physicalToLogicalMap.length = args.numLayers
  all : metadata.logicalToAllPhysicalMap.length = args.numLayers
  numValid : metadata.logicalToAllPhysicalMapNumValid.length = args.numLayers
  dispatch : ∀ map, metadata.logicalToRankDispatchPhysicalMap = some map → map.length = args.numLayers
  layer : ∀ l < args.numLayers, LayerLocated args gpus (metadata.physicalToLogicalMap.getD l [])
    (metadata.logicalToAllPhysicalMap.getD l []) (metadata.logicalToAllPhysicalMapNumValid.getD l [])
    (metadata.logicalToRankDispatchPhysicalMap.map fun map => map.getD l [])

/-! ## Construction -/

theorem PlacedOn.rowLists {live : Nat → Prop} {numLogical : Nat} {phy2log : List Nat} {log2phy : List (List Int)}
    {logcnt : List Nat} (h : PlacedOn live numLogical phy2log log2phy logcnt) :
    ∀ row ∈ log2phy, ∃ ids, RowLists ids row := by
  intro row hrow
  obtain ⟨e, he, rfl⟩ := List.mem_iff_getElem.mp hrow
  obtain ⟨ids, pad, hids, -, hne, hnodup, -⟩ := h.ids e (h.rows ▸ he)
  rw [List.getElem?_eq_getElem he, Option.some_inj] at hids
  exact ⟨ids, hne, hnodup, pad, hids⟩

/-- The rows are padded, and the valid entries are counted again. -/
theorem PlacedOn.padded {live : Nat → Prop} {numLogical : Nat} {phy2log : List Nat} {log2phy : List (List Int)}
    {logcnt : List Nat} (h : PlacedOn live numLogical phy2log log2phy logcnt) (width : Nat) :
    PlacedOn live numLogical phy2log
      (log2phy.map fun row => row ++ List.replicate (width - row.length) (-1))
      (log2phy.map fun row => row.countP fun p => p ≠ -1) where
  bound := h.bound
  rows := by rw [List.length_map, h.rows]
  counts := by rw [List.length_map, h.rows]
  ids e he := by
    obtain ⟨ids, pad, hrow, -, hne, hnodup, hmem⟩ := h.ids e he
    refine ⟨ids, pad + (width - (ids.length + pad)), ?_, ?_, hne, hnodup, hmem⟩
    · rw [List.getElem?_map, hrow, Option.map_some, List.append_assoc, List.replicate_append_replicate,
        List.length_append, List.length_map, List.length_replicate]
    · have hraw := congrArg List.length (logicalToAllPhysicalRaw_row ids pad)
      rw [logicalToAllPhysicalRaw, ← List.countP_eq_length_filter, List.length_map] at hraw
      rw [List.getElem?_map, hrow, Option.map_some, hraw]

theorem RowDispatched.padded {numGpus : Nat} {row choice : List Int} (h : RowDispatched gpus numGpus row choice)
    (more : Nat) : RowDispatched gpus numGpus (row ++ List.replicate more (-1)) choice := by
  obtain ⟨ids, choice', ⟨hne, hnodup, pad, rfl⟩, hchoice, hfair⟩ := h
  refine ⟨ids, choice', ⟨hne, hnodup, pad + more, ?_⟩, hchoice, hfair⟩
  rw [List.append_assoc, List.replicate_append_replicate]

theorem getD_map_map {α β : Type} (g : α → β) (xs : List (List α)) (l : Nat) :
    (xs.map fun ys => ys.map g).getD l [] = (xs.getD l []).map g :=
  List.getD_map xs [] (List.map g)

/-- Maps of all layers that agree. -/
structure MapsAgree (args : EpArgs) (physical : List (List Nat)) (logical : List (List (List Int))) : Prop where
  physicalLength : physical.length = args.numLayers
  logicalLength : logical.length = args.numLayers
  layer : ∀ l < args.numLayers, (physical.getD l []).length = numPhysicalExperts args ∧ ∃ logcnt,
    PlacedOn (fun _ => True) args.numLogicalExperts (physical.getD l []) (logical.getD l []) logcnt

theorem initRaw_located {R : Type} (random : PyRandom R) (hshape : EpShape args gpus) (hlayers : 0 < args.numLayers)
    {physical : List (List Nat)} {logical : List (List (List Int))} (h : MapsAgree args physical logical) :
    ∃ metadata, initRaw random args physical logical = .ok metadata ∧ ExpertsLocated args gpus metadata ∧
      metadata.physicalToLogicalMap = physical := by
  have hnum : (physical.head?.map List.length).getD 0 = numPhysicalExperts args := by
    have hhead := (h.layer 0 hlayers).1
    have hpos : 0 < physical.length := h.physicalLength ▸ hlayers
    rw [List.head?_eq_getElem?, List.getElem?_eq_getElem hpos]
    rwa [List.getD_eq_getElem _ _ hpos] at hhead
  have hrows : ∀ layer ∈ logical, ∀ row ∈ layer, ∃ ids, RowLists ids row := fun layer hlayer => by
    obtain ⟨l, hl, rfl⟩ := List.mem_iff_getElem.mp hlayer
    obtain ⟨-, logcnt, hplaced⟩ := h.layer l (h.logicalLength ▸ hl)
    rw [List.getD_eq_getElem _ _ hl] at hplaced
    exact hplaced.rowLists
  obtain ⟨map, hmap, hdispatched⟩ := dispatchMap_fair random hshape hrows
  let dispatch := if args.epDispatchAlgorithm = some .static then some map else none
  let metadata : ExpertLocationMetadata := {
    physicalToLogicalMap := physical
    logicalToAllPhysicalMap := logical.map fun layer => layer.map fun row =>
      row ++ List.replicate (numPhysicalExperts args - row.length) (-1)
    logicalToAllPhysicalMapNumValid := logical.map fun layer => layer.map fun row => row.countP fun p => p ≠ -1
    logicalToRankDispatchPhysicalMap := dispatch }
  refine ⟨metadata, ?_, ⟨h.physicalLength, ?_, ?_, fun map' hmap' => ?_, fun l hl => ?_⟩, rfl⟩
  · simp only [initRaw, hnum]
    by_cases hstatic : args.epDispatchAlgorithm = some .static
    · rw [if_pos hstatic,
        show computeLogicalToRankDispatchPhysicalMap random args (numPhysicalExperts args) logical = _ from hmap]
      simp only [metadata, dispatch, if_pos hstatic]
      rfl
    · rw [if_neg hstatic]
      simp only [metadata, dispatch, if_neg hstatic]
      rfl
  · rw [List.length_map, h.logicalLength]
  · rw [List.length_map, h.logicalLength]
  · simp only [metadata, dispatch] at hmap'
    split at hmap'
    · cases hmap'
      rw [← hdispatched.length_eq, h.logicalLength]
    · cases hmap'
  · obtain ⟨hlen, logcnt, hplaced⟩ := h.layer l hl
    have hl' : l < logical.length := h.logicalLength ▸ hl
    have hall : metadata.logicalToAllPhysicalMap.getD l [] = (logical.getD l []).map fun row =>
        row ++ List.replicate (numPhysicalExperts args - row.length) (-1) := getD_map_map ..
    have hnumValid : metadata.logicalToAllPhysicalMapNumValid.getD l [] = (logical.getD l []).map fun row =>
        row.countP fun p => p ≠ -1 := getD_map_map ..
    rw [hall, hnumValid]
    refine ⟨hlen, hplaced.padded _, ?_, fun rows hrows' => ?_⟩
    · rw [Option.isSome_map]
      by_cases hstatic : args.epDispatchAlgorithm = some .static
      · simp only [metadata, dispatch, if_pos hstatic, hstatic, Option.isSome_some]
      · simp only [metadata, dispatch, if_neg hstatic, hstatic, Option.isSome_none, Bool.false_eq_true]
    · obtain ⟨map', hmap', rfl⟩ := Option.map_eq_some_iff.mp hrows'
      simp only [metadata, dispatch] at hmap'
      split at hmap'
      · cases hmap'
        have hlm : l < map.length := hdispatched.length_eq ▸ hl'
        rw [List.getD_eq_getElem _ _ hl', List.getD_eq_getElem _ _ hlm]
        refine List.forall₂_map_left_iff.mpr (((List.forall₂_iff_get.mp hdispatched).2 l hl' hlm).imp ?_)
        exact fun row choice hrow => hrow.padded _
      · cases hmap'

/-! ## `init_by_mapping` -/

/-- The places of a logical expert in a layer, in order. -/
def placesOf (start : Nat) (layer : List Nat) (e : Nat) : List Nat :=
  ((layer.zipIdx start).filter fun pair => pair.1 = e).map Prod.snd

theorem mem_placesOf {layer : List Nat} {e p : Nat} : p ∈ placesOf 0 layer e ↔ layer[p]? = some e := by
  rw [placesOf, List.mem_map]
  constructor
  · rintro ⟨⟨logical, q⟩, hmem, rfl⟩
    obtain ⟨hmem, heq⟩ := List.mem_filter.mp hmem
    rw [← of_decide_eq_true heq]
    exact List.mk_mem_zipIdx_iff_getElem?.mp hmem
  · exact fun h => ⟨(e, p), List.mem_filter.mpr ⟨List.mk_mem_zipIdx_iff_getElem?.mpr h, decide_eq_true rfl⟩, rfl⟩

theorem nodup_placesOf (start : Nat) (layer : List Nat) (e : Nat) : (placesOf start layer e).Nodup := by
  have hsub : (placesOf start layer e).Sublist ((layer.zipIdx start).map Prod.snd) := List.filter_sublist.map _
  rw [List.zipIdx_map_snd] at hsub
  exact hsub.nodup List.nodup_range'

theorem appendPhysical_ok {layer : List Nat} {start : Nat} {map : List (List Int)}
    (hbound : ∀ e ∈ layer, e < map.length) : ∃ out, appendPhysical layer start map = .ok out ∧
      out.length = map.length ∧ ∀ e (row : List Int), map[e]? = some row →
        out[e]? = some (row ++ (placesOf start layer e).map Nat.cast) := by
  induction layer generalizing start map with
  | nil =>
    refine ⟨map, rfl, rfl, fun e row hrow => ?_⟩
    rw [hrow]
    exact congrArg some (List.append_nil row).symm
  | cons logical layer ih =>
    obtain ⟨hlt, hbound⟩ := List.forall_mem_cons.mp hbound
    obtain ⟨out, hrun, hlen, hrows⟩ := @ih (start + 1) (map.set logical (map[logical] ++ [(start : Int)])) (by
      rwa [List.length_set])
    refine ⟨out, ?_, by rw [hlen, List.length_set], fun e row hrow => ?_⟩
    · rw [appendPhysical, List.getElem?_eq_getElem hlt]
      exact hrun
    · by_cases heq : logical = e
      · subst heq
        rw [List.getElem?_eq_getElem hlt, Option.some_inj] at hrow
        have hthis := hrows logical (map[logical] ++ [(start : Int)]) (List.getElem?_set_self hlt)
        rw [hthis, ← hrow, placesOf, placesOf, List.zipIdx_cons, List.filter_cons_of_pos (by simp), List.append_assoc]
        rfl
      · have hthis := hrows e row (by rw [List.getElem?_set_ne heq, hrow])
        rw [hthis, placesOf, placesOf, List.zipIdx_cons, List.filter_cons_of_neg (by simpa using heq)]

/-- A mapping that gives every logical expert a place. -/
structure MappingCovers (args : EpArgs) (layer : List Nat) : Prop where
  length : layer.length = numPhysicalExperts args
  bound : ∀ e ∈ layer, e < args.numLogicalExperts
  covers : ∀ e < args.numLogicalExperts, e ∈ layer

theorem computeLogicalToAllPhysicalMap_ok {physical : List (List Nat)} (hlength : physical.length = args.numLayers)
    (hlayers : 0 < args.numLayers) (hlogical : 0 < args.numLogicalExperts)
    (hcovers : ∀ layer ∈ physical, MappingCovers args layer) :
    ∃ logical, computeLogicalToAllPhysicalMap args.numLogicalExperts physical = .ok logical ∧
      MapsAgree args physical logical := by
  have hlayer : ∀ layer ∈ physical, ∃ out : List (List Int),
      appendPhysical layer 0 (List.replicate args.numLogicalExperts []) = .ok out ∧
        out.length = args.numLogicalExperts ∧ ∀ e < args.numLogicalExperts,
          out[e]? = some ((placesOf 0 layer e).map Nat.cast) := fun layer hmem => by
    obtain ⟨out, hrun, hlen, hrows⟩ := @appendPhysical_ok layer 0 (List.replicate args.numLogicalExperts []) (by
      rw [List.length_replicate]
      exact (hcovers layer hmem).bound)
    refine ⟨out, hrun, by rw [hlen, List.length_replicate], fun e he => ?_⟩
    exact hrows e [] (by rw [List.getElem?_replicate, if_pos he])
  obtain ⟨arr, harr⟩ := mapM_exists (fun layer hmem => (hlayer layer hmem).imp fun _ h => h.1)
  obtain ⟨hlen, hget⟩ := mapM_ok harr
  have hrows : ∀ l (hl : l < physical.length) (ha : l < arr.length), arr[l].length = args.numLogicalExperts ∧
      ∀ e < args.numLogicalExperts, arr[l][e]? = some ((placesOf 0 physical[l] e).map Nat.cast) := fun l hl ha => by
    obtain ⟨out, hrun, hspec⟩ := hlayer _ (List.getElem_mem hl)
    exact Except.ok.inj ((hget l hl ha).symm.trans hrun) ▸ hspec
  simp only [computeLogicalToAllPhysicalMap, harr, bind, Except.bind]
  cases hmax : (arr.flatMap fun outer => outer.map List.length).max? with
  | none =>
    have hpos : 0 < arr.length := by rw [hlen, hlength]; exact hlayers
    have hnil := List.flatMap_eq_nil_iff.mp (List.max?_eq_none_iff.mp hmax) _ (List.getElem_mem hpos)
    have hzero := (hrows 0 (hlen ▸ hpos) hpos).1
    rw [List.map_eq_nil_iff.mp hnil] at hzero
    exact absurd hzero (Nat.ne_of_lt hlogical)
  | some maxLen =>
    refine ⟨_, rfl, hlength, by rw [List.length_map, hlen, hlength], fun l hl => ?_⟩
    have hl' : l < physical.length := hlength ▸ hl
    have ha : l < arr.length := hlen ▸ hl'
    obtain ⟨hcount, hrow⟩ := hrows l hl' ha
    have hcover := hcovers _ (List.getElem_mem hl')
    rw [List.getD_eq_getElem _ _ hl', getD_map_map, List.getD_eq_getElem _ _ ha]
    refine ⟨hcover.length, (List.range args.numLogicalExperts).map fun e => (placesOf 0 physical[l] e).length,
      hcover.bound, by rw [List.length_map, hcount], by rw [List.length_map, List.length_range], fun e he => ?_⟩
    refine ⟨placesOf 0 physical[l] e, maxLen - (placesOf 0 physical[l] e).length, ?_, ?_, ?_, nodup_placesOf ..,
      fun p => ?_⟩
    · rw [List.getElem?_map, hrow e he, Option.map_some, List.length_map]
    · rw [List.getElem?_map, List.getElem?_range he, Option.map_some]
    · obtain ⟨p, hp⟩ := List.mem_iff_getElem?.mp (hcover.covers e he)
      exact List.ne_nil_of_mem (mem_placesOf.mpr hp)
    · rw [mem_placesOf, true_and]

theorem initCommon_ok (hshape : EpShape args gpus) :
    initCommon args = .ok (numPhysicalExperts args, gpus.numLocalGpu) := by
  simp only [initCommon, divmod, if_neg (Nat.ne_of_gt hshape.epSize_pos), hshape.numPhysical, bind, Except.bind,
    Nat.mul_mod_right, if_true, Nat.mul_div_cancel_left _ hshape.epSize_pos, numPhysicalExperts]
  rfl

theorem initByMapping_located {R : Type} (random : PyRandom R) (hshape : EpShape args gpus)
    (hlayers : 0 < args.numLayers) {physical : List (List Nat)} (hlength : physical.length = args.numLayers)
    (hcovers : ∀ layer ∈ physical, MappingCovers args layer) :
    ∃ metadata, initByMapping random args physical = .ok metadata ∧ ExpertsLocated args gpus metadata ∧
      metadata.physicalToLogicalMap = physical := by
  obtain ⟨logical, hrun, hagree⟩ :=
    computeLogicalToAllPhysicalMap_ok hlength hlayers hshape.numLogical_pos hcovers
  obtain ⟨metadata, hraw, h⟩ := initRaw_located random hshape hlayers hagree
  refine ⟨metadata, ?_, h⟩
  simp only [initByMapping, initCommon_ok hshape, hrun, bind, Except.bind]
  exact hraw

theorem initTrivial_located {R : Type} (random : PyRandom R) (hshape : EpShape args gpus)
    (hlayers : 0 < args.numLayers) :
    ∃ metadata, initTrivial random args = .ok metadata ∧ ExpertsLocated args gpus metadata := by
  have hcovers : MappingCovers args
      ((List.range (numPhysicalExperts args)).map fun p => p % args.numLogicalExperts) := by
    refine ⟨by rw [List.length_map, List.length_range], fun e he => ?_, fun e he => ?_⟩
    · obtain ⟨p, -, rfl⟩ := List.mem_map.mp he
      exact Nat.mod_lt _ hshape.numLogical_pos
    · have hlt : e < numPhysicalExperts args := Nat.lt_of_lt_of_le he (Nat.le_add_right _ _)
      exact List.mem_map.mpr ⟨e, List.mem_range.mpr hlt, Nat.mod_eq_of_lt he⟩
  obtain ⟨metadata, hrun, h, -⟩ := initByMapping_located random hshape hlayers (List.length_replicate ..)
    fun layer hlayer => (List.mem_replicate.mp hlayer).2 ▸ hcovers
  refine ⟨metadata, ?_, h⟩
  simp only [initTrivial, initCommon_ok hshape, bind, Except.bind]
  exact hrun

/-! ## `init_by_eplb` -/

/-- What the balancers ask of the arguments: whole nodes, and where groups matter whole groups on them. -/
structure EplbShape (args : EpArgs) (gpus : GpuShape) extends EpShape args gpus where
  nodes : args.epSize = gpus.numGpusPerNode * args.nnodes
  groups : computeAlgorithm args ≠ .deepseek → ∃ groupSize groupsPerNode,
    args.numGroups = some (groupsPerNode * args.nnodes) ∧
      args.numLogicalExperts = groupSize * (groupsPerNode * args.nnodes)

theorem EplbShape.numPhysical_eq (h : EplbShape args gpus) :
    numPhysicalExperts args = gpus.numLocalGpu * (gpus.numGpusPerNode * args.nnodes) := by
  rw [numPhysicalExperts, h.numPhysical, Nat.mul_comm, h.nodes]

/-- The shape when the groups matter. -/
theorem EplbShape.grouped (h : EplbShape args gpus) {groupSize groupsPerNode : Nat}
    (hlog : args.numLogicalExperts = groupSize * (groupsPerNode * args.nnodes)) :
    ∃ shape : BalanceShape, shape.numLogicalExperts = args.numLogicalExperts ∧
      shape.numPhysicalExperts = numPhysicalExperts args ∧ shape.numGpus = args.epSize ∧
      shape.numNodes = args.nnodes ∧ shape.numGroups = groupsPerNode * args.nnodes := by
  have hpos := h.numLogical_pos
  rw [hlog, ← Nat.mul_assoc] at hpos
  have henough : groupSize * groupsPerNode * args.nnodes ≤ gpus.numLocalGpu * gpus.numGpusPerNode * args.nnodes := by
    rw [Nat.mul_assoc, ← hlog, Nat.mul_assoc, ← h.numPhysical_eq]
    exact Nat.le_add_right _ _
  let shape : BalanceShape := {
    groupSize := groupSize
    groupsPerNode := groupsPerNode
    numNodes := args.nnodes
    gpusPerNode := gpus.numGpusPerNode
    room := gpus.numLocalGpu
    numNodes_pos := h.nnodes_pos
    gpusPerNode_pos := gpus.numGpusPerNode_pos
    logPerNode_pos := Nat.pos_of_mul_pos_right hpos
    enough := Nat.le_of_mul_le_mul_right henough h.nnodes_pos }
  exact ⟨shape, hlog.symm, h.numPhysical_eq.symm, h.nodes.symm, rfl, rfl⟩

/-- The shape when they do not. -/
theorem EplbShape.flat (h : EplbShape args gpus) : ∃ shape : BalanceShape,
    shape.numLogicalExperts = args.numLogicalExperts ∧ shape.numPhysicalExperts = numPhysicalExperts args ∧
      shape.numGpus = args.epSize := by
  let shape : BalanceShape := {
    groupSize := args.numLogicalExperts
    groupsPerNode := 1
    numNodes := 1
    gpusPerNode := args.epSize
    room := gpus.numLocalGpu
    numNodes_pos := Nat.one_pos
    gpusPerNode_pos := h.epSize_pos
    logPerNode_pos := by
      rw [Nat.mul_one]
      exact h.numLogical_pos
    enough := by
      rw [Nat.mul_one, Nat.mul_comm, ← h.numPhysical]
      exact Nat.le_add_right _ _ }
  refine ⟨shape, Nat.mul_one _, ?_, Nat.mul_one _⟩
  rw [numPhysicalExperts, h.numPhysical, Nat.mul_comm args.epSize]
  exact congrArg (gpus.numLocalGpu * ·) (Nat.mul_one _)

theorem rebalanceByAlgorithm_ok (sort : DescendingSort) (h : EplbShape args gpus) {weight : List (Nat → Rat)}
    (hweight : weight ≠ []) :
    ∃ maps, rebalanceByAlgorithm sort args weight (numPhysicalExperts args) gpus.numLocalGpu
        (List.replicate args.epSize true) = .ok maps ∧
      MapsPlaced (fun _ => True) args.numLogicalExperts (numPhysicalExperts args) weight.length maps := by
  have hgpus : divmod (numPhysicalExperts args) gpus.numLocalGpu = .ok (args.epSize, 0) := by
    rw [divmod, if_neg (Nat.ne_of_gt gpus.numLocalGpu_pos), numPhysicalExperts, h.numPhysical,
      Nat.mul_div_cancel _ gpus.numLocalGpu_pos, Nat.mul_mod_left]
  simp only [rebalanceByAlgorithm, hgpus, bind, Except.bind]
  cases halgorithm : computeAlgorithm args with
  | deepseek =>
    obtain ⟨shape, hlog, hphys, hranks⟩ := h.flat
    obtain ⟨maps, hrun, hplaced, -⟩ := rebalanceExperts_layers sort shape false hweight
    rw [hlog, hphys] at hplaced
    rw [hlog, hphys, hranks] at hrun
    exact ⟨maps, hrun, hplaced⟩
  | deepseekHierarchical =>
    obtain ⟨groupSize, groupsPerNode, hgroups, hlogical⟩ := h.groups (by rw [halgorithm]; decide)
    obtain ⟨shape, hlog, hphys, hranks, hnodes, hgroupsEq⟩ := h.grouped hlogical
    obtain ⟨maps, hrun, hplaced, -⟩ := rebalanceExperts_layers sort shape true hweight
    rw [hlog, hphys] at hplaced
    rw [hlog, hphys, hranks, hnodes, hgroupsEq] at hrun
    rw [hgroups]
    exact ⟨maps, hrun, hplaced⟩
  | elasticityAware =>
    obtain ⟨groupSize, groupsPerNode, hgroups, hlogical⟩ := h.groups (by rw [halgorithm]; decide)
    obtain ⟨shape, hlog, hphys, hranks, hnodes, hgroupsEq⟩ := h.grouped hlogical
    obtain ⟨maps, hrun, hplaced⟩ := @rebalanceExpertsElastic_active sort shape true weight hweight
      (List.replicate args.epSize true) (by rw [List.count_replicate_self, hranks])
    rw [hlog, hphys] at hplaced
    rw [hlog, hphys, hranks, hnodes, hgroupsEq] at hrun
    rw [hgroups]
    exact ⟨maps, hrun, hplaced⟩

theorem initByEplb_located {R : Type} (sort : DescendingSort) (random : PyRandom R) (h : EplbShape args gpus)
    (hlayers : 0 < args.numLayers) {weight : List (Nat → Rat)} (hlength : weight.length = args.numLayers) :
    ∃ metadata, initByEplb sort random args (List.replicate args.epSize true) weight = .ok metadata ∧
      ExpertsLocated args gpus metadata := by
  have hne : weight ≠ [] := List.ne_nil_of_length_pos (hlength ▸ hlayers)
  obtain ⟨maps, hrun, hplaced⟩ := rebalanceByAlgorithm_ok sort h hne
  rw [hlength] at hplaced
  obtain ⟨metadata, hraw, hlocated, -⟩ := initRaw_located random h.toEpShape hlayers
    ⟨hplaced.physical, hplaced.logical, fun l hl => by
      obtain ⟨phy2log, log2phy, logcnt, hlayer, hlen, hthis⟩ := hplaced.layer l hl
      obtain ⟨hphys, hlog, -⟩ := layerMaps_rows hlayer
      rw [List.getD_eq_getElem?_getD, hphys, List.getD_eq_getElem?_getD, hlog]
      exact ⟨hlen, logcnt, hthis⟩⟩
  refine ⟨metadata, ?_, hlocated⟩
  simp only [initByEplb, initCommon_ok h.toEpShape, hrun, bind, Except.bind]
  exact hraw

/-! ## `update` -/

theorem whereUpdated_getD {α : Type} (updateLayerIds : List Nat) {other self : List α}
    (hlength : other.length = self.length) (l : Nat) (d : α) :
    (whereUpdated updateLayerIds other self).getD l d =
      if l ∈ updateLayerIds then other.getD l d else self.getD l d := by
  simp only [whereUpdated, List.getD_eq_getElem?_getD, List.getElem?_zipWith, List.getElem?_zipIdx]
  by_cases hl : l < self.length
  · rw [List.getElem?_eq_getElem hl, List.getElem?_eq_getElem (hlength ▸ hl)]
    simp only [Option.map_some, Nat.zero_add, Option.getD_some]
  · rw [List.getElem?_eq_none (Nat.le_of_not_lt hl), List.getElem?_eq_none (hlength ▸ Nat.le_of_not_lt hl)]
    simp

theorem whereUpdated_length {α : Type} (updateLayerIds : List Nat) {other self : List α}
    (hlength : other.length = self.length) : (whereUpdated updateLayerIds other self).length = self.length := by
  rw [whereUpdated, List.length_zipWith, List.length_zipIdx, hlength, Nat.min_self]

/-- An update takes whole layers from the other metadata. -/
theorem ExpertsLocated.update {self other : ExpertLocationMetadata} (hlayers : 0 < args.numLayers)
    (h : ExpertsLocated args gpus self) (h' : ExpertsLocated args gpus other) (updateLayerIds : List Nat) :
    ∃ updated, self.update other updateLayerIds = .ok updated ∧ ExpertsLocated args gpus updated ∧
      ∀ l, updated.physicalToLogicalMap.getD l [] =
        if l ∈ updateLayerIds then other.physicalToLogicalMap.getD l [] else self.physicalToLogicalMap.getD l [] := by
  have hphysical := h'.physical.trans h.physical.symm
  have hall := h'.all.trans h.all.symm
  have hnumValid := h'.numValid.trans h.numValid.symm
  have hstatic := (h.layer 0 hlayers).static
  have hstatic' := (h'.layer 0 hlayers).static
  rw [Option.isSome_map] at hstatic hstatic'
  -- what is left to do when the dispatch maps are known
  have hmain : ∀ dispatch : Option (List (List (List Int))),
      (∀ map, dispatch = some map → map.length = args.numLayers) →
      (∀ l, (dispatch.map fun map => map.getD l []) = if l ∈ updateLayerIds then
        other.logicalToRankDispatchPhysicalMap.map fun map => map.getD l []
        else self.logicalToRankDispatchPhysicalMap.map fun map => map.getD l []) →
      ExpertsLocated args gpus {
        physicalToLogicalMap := whereUpdated updateLayerIds other.physicalToLogicalMap self.physicalToLogicalMap
        logicalToAllPhysicalMap :=
          whereUpdated updateLayerIds other.logicalToAllPhysicalMap self.logicalToAllPhysicalMap
        logicalToAllPhysicalMapNumValid :=
          whereUpdated updateLayerIds other.logicalToAllPhysicalMapNumValid self.logicalToAllPhysicalMapNumValid
        logicalToRankDispatchPhysicalMap := dispatch } := fun dispatch hlength hrows => by
    refine ⟨?_, ?_, ?_, hlength, fun l hl => ?_⟩
    · rw [whereUpdated_length _ hphysical, h.physical]
    · rw [whereUpdated_length _ hall, h.all]
    · rw [whereUpdated_length _ hnumValid, h.numValid]
    · rw [whereUpdated_getD _ hphysical, whereUpdated_getD _ hall, whereUpdated_getD _ hnumValid, hrows l]
      by_cases hmem : l ∈ updateLayerIds
      · rw [if_pos hmem, if_pos hmem, if_pos hmem, if_pos hmem]
        exact h'.layer l hl
      · rw [if_neg hmem, if_neg hmem, if_neg hmem, if_neg hmem]
        exact h.layer l hl
  rw [ExpertLocationMetadata.update]
  cases hself : self.logicalToRankDispatchPhysicalMap with
  | none =>
    cases hother : other.logicalToRankDispatchPhysicalMap with
    | none =>
      refine ⟨_, rfl, hmain none (fun map hmap => by cases hmap) fun l => ?_,
        fun l => whereUpdated_getD _ hphysical l []⟩
      rw [hself, hother]
      split <;> rfl
    | some map =>
      rw [hself] at hstatic
      rw [hother] at hstatic'
      cases hstatic.mpr (hstatic'.mp rfl)
  | some map =>
    cases hother : other.logicalToRankDispatchPhysicalMap with
    | none =>
      rw [hself] at hstatic
      rw [hother] at hstatic'
      cases hstatic'.mpr (hstatic.mp rfl)
    | some map' =>
      have hlength := (h'.dispatch map' hother).trans (h.dispatch map hself).symm
      refine ⟨_, rfl, hmain (some (whereUpdated updateLayerIds map' map)) (fun updated hupdated => ?_) fun l => ?_,
        fun l => whereUpdated_getD _ hphysical l []⟩
      · cases hupdated
        rw [whereUpdated_length _ hlength, h.dispatch map hself]
      · rw [hself, hother, Option.map_some, whereUpdated_getD _ hlength]
        split <;> rfl

/-! ## `topk_ids_logical_to_physical` -/

theorem RowLists.unique {ids ids' : List Nat} {row : List Int} (h : RowLists ids row) (h' : RowLists ids' row) :
    ids = ids' := by
  obtain ⟨-, -, pad, rfl⟩ := h
  obtain ⟨-, -, pad', heq⟩ := h'
  have hraw := congrArg logicalToAllPhysicalRaw heq
  rw [logicalToAllPhysicalRaw_row, logicalToAllPhysicalRaw_row] at hraw
  exact List.map_injective_iff.mpr Nat.cast_injective hraw

theorem getIndex_ok {α : Type} {xs : List α} {i : Nat} {x : α} (h : xs[i]? = some x) : getIndex xs i = .ok x := by
  rw [getIndex, h]

theorem getIndex_getD {α : Type} {xs : List (List α)} {i : Nat} (h : i < xs.length) :
    getIndex xs i = .ok (xs.getD i []) :=
  getIndex_ok (by rw [List.getElem?_eq_getElem h, List.getD_eq_getElem _ _ h])

/-- Whatever is drawn, the physical expert is a replica of the logical one. -/
theorem ExpertsLocated.topk {algorithm : EpDispatchAlgorithm} (h : ExpertsLocated args gpus metadata)
    (halgorithm : args.epDispatchAlgorithm = some algorithm) {l rank e : Nat} (hl : l < args.numLayers)
    (hrank : rank < args.epSize) (he : e < args.numLogicalExperts) (randint : Nat) :
    ∃ p : Nat, topkIdLogicalToPhysical metadata args.epDispatchAlgorithm l rank e randint = .ok p ∧
      (metadata.physicalToLogicalMap.getD l [])[p]? = some e := by
  have hlayer := h.layer l hl
  obtain ⟨ids, pad, hrow, hcount, hne, hnodup, hmem⟩ := hlayer.placed.ids e he
  have hlists : RowLists ids (ids.map Nat.cast ++ List.replicate pad (-1)) := ⟨hne, hnodup, pad, rfl⟩
  have hdynamic : ∃ p : Nat, (do
      let numValid ← getIndex (← getIndex metadata.logicalToAllPhysicalMapNumValid l) e
      let chosen ← divmod randint numValid
      getIndex (← getIndex (← getIndex metadata.logicalToAllPhysicalMap l) e) chosen.2) = .ok (p : Int) ∧
        (metadata.physicalToLogicalMap.getD l [])[p]? = some e := by
    have hpos : 0 < ids.length := List.length_pos_iff.mpr hne
    have hlt := Nat.mod_lt randint hpos
    refine ⟨ids[randint % ids.length], ?_, ((hmem _).mp (List.getElem_mem hlt)).2⟩
    simp only [getIndex_getD (h.numValid ▸ hl), getIndex_getD (h.all ▸ hl), getIndex_ok hcount, getIndex_ok hrow,
      divmod, if_neg (Nat.ne_of_gt hpos), bind, Except.bind]
    refine getIndex_ok ?_
    rw [List.getElem?_append_left (by rwa [List.length_map]), List.getElem?_map, List.getElem?_eq_getElem hlt,
      Option.map_some]
  rw [halgorithm]
  cases algorithm with
  | dynamic => exact hdynamic
  | fake => exact hdynamic
  | static =>
    have hsome := hlayer.static.mpr halgorithm
    rw [Option.isSome_map] at hsome
    obtain ⟨map, hmap⟩ := Option.isSome_iff_exists.mp hsome
    have hrows := hlayer.dispatched (map.getD l []) (by rw [hmap, Option.map_some])
    have hall : e < (metadata.logicalToAllPhysicalMap.getD l []).length := hlayer.placed.rows ▸ he
    have hdispatch : e < (map.getD l []).length := hrows.length_eq ▸ hall
    obtain ⟨ids', choice, hlists', hchoice, hfair⟩ := (List.forall₂_iff_get.mp hrows).2 e hall hdispatch
    rw [List.getElem?_eq_getElem hall, Option.some_inj] at hrow
    rw [List.get_eq_getElem, hrow] at hlists'
    obtain rfl := hlists.unique hlists'
    have hlen : rank < choice.length := hfair.length ▸ hrank
    refine ⟨choice[rank], ?_, ((hmem _).mp (hfair.replica _ (List.getElem_mem hlen))).2⟩
    simp only [topkIdLogicalToPhysical, hmap, getIndex_getD (h.dispatch map hmap ▸ hl),
      getIndex_ok (List.getElem?_eq_getElem hdispatch), bind, Except.bind]
    rw [List.get_eq_getElem] at hchoice
    rw [hchoice]
    exact getIndex_ok (by rw [List.getElem?_map, List.getElem?_eq_getElem hlen, Option.map_some])

end QCFuse.Guarantees
