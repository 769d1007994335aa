import QCFuse.Guarantees.ExpertMigration
import QCFuse.Guarantees.ExpertRecording

/-!
# Rebalancing between the forward passes

In a run of the manager no pass raises and no rank waits for ever, and every slot holds the weights of the
expert that the maps name for it. So a token reaches the weights of the expert that was chosen for it, also
between two chunks of one rebalancing.
-/

set_option autoImplicit false

namespace QCFuse.Guarantees

open QCFuse.Library QCFuse.Source

variable {W : Type} {config : EplbConfig} {gpus : GpuShape}

/-! ## One layer -/

/-- Every slot of a layer holds the weights of its expert. -/
def LayerHolds (config : EplbConfig) (gpus : GpuShape) (expert : Nat → Nat → W) (phy2log : List Nat)
    (weights : Nat → ExpertTensors W) : Prop :=
  ∀ p e, phy2log[p]? = some e → ∀ i < config.numTensors,
    weights (p / gpus.numLocalGpu) i (p % gpus.numLocalGpu) = expert e i

/-- The layouts that the maps of a layer give. -/
structure LayoutsOf (config : EplbConfig) (gpus : GpuShape) (oldMap newMap : List Nat) (layouts : ExpertLayouts) :
    Prop where
  worldSize : layouts.worldSize = config.epSize
  room : layouts.numLocalPhysicalExperts = gpus.numLocalGpu
  numTensors : layouts.numTensors = config.numTensors
  old : layouts.oldPhysicalToLogicalMap = oldMap.map Nat.cast
  new : layouts.newPhysicalToLogicalMap = newMap.map Nat.cast

theorem layerLayouts_ok (h : EplbShape config.toEpArgs gpus) {oldMap newMap : List Nat}
    (hold : oldMap.length = numPhysicalExperts config.toEpArgs)
    (hnew : newMap.length = numPhysicalExperts config.toEpArgs) :
    ∃ layouts, layerLayouts config oldMap newMap = .ok layouts ∧ LayoutsOf config gpus oldMap newMap layouts := by
  have hphys : numPhysicalExperts config.toEpArgs = config.epSize * gpus.numLocalGpu := h.numPhysical
  have hroom : oldMap.length / config.epSize = gpus.numLocalGpu := by
    rw [hold, hphys, Nat.mul_div_cancel_left _ h.epSize_pos]
  have hold' : oldMap.length = config.epSize * (oldMap.length / config.epSize) := by rw [hroom, hold, hphys]
  have hnew' : newMap.length = config.epSize * (oldMap.length / config.epSize) := by rw [hroom, hnew, hphys]
  have hgpus : 0 < config.epSize / config.nnodes := by
    rw [h.numGpusPerNode]
    exact gpus.numGpusPerNode_pos
  simp only [layerLayouts, divmod, if_neg (Nat.ne_of_gt h.epSize_pos), if_neg (Nat.ne_of_gt h.nnodes_pos), bind,
    Except.bind]
  rw [dif_pos hold', dif_pos hnew', dif_pos hgpus]
  exact ⟨_, rfl, rfl, hroom, rfl, rfl, rfl⟩

theorem PlacedOn.covers {live : Nat → Prop} {numLogical : Nat} {phy2log : List Nat} {log2phy : List (List Int)}
    {logcnt : List Nat} (h : PlacedOn live numLogical phy2log log2phy logcnt) {e : Nat} (he : e < numLogical) :
    e ∈ phy2log := by
  obtain ⟨ids, -, -, -, hne, -, hmem⟩ := h.ids e he
  obtain ⟨p, hp⟩ := List.exists_mem_of_ne_nil ids hne
  exact List.mem_of_getElem? ((hmem p).mp hp).2

/-- The update of a layer ends, and every slot then holds the weights of its new expert. -/
theorem layer_migrated {oldMap newMap : List Nat} {layouts : ExpertLayouts}
    (h : LayoutsOf config gpus oldMap newMap layouts) (hcovers : ∀ e ∈ newMap, e ∈ oldMap)
    {expert : Nat → Nat → W} {weights : Nat → ExpertTensors W}
    (hholds : LayerHolds config gpus expert oldMap weights) (tempBuffers : Nat → ExpertTensors W) :
    ∃ after, layouts.updateExpertWeightsSingleLayer weights tempBuffers = .ok (some after) ∧
      LayerHolds config gpus expert newMap fun rank => after.getD rank (weights rank) := by
  have hcovers' : CoversNew layouts := by
    intro e he
    rw [h.new] at he
    obtain ⟨n, hn, rfl⟩ := List.mem_map.mp he
    rw [h.old]
    exact List.mem_map_of_mem (hcovers n hn)
  obtain ⟨plans, sendSlot, recvSlot, hplans, hall⟩ := preparePlans_planned hcovers' weights tempBuffers
  obtain ⟨after, hafter, hlength, hslots⟩ := migrated_layer hcovers' hplans hall
  have hold := layouts.oldLength
  have hnew := layouts.newLength
  rw [h.old, List.length_map, h.worldSize, h.room] at hold
  rw [h.new, List.length_map, h.worldSize, h.room] at hnew
  refine ⟨after, hafter, fun p e hp i hi => ?_⟩
  have hlt : p < gpus.numLocalGpu * config.epSize := by
    rw [Nat.mul_comm, ← hnew]
    exact (List.getElem?_eq_some_iff.mp hp).1
  have hrank : p / gpus.numLocalGpu < after.length := by
    rw [hlength, h.worldSize]
    exact Nat.div_lt_of_lt_mul hlt
  have hslot : p % gpus.numLocalGpu < layouts.numLocalPhysicalExperts := by
    rw [h.room]
    exact Nat.mod_lt p gpus.numLocalGpu_pos
  obtain ⟨origin, horigin, hexpert, hrows⟩ := hslots (p / gpus.numLocalGpu) hrank (p % gpus.numLocalGpu) hslot
  rw [h.worldSize, h.room, ← hold] at horigin
  rw [h.room, Nat.div_add_mod', ExpertLayouts.old, ExpertLayouts.new, h.old, h.new, List.getD_eq_getElem?_getD,
    List.getD_eq_getElem?_getD, List.getElem?_map, List.getElem?_map, hp, List.getElem?_eq_getElem horigin] at hexpert
  have hsame : oldMap[origin] = e := Int.ofNat.inj hexpert
  have hrow := hrows i (h.numTensors ▸ hi)
  rw [h.room] at hrow
  show after.getD (p / gpus.numLocalGpu) _ i (p % gpus.numLocalGpu) = expert e i
  rw [List.getD_eq_getElem _ _ hrank]
  exact hrow.trans (hholds origin e (hsame ▸ List.getElem?_eq_getElem horigin) i hi)

/-! ## One chunk of layers -/

section Chunk

variable {self other : ExpertLocationMetadata} {expert : Nat → Nat → Nat → W}

theorem updateExpertWeightsRaw_ok (hshape : EplbShape config.toEpArgs gpus)
    (h : ExpertsLocated config.toEpArgs gpus self) (h' : ExpertsLocated config.toEpArgs gpus other)
    (tempBuffers : Nat → Nat → ExpertTensors W) {layerIds : List Nat} (hnodup : layerIds.Nodup)
    (hlt : ∀ l ∈ layerIds, l < config.numLayers) (weights : Nat → Nat → ExpertTensors W)
    (hholds : ∀ l ∈ layerIds,
      LayerHolds config gpus (expert l) (self.physicalToLogicalMap.getD l []) (weights l)) :
    ∃ weights', updateExpertWeightsRaw config self other tempBuffers layerIds weights = .ok (some weights') ∧
      (∀ l ∈ layerIds, LayerHolds config gpus (expert l) (other.physicalToLogicalMap.getD l []) (weights' l)) ∧
      ∀ l ∉ layerIds, weights' l = weights l := by
  induction layerIds generalizing weights with
  | nil => exact ⟨weights, rfl, fun l hl => absurd hl List.not_mem_nil, fun l _ => rfl⟩
  | cons layerId layerIds ih =>
    obtain ⟨hnotin, hnodup⟩ := List.nodup_cons.mp hnodup
    have hl := hlt layerId List.mem_cons_self
    have hlayer := h.layer layerId hl
    have hlayer' := h'.layer layerId hl
    obtain ⟨layouts, hlayouts, hof⟩ := layerLayouts_ok hshape hlayer.length hlayer'.length
    obtain ⟨after, hafter, hnew⟩ := layer_migrated hof
      (fun e he => hlayer.placed.covers (hlayer'.placed.bound e he)) (hholds layerId List.mem_cons_self)
      (tempBuffers layerId)
    have hne : ∀ l ∈ layerIds, l ≠ layerId := fun l hl heq => hnotin (heq ▸ hl)
    obtain ⟨weights', hrun, hdone, hother⟩ := ih hnodup (fun l hl => hlt l (List.mem_cons_of_mem _ hl))
      (Function.update weights layerId fun rank => after.getD rank (weights layerId rank)) fun l hl => by
        rw [Function.update_of_ne (hne l hl)]
        exact hholds l (List.mem_cons_of_mem _ hl)
    refine ⟨weights', ?_, fun l hl => ?_, fun l hl => ?_⟩
    · simp only [updateExpertWeightsRaw, getIndex_getD (h.physical ▸ hl), getIndex_getD (h'.physical ▸ hl), hlayouts,
        hafter, bind, Except.bind]
      exact hrun
    · rcases List.mem_cons.mp hl with rfl | hl
      · rw [hother l hnotin, Function.update_self]
        exact hnew
      · exact hdone l hl
    · rw [hother l fun hmem => hl (List.mem_cons_of_mem _ hmem),
        Function.update_of_ne fun heq : l = layerId => hl (heq ▸ List.mem_cons_self)]

end Chunk

/-! ## The manager between two passes -/

/-- Every slot of every layer holds the weights of its expert. -/
def WeightsHold (config : EplbConfig) (gpus : GpuShape) (expert : Nat → Nat → Nat → W)
    (metadata : ExpertLocationMetadata) (weights : Nat → Nat → ExpertTensors W) : Prop :=
  ∀ l ∈ config.allLayerIds,
    LayerHolds config gpus (expert l) (metadata.physicalToLogicalMap.getD l []) (weights l)

/-- The buffer takes another pass. -/
def BufferTakes : CountBuffer → Prop
  | .circular buffer currIndex => currIndex < buffer.length
  | .infinite buffer size => 0 < buffer.length ∧ size ≤ buffer.length

/-- What a rebalancing still has to do can be done. -/
def PhaseFits (config : EplbConfig) (gpus : GpuShape) : EplbPhase → Prop
  | .counting _ => True
  | .updating metadata chunks =>
    ExpertsLocated config.toEpArgs gpus metadata ∧ ∀ chunk ∈ chunks, chunk.Sublist config.allLayerIds

/-- What every forward pass finds. -/
structure EplbInvariant (config : EplbConfig) (gpus : GpuShape) (expert : Nat → Nat → Nat → W)
    (state : EplbState W) : Prop where
  located : ExpertsLocated config.toEpArgs gpus state.metadata
  holds : WeightsHold config gpus expert state.metadata state.weights
  takes : BufferTakes state.buffer
  phase : PhaseFits config gpus state.phase

theorem BufferTakes.initNew {size : Int} (hsize : size ≠ 0) : BufferTakes (CountBuffer.initNew size) := by
  rw [CountBuffer.initNew]
  split
  · exact ⟨by rw [List.length_replicate]; omega, Nat.zero_le _⟩
  · show 0 < (List.replicate size.toNat (0 : PassCount)).length
    rw [List.length_replicate]
    omega

theorem BufferTakes.append {buffer : CountBuffer} (h : BufferTakes buffer) (value : PassCount) :
    ∃ after, buffer.append value = .ok after ∧ BufferTakes after := by
  cases buffer with
  | circular buffer currIndex =>
    refine ⟨_, if_pos h, ?_⟩
    show (currIndex + 1) % buffer.length < (buffer.set currIndex value).length
    rw [List.length_set]
    exact Nat.mod_lt _ (Nat.lt_of_le_of_lt (Nat.zero_le _) h)
  | infinite buffer size =>
    obtain ⟨hpos, hle⟩ := h
    -- a full buffer is doubled first
    have hgrown : ∀ grown : List PassCount, size < grown.length →
        BufferTakes (.infinite (grown.set size value) (size + 1)) := fun grown hlt => by
      refine ⟨?_, ?_⟩ <;> rw [List.length_set] <;> omega
    by_cases hfull : size = buffer.length
    · have hlt : size < (buffer ++ List.replicate buffer.length (0 : PassCount)).length := by
        rw [List.length_append, List.length_replicate]
        omega
      refine ⟨_, ?_, hgrown _ hlt⟩
      simp only [CountBuffer.append]
      rw [if_pos hfull, if_pos hlt]
    · have hlt : size < buffer.length := by omega
      refine ⟨_, ?_, hgrown _ hlt⟩
      simp only [CountBuffer.append]
      rw [if_neg hfull, if_pos hlt]

theorem BufferTakes.reset {buffer : CountBuffer} (h : BufferTakes buffer) : BufferTakes buffer.reset := by
  cases buffer with
  | circular buffer currIndex =>
    show currIndex < (buffer.map fun _ => (0 : PassCount)).length
    rwa [List.length_map]
  | infinite buffer size => exact ⟨by rw [List.length_map]; exact h.1, Nat.zero_le _⟩

theorem mem_computeUpdateLayerIdsChunks {chunk : List Nat} (h : chunk ∈ computeUpdateLayerIdsChunks config) :
    chunk.Sublist config.allLayerIds := by
  obtain ⟨i, -, rfl⟩ := List.mem_map.mp h
  exact (List.take_sublist _ _).trans (List.drop_sublist _ _)

section Manager

variable {R : Type} {expert : Nat → Nat → Nat → W} {state : EplbState W}

/-- A chunk of layers is moved; the others stay as they are. -/
theorem updateExpertLocation_ok (hfits : ConfigFits config gpus) (h : EplbInvariant config gpus expert state)
    (input : PassInput W) {other : ExpertLocationMetadata} (h' : ExpertsLocated config.toEpArgs gpus other)
    {chunk : List Nat} (hchunk : chunk.Sublist config.allLayerIds) :
    ∃ after, updateExpertLocation config input other chunk state = .ok (some after) ∧
      EplbInvariant config gpus expert after ∧ after.buffer = state.buffer := by
  obtain ⟨weights, hweights, hdone, hother⟩ := updateExpertWeightsRaw_ok hfits.shape h.located h' input.tempBuffers
    (hfits.layers_nodup.sublist hchunk) (fun l hl => hfits.layers_lt l (hchunk.subset hl)) state.weights
    fun l hl => h.holds l (hchunk.subset hl)
  obtain ⟨metadata, hmetadata, hlocated, hmaps⟩ := h.located.update hfits.layers_pos h' chunk
  refine ⟨{ state with weights, metadata }, ?_, ⟨hlocated, fun l hl => ?_, h.takes, h.phase⟩, rfl⟩
  · simp only [updateExpertLocation, hweights, hmetadata, bind, Except.bind, pure, Except.pure]
  · show LayerHolds config gpus (expert l) (metadata.physicalToLogicalMap.getD l []) (weights l)
    by_cases hmem : l ∈ chunk
    · rw [hmaps, if_pos hmem]
      exact hdone l hmem
    · rw [hmaps, if_neg hmem, hother l hmem]
      exact h.holds l hl

theorem EplbInvariant.withPhase (h : EplbInvariant config gpus expert state) {phase : EplbPhase}
    (hphase : PhaseFits config gpus phase) : EplbInvariant config gpus expert { state with phase } :=
  ⟨h.located, h.holds, h.takes, hphase⟩

theorem counting_one (done : Nat) (h : EplbPhase.counting 1 = .counting done) : done = 1 :=
  (EplbPhase.counting.inj h).symm

/-- What the end of a pass does to the record: the counting goes on, or it begins again. -/
def CountsOn (config : EplbConfig) (state after : EplbState W) : Prop :=
  (∃ done, state.phase = .counting done ∧ done < config.eplbRebalanceNumIterations ∧
    after = { state with phase := .counting (done + 1) }) ∨
  (after.buffer = state.buffer ∨ after.buffer = state.buffer.reset) ∧ ∀ done, after.phase = .counting done → done = 1

theorem rebalance_ok (sort : DescendingSort) (random : PyRandom R) (hfits : ConfigFits config gpus)
    (h : EplbInvariant config gpus expert state) (input : PassInput W) :
    ∃ after, rebalance sort random config input state = .ok (some after) ∧
      EplbInvariant config gpus expert after ∧ after.buffer = state.buffer.reset ∧
      ∀ done, after.phase = .counting done → done = 1 := by
  have hreset : EplbInvariant config gpus expert { state with buffer := state.buffer.reset } :=
    ⟨h.located, h.holds, h.takes.reset, h.phase⟩
  rw [rebalance]
  split
  next hneeded =>
    have hlength : (tokensPerExpert config.epSize state.metadata state.buffer).length = config.numLayers := by
      rw [tokensPerExpert, List.length_map, List.length_zipIdx, h.located.physical]
    obtain ⟨other, hother, hlocated⟩ := initByEplb_located sort random hfits.shape hfits.layers_pos hlength
    simp only [hother, bind, Except.bind]
    have hchunks : ∀ chunk ∈ computeUpdateLayerIdsChunks config, chunk.Sublist config.allLayerIds :=
      fun chunk => mem_computeUpdateLayerIdsChunks
    cases hc : computeUpdateLayerIdsChunks config with
    | nil => exact ⟨_, rfl, hreset.withPhase trivial, rfl, counting_one⟩
    | cons chunk chunks =>
      rw [hc] at hchunks
      cases chunks with
      | nil =>
        obtain ⟨after, hafter, hinv, hbuffer⟩ := updateExpertLocation_ok hfits hreset input hlocated
          (hchunks chunk List.mem_cons_self)
        simp only [hafter]
        exact ⟨_, rfl, hinv.withPhase trivial, hbuffer, counting_one⟩
      | cons chunk' chunks =>
        refine ⟨_, rfl, hreset.withPhase ⟨hlocated, hchunks⟩, rfl, fun done hdone => ?_⟩
        cases hdone
  next hneeded => exact ⟨_, rfl, hreset.withPhase trivial, rfl, counting_one⟩

theorem onForwardPassEnd_ok (sort : DescendingSort) (random : PyRandom R) (hfits : ConfigFits config gpus)
    (h : EplbInvariant config gpus expert state) (input : PassInput W) :
    ∃ after, onForwardPassEnd sort random config input state = .ok (some after) ∧
      EplbInvariant config gpus expert after ∧ CountsOn config state after := by
  have hphase := h.phase
  cases hstate : state.phase with
  | counting done =>
    simp only [onForwardPassEnd, hstate]
    split
    next hdone => exact ⟨_, rfl, h.withPhase trivial, .inl ⟨done, hstate, hdone, rfl⟩⟩
    next hdone =>
      obtain ⟨after, hafter, hinv, hbuffer, hphase⟩ := rebalance_ok sort random hfits h input
      exact ⟨after, hafter, hinv, .inr ⟨.inr hbuffer, hphase⟩⟩
  | updating other chunks =>
    rw [hstate] at hphase
    obtain ⟨hlocated, hchunks⟩ := hphase
    cases chunks with
    | nil =>
      simp only [onForwardPassEnd, hstate]
      exact ⟨_, rfl, h.withPhase trivial, .inr ⟨.inl rfl, counting_one⟩⟩
    | cons chunk chunks =>
      obtain ⟨after, hafter, hinv, hbuffer⟩ := updateExpertLocation_ok hfits h input hlocated
        (hchunks chunk List.mem_cons_self)
      simp only [onForwardPassEnd, hstate, hafter, bind, Except.bind]
      by_cases hnil : chunks = []
      · refine ⟨_, rfl, hinv.withPhase ?_, .inr ⟨.inl hbuffer, fun done hdone => counting_one done ?_⟩⟩
        · rw [if_pos hnil]
          trivial
        · exact (if_pos hnil).symm.trans hdone
      · refine ⟨_, rfl, hinv.withPhase ?_, .inr ⟨.inl hbuffer, fun done hdone => ?_⟩⟩
        · rw [if_neg hnil]
          exact ⟨hlocated, fun chunk hchunk => hchunks chunk (List.mem_cons_of_mem _ hchunk)⟩
        · cases (if_neg hnil).symm.trans hdone

/-- A pass and what follows it keep the invariant. -/
theorem eplbStep_ok (sort : DescendingSort) (random : PyRandom R) (hfits : ConfigFits config gpus)
    (h : EplbInvariant config gpus expert state) {input : PassInput W} (hinput : InputFits config input) :
    ∃ count buffer after, CountsTokens config state.metadata input count ∧ state.buffer.append count = .ok buffer ∧
      eplbStep sort random config input state = onForwardPassEnd sort random config input { state with buffer } ∧
      eplbStep sort random config input state = .ok (some after) ∧
      EplbInvariant config gpus expert after ∧ CountsOn config { state with buffer } after := by
  obtain ⟨count, hcount, hcounts⟩ := gatherPass_ok hfits h.located hinput
  obtain ⟨buffer, hbuffer, htakes⟩ := h.takes.append count
  have hrecorded : EplbInvariant config gpus expert { state with buffer } :=
    ⟨h.located, h.holds, htakes, h.phase⟩
  obtain ⟨after, hafter, hinv, hcounting⟩ := onForwardPassEnd_ok sort random hfits hrecorded input
  have hstep : eplbStep sort random config input state =
      onForwardPassEnd sort random config input { state with buffer } := by
    simp only [eplbStep, hcount, hbuffer, bind, Except.bind]
  exact ⟨count, buffer, after, hcounts, hbuffer, hstep, hstep.trans hafter, hinv, hcounting⟩

/-- And so does a run. -/
theorem eplbRun_ok (sort : DescendingSort) (random : PyRandom R) (hfits : ConfigFits config gpus)
    {inputs : List (PassInput W)} (hinputs : ∀ input ∈ inputs, InputFits config input)
    (h : EplbInvariant config gpus expert state) :
    ∃ after, eplbRun sort random config inputs state = .ok (some after) ∧
      EplbInvariant config gpus expert after := by
  induction inputs generalizing state with
  | nil => exact ⟨state, rfl, h⟩
  | cons input inputs ih =>
    obtain ⟨-, -, next, -, -, -, hnext, hinv, -⟩ := eplbStep_ok sort random hfits h (hinputs input List.mem_cons_self)
    obtain ⟨after, hafter, hinv⟩ := ih (fun other hother => hinputs other (List.mem_cons_of_mem _ hother)) hinv
    refine ⟨after, ?_, hinv⟩
    simp only [eplbRun, hnext, bind, Except.bind]
    exact hafter

end Manager

/-! ## From the start -/

theorem EplbInvariant.start {expert : Nat → Nat → Nat → W} {metadata : ExpertLocationMetadata}
    {weights : Nat → Nat → ExpertTensors W} (hsize : config.expertDistributionRecorderBufferSize ≠ 0)
    (hlocated : ExpertsLocated config.toEpArgs gpus metadata)
    (hholds : WeightsHold config gpus expert metadata weights) :
    EplbInvariant config gpus expert (.start config metadata weights) :=
  ⟨hlocated, hholds, BufferTakes.initNew hsize, trivial⟩

/-- A row's physical expert has the weights of the logical one, and is -1 in the padded rows. -/
def ReachesExpert (config : EplbConfig) (gpus : GpuShape) (expert : Nat → Nat → W) (weights : Nat → ExpertTensors W)
    (topkId : Option Nat) (id : Int) : Prop :=
  match topkId with
  | none => id = -1
  | some e => ∃ p : Nat, id = p ∧ p < numPhysicalExperts config.toEpArgs ∧ ∀ i < config.numTensors,
      weights (p / gpus.numLocalGpu) i (p % gpus.numLocalGpu) = expert e i

theorem EplbInvariant.reaches {expert : Nat → Nat → Nat → W} {state : EplbState W}
    (hfits : ConfigFits config gpus) (h : EplbInvariant config gpus expert state) {input : PassInput W}
    (hinput : InputFits config input) {rank l : Nat} (hrank : rank < config.epSize) (hl : l ∈ config.allLayerIds) :
    ∃ ids, selectedExperts config state.metadata input rank l = .ok ids ∧
      List.Forall₂ (ReachesExpert config gpus (expert l) (state.weights l)) (input.topkIds rank l) ids := by
  have hlt := hfits.layers_lt l hl
  obtain ⟨ids, hrun, hrouted⟩ := selectedExperts_ok hfits h.located hinput hrank hlt
  refine ⟨ids, hrun, hrouted.imp fun topkId id hid => ?_⟩
  cases topkId with
  | none => exact hid
  | some e =>
    obtain ⟨p, rfl, hp⟩ := hid
    have hbound := (List.getElem?_eq_some_iff.mp hp).1
    rw [(h.located.layer l hlt).length] at hbound
    exact ⟨p, rfl, hbound, h.holds l hl p e hp⟩

/-- Nothing is drawn: the first ones, in their order. -/
def inOrder : PyRandom Unit where
  start := ()
  sample arr k r := (arr.take k, r)
  shuffle arr r := (arr, r)
  sample_length arr k r hk := by rw [List.length_take, Nat.min_eq_left hk]
  sample_subperm arr k r _ := (List.take_sublist k arr).subperm
  shuffle_perm arr r := List.Perm.refl arr

def twoGpus : GpuShape := ⟨2, 2, Nat.two_pos, Nat.two_pos⟩

/-- Two ranks with two slots each for two experts; every third pass rebalances. -/
def twoRanks : EplbConfig where
  epSize := 2
  nnodes := 1
  epNumRedundantExperts := 2
  epDispatchAlgorithm := some .static
  eplbAlgorithm := some .deepseek
  numLayers := 1
  numLogicalExperts := 2
  numGroups := none
  numTensors := 1
  allLayerIds := [0]
  eplbRebalanceNumIterations := 2
  eplbRebalanceLayersPerChunk := none
  eplbMinRebalancingUtilizationThreshold := 1
  expertDistributionRecorderBufferSize := 2
  numIterations_pos := Nat.two_pos
  bufferSize_le := le_refl _

theorem twoRanks_fits : ConfigFits twoRanks twoGpus where
  shape := {
    epSize_pos := Nat.two_pos
    numPhysical := rfl
    nnodes_pos := Nat.one_pos
    numGpusPerNode := rfl
    numLogical_pos := Nat.two_pos
    nodes := rfl
    groups := fun h => absurd rfl h }
  layers_pos := Nat.one_pos
  layers_nodup := List.nodup_singleton 0
  layers_lt := fun l hl => by rw [List.mem_singleton.mp hl]; exact Nat.one_pos
  dispatch := Option.some_ne_none _

/-- Two rows of each rank, one for each expert, and a padded one. -/
def bothExperts : PassInput Nat where
  topkIds _ _ := [some 0, some 1, none]
  randint _ _ _ := 0
  utilization := none
  tempBuffers _ _ _ _ := 0

theorem bothExperts_fits : InputFits twoRanks bothExperts := by
  intro rank l e he
  simp only [bothExperts, List.mem_cons, Option.some_inj, reduceCtorEq, List.not_mem_nil, or_false] at he
  show e < 2
  omega

/-- The weights of an expert are its number. -/
def twoRanksWeights : Nat → Nat → ExpertTensors Nat := fun _ rank _ slot => [0, 1, 1, 0].getD (rank * 2 + slot) 0

theorem twoRanksWeights_loaded : ∀ l ∈ twoRanks.allLayerIds,
    LayerHolds twoRanks twoGpus (fun e _ => e) ([[0, 1, 1, 0]].getD l []) (twoRanksWeights l) := by
  intro l hl p e hp i _
  rw [List.mem_singleton.mp hl] at hp
  show [0, 1, 1, 0].getD (p / 2 * 2 + p % 2) 0 = e
  rw [Nat.div_add_mod', List.getD_eq_getElem?_getD]
  exact congrArg (·.getD 0) hp

theorem twoRanks_covers : ∀ layer ∈ [[0, 1, 1, 0]], MappingCovers twoRanks.toEpArgs layer := by
  intro layer hlayer
  rw [List.mem_singleton.mp hlayer]
  exact ⟨rfl, by decide, by decide⟩

theorem bothExperts_replicate (n : Nat) : ∀ input ∈ List.replicate n bothExperts, InputFits twoRanks input :=
  fun _ hinput => (List.mem_replicate.mp hinput).2 ▸ bothExperts_fits

end QCFuse.Guarantees
