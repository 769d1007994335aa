import QCFuse.Source.SelectionLayers

/-!
# The layers a selection stacks are loaded and collected

Four places derive a set of layers from the same arguments. They agree for critical layers of the
model, for all layers, and for a range of one layer at most.
-/

set_option autoImplicit false

namespace QCFuse.Guarantees

open QCFuse.Source

/-- What the selection stacks is there: the loader has loaded its layers of the model, and QCOMPUTE has
collected them before it stopped. -/
structure SelectionInputsLoaded (args : SelectionArgs) (loader : List Int) : Prop where
  k : ∀ layer ∈ args.stackedKLayers, layer ∈ loader ∧ 0 ≤ layer ∧ layer < args.numLayers
  q : ∀ layer ∈ args.stackedQLayers, args.shouldCollectQ layer = true ∧ layer < args.endLayer

/-- Critical layers are layers of the model; without them, the range is whole, or has no layer but its
first one. -/
def LayersCovered (args : SelectionArgs) : Prop :=
  if args.criticalLayers ≠ [] then ∀ layer ∈ args.criticalLayers, 0 ≤ layer ∧ layer < args.numLayers
  else (args.attnStart = 0 ∧ args.attnEndVal = args.numLayers) ∨
    ∀ layer ∈ SelectionArgs.slicePlaces args.numLayers args.attnStart args.attnEndVal, layer = args.attnStart

section Layers

variable {args : SelectionArgs} {loader : List Int}

theorem mem_slicePlaces {len : Nat} {start stop layer : Int}
    (h : layer ∈ SelectionArgs.slicePlaces len start stop) :
    0 ≤ layer ∧ layer < len ∧ (start < 0 ∨ start ≤ layer) ∧ (stop < 0 ∨ layer < stop) := by
  rw [SelectionArgs.slicePlaces, mem_pyRange] at h
  dsimp only at h
  split_ifs at h <;> omega

/-- The loader gets the layers that `_selection_chunk_layers` lists, from whichever cache. -/
theorem loader_eq (h : args.selectionLoader = .ok loader) : loader = args.selectionChunkLayers := by
  unfold SelectionArgs.selectionLoader at h
  split at h
  · split at h
    · split at h
      · cases h
      next hne =>
        cases h
        rw [SelectionArgs.selectionChunkLayers, if_pos hne]
    · cases h
      rfl
  · cases h
    rfl

theorem qcomputeEnd_eq {layer : Int} (h : layer ∈ args.criticalLayers) :
    ∃ last, args.qcomputeEnd = some (last + 1) ∧ layer ≤ last ∧ last ∈ args.criticalLayers := by
  obtain ⟨last, hlast⟩ : ∃ last, args.criticalLayers.max? = some last := by
    cases hmax : args.criticalLayers.max? with
    | some last => exact ⟨last, rfl⟩
    | none =>
      rw [List.max?_eq_none_iff.mp hmax] at h
      cases h
  obtain ⟨hmem, hle⟩ := List.max?_eq_some_iff.mp hlast
  exact ⟨last, by rw [SelectionArgs.qcomputeEnd, hlast]; rfl, hle layer h, hmem⟩

/-- Critical layers of the model are collected before QCOMPUTE stops. -/
theorem critical_collected (hcover : ∀ layer ∈ args.criticalLayers, 0 ≤ layer) {layer : Int}
    (h : layer ∈ args.criticalLayers) : args.shouldCollectQ layer = true ∧ layer < args.endLayer := by
  obtain ⟨last, hend, hle, hlast⟩ := qcomputeEnd_eq h
  have hpos := hcover last hlast
  constructor
  · rw [SelectionArgs.shouldCollectQ, if_pos (List.ne_nil_of_mem h)]
    exact decide_eq_true h
  · rw [SelectionArgs.endLayer, hend]
    simp only
    rw [if_pos (by omega)]
    omega

/-- With no layer to run, nothing is collected. -/
theorem qBufferLen_eq_zero (h : args.endLayer ≤ 0) : args.qBufferLen = 0 := by
  rw [SelectionArgs.qBufferLen, pyRange_eq_nil (by omega)]
  rfl

/-- A range is collected as far as it is stacked. -/
theorem range_collected (hnone : args.criticalLayers = []) {layer : Int}
    (h : layer ∈ args.stackedQLayers) : args.shouldCollectQ layer = true ∧ layer < args.endLayer := by
  have hend : args.endLayer = args.attnEndVal := by
    rw [SelectionArgs.endLayer, SelectionArgs.qcomputeEnd, hnone]
    rfl
  rw [SelectionArgs.stackedQLayers, if_neg (not_not.mpr hnone)] at h
  obtain ⟨hlayer, hlen, hstart, hstop⟩ := mem_slicePlaces h
  have hrun : 0 < args.attnEndVal := by
    by_contra hneg
    have hempty : args.qBufferLen = 0 := qBufferLen_eq_zero (by omega)
    omega
  have hcollect : args.attnStart ≤ layer ∧ layer < args.attnEndVal := by omega
  rw [SelectionArgs.shouldCollectQ, if_neg (not_not.mpr hnone), if_neg (by omega), hend]
  exact ⟨decide_eq_true hcollect, hcollect.2⟩

theorem stackedK_loaded_iff : (∀ layer ∈ args.stackedKLayers,
    layer ∈ args.selectionChunkLayers ∧ 0 ≤ layer ∧ layer < args.numLayers) ↔ LayersCovered args := by
  unfold SelectionArgs.stackedKLayers SelectionArgs.selectionChunkLayers LayersCovered
  by_cases hcritical : args.criticalLayers ≠ []
  · rw [if_pos hcritical, if_pos hcritical, if_pos hcritical]
    exact forall₂_congr fun layer hlayer => and_iff_right hlayer
  · rw [if_neg hcritical, if_neg hcritical, if_neg hcritical]
    by_cases hwhole : args.attnStart = 0 ∧ args.attnEndVal = args.numLayers
    · rw [if_pos hwhole]
      refine iff_of_true (fun layer hlayer => ?_) (.inl hwhole)
      obtain ⟨hlayer, hlen, -, -⟩ := mem_slicePlaces hlayer
      exact ⟨mem_pyRange.mpr ⟨hlayer, hlen⟩, hlayer, hlen⟩
    · rw [if_neg hwhole, or_iff_right hwhole]
      refine forall₂_congr fun layer hlayer => ?_
      obtain ⟨hlayer, hlen, -, -⟩ := mem_slicePlaces hlayer
      rw [List.mem_singleton]
      exact and_iff_left ⟨hlayer, hlen⟩

/-- Everything the selection stacks is loaded and collected exactly when the layers are covered. -/
theorem selection_inputs_loaded_iff (args : SelectionArgs) {loader : List Int}
    (h : args.selectionLoader = .ok loader) : SelectionInputsLoaded args loader ↔ LayersCovered args := by
  rw [loader_eq h, ← stackedK_loaded_iff]
  refine ⟨fun hloaded => hloaded.k, fun hk => ⟨hk, fun layer hlayer => ?_⟩⟩
  by_cases hcritical : args.criticalLayers = []
  · exact range_collected hcritical hlayer
  · rw [stackedK_loaded_iff, LayersCovered, if_pos hcritical] at hk
    rw [SelectionArgs.stackedQLayers, if_pos hcritical] at hlayer
    exact critical_collected (fun layer hlayer => (hk layer hlayer).1) hlayer

end Layers

/-- Four layers with the range from 1 to 3. -/
def middleRange : SelectionArgs := ⟨4, [], 1, 3, false, .none⟩

theorem selection_inputs_loaded_iff_critical :
    SelectionInputsLoaded ⟨4, [1, 3], 0, -1, true, .query⟩ [1, 3] ↔
      LayersCovered ⟨4, [1, 3], 0, -1, true, .query⟩ :=
  selection_inputs_loaded_iff ⟨4, [1, 3], 0, -1, true, .query⟩ rfl

/-- Layer 2 is stacked, and only layer 1 is loaded. -/
theorem middle_range_not_loaded : ∃ loader, middleRange.selectionLoader = .ok loader ∧
    ¬ SelectionInputsLoaded middleRange loader := by
  refine ⟨[1], rfl, fun h => ?_⟩
  have hsecond := (h.k 2 (by decide)).1
  exact absurd hsecond (by decide)

/-- The layers of a request that names layers of the model are those the loaders take for it. -/
theorem selectionChunkLayers_cast (req : BlendRequest) (numLayers : Nat) (source : ContextSource) :
    (req.selectionArgs numLayers source).selectionChunkLayers =
      (req.selectionChunkLayers numLayers).map fun id : Nat => (id : Int) := by
  have hend : (req.selectionArgs numLayers source).attnEndVal = (req.attnEndLayer numLayers : Nat) := by
    unfold SelectionArgs.attnEndVal BlendRequest.selectionArgs BlendRequest.attnEndLayer
    cases req.attnEnd with
    | none => rfl
    | some n =>
      simp only [Option.map_some, Option.getD_some]
      rw [if_pos (by omega)]
  rw [SelectionArgs.selectionChunkLayers, hend, BlendRequest.selectionChunkLayers, BlendRequest.selectionLayers]
  simp only [BlendRequest.selectionArgs, ne_eq, List.map_eq_nil_iff, Nat.cast_eq_zero, Nat.cast_inj]
  split_ifs
  · rw [pyRange, sub_zero, Int.toNat_natCast]
    exact List.map_congr_left fun id _ => zero_add _
  · rfl
  · rfl

end QCFuse.Guarantees
