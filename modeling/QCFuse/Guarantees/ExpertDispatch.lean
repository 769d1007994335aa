import QCFuse.Guarantees.ExpertPlacement
import QCFuse.Source.ExpertLocation

/-!
# The static dispatch

For each logical expert every GPU is given one of its replicas: one of its own if it has any, else one on
its node, and the GPUs for which there is none on the node are spread evenly over the replicas.
-/

set_option autoImplicit false

namespace QCFuse.Guarantees

open QCFuse.Library QCFuse.Source

section Fair

variable {R : Type} (random : PyRandom R) {ids : List Int}

/-- Each element is chosen as often as any other, or once more. -/
theorem fairChoices_ok (hne : ids ≠ []) (hnodup : ids.Nodup) (k : Nat) (r : R) :
    ∃ choices r', fairChoices random ids k r = .ok (choices, r') ∧ choices.length = k ∧ (∀ c ∈ choices, c ∈ ids) ∧
      ∀ c ∈ ids, k / ids.length ≤ choices.count c ∧ choices.count c ≤ k / ids.length + 1 := by
  have hpos : 0 < ids.length := List.length_pos_iff.mpr hne
  have hle : k % ids.length ≤ ids.length := Nat.le_of_lt (Nat.mod_lt k hpos)
  have hsample := random.sample_subperm ids (k % ids.length) r hle
  obtain ⟨choices, r', hshuffle⟩ : ∃ choices r', random.shuffle ((List.replicate (k / ids.length) ids).flatten ++
      (random.sample ids (k % ids.length) r).1) (random.sample ids (k % ids.length) r).2 = (choices, r') :=
    ⟨_, _, rfl⟩
  have hperm := random.shuffle_perm ((List.replicate (k / ids.length) ids).flatten ++
    (random.sample ids (k % ids.length) r).1) (random.sample ids (k % ids.length) r).2
  rw [hshuffle] at hperm
  refine ⟨choices, r', ?_, ?_, fun c hc => ?_, fun c hc => ?_⟩
  · simp only [fairChoices, divmod, if_neg (Nat.ne_of_gt hpos), bind, Except.bind, pure, Except.pure, hshuffle]
  · rw [hperm.length_eq, List.length_append, random.sample_length _ _ _ hle, List.length_flatten, List.map_replicate,
      List.sum_replicate, smul_eq_mul, Nat.mul_comm]
    exact Nat.div_add_mod k ids.length
  · rcases List.mem_append.mp (hperm.mem_iff.mp hc) with hc | hc
    · obtain ⟨arr, harr, hc⟩ := List.mem_flatten.mp hc
      exact (List.mem_replicate.mp harr).2 ▸ hc
    · exact hsample.subset hc
  · have hone := List.count_eq_one_of_mem hnodup hc
    have hflat : (List.replicate (k / ids.length) ids).flatten.count c = k / ids.length := by
      rw [List.count_flatten, List.map_replicate, hone, List.sum_replicate, smul_eq_mul, Nat.mul_one]
    have hextra := hsample.count_le c
    rw [hperm.count_eq, List.count_append, hflat]
    omega

end Fair

/-! ## One logical expert -/

theorem fillRemaining_length (output choices : List Int) :
    (fillRemaining output choices).length = output.length := by
  induction output generalizing choices with
  | nil => rfl
  | cons p output ih =>
    rw [fillRemaining]
    split <;> rw [List.length_cons, ih, List.length_cons]

/-- What was chosen stays, and the rest gets the choices in order. -/
theorem fillRemaining_spec {gpus : List Nat} {first : Nat → Int} {choices : List Int}
    (hlen : choices.length = (gpus.map first).count (-1)) :
    (∀ pair ∈ gpus.zip (fillRemaining (gpus.map first) choices), first pair.1 ≠ -1 → pair.2 = first pair.1) ∧
      ((gpus.zip (fillRemaining (gpus.map first) choices)).filter fun pair => first pair.1 = -1).map Prod.snd =
        choices := by
  induction gpus generalizing choices with
  | nil =>
    obtain rfl := List.length_eq_zero_iff.mp hlen
    exact ⟨fun pair hpair => absurd hpair List.not_mem_nil, rfl⟩
  | cons gpu gpus ih =>
    rw [List.map_cons] at hlen ⊢
    rw [fillRemaining]
    by_cases hp : first gpu = -1
    · rw [hp, List.count_cons_self] at hlen
      obtain ⟨c, choices, rfl⟩ := List.exists_cons_of_length_eq_add_one hlen
      obtain ⟨hkept, hfilled⟩ := ih (Nat.succ.inj hlen)
      rw [if_pos hp, List.zip_cons_cons, List.headD_cons, List.tail_cons]
      refine ⟨fun pair hpair hne => ?_, ?_⟩
      · rcases List.mem_cons.mp hpair with rfl | hpair
        · exact absurd hp hne
        · exact hkept pair hpair hne
      · rw [List.filter_cons_of_pos (by simpa using hp), List.map_cons, hfilled]
    · rw [List.count_cons_of_ne hp] at hlen
      obtain ⟨hkept, hfilled⟩ := ih hlen
      rw [if_neg hp, List.zip_cons_cons]
      refine ⟨fun pair hpair hne => ?_, ?_⟩
      · rcases List.mem_cons.mp hpair with rfl | hpair
        · rfl
        · exact hkept pair hpair hne
      · rw [List.filter_cons_of_neg (by simpa using hp), hfilled]

/-- The GPUs of each node, with the physical experts of each GPU. -/
structure GpuShape where
  numLocalGpu : Nat
  numGpusPerNode : Nat
  numLocalGpu_pos : 0 < numLocalGpu
  numGpusPerNode_pos : 0 < numGpusPerNode

/-- A replica is on the GPU's node. -/
def OnNode (gpus : GpuShape) (gpu p : Nat) : Prop :=
  p / (gpus.numLocalGpu * gpus.numGpusPerNode) = gpu / gpus.numGpusPerNode

instance (gpus : GpuShape) (gpu p : Nat) : Decidable (OnNode gpus gpu p) :=
  inferInstanceAs (Decidable (_ = _))

/-- How the replicas of a logical expert are given to the GPUs. -/
structure DispatchedFairly (gpus : GpuShape) (numGpus : Nat) (ids choice : List Nat) : Prop where
  length : choice.length = numGpus
  replica : ∀ p ∈ choice, p ∈ ids
  sameGpu : ∀ gpu p, choice[gpu]? = some p → (∃ q ∈ ids, q / gpus.numLocalGpu = gpu) → p / gpus.numLocalGpu = gpu
  sameNode : ∀ gpu p, choice[gpu]? = some p → (∃ q ∈ ids, OnNode gpus gpu q) → OnNode gpus gpu p
  /-- The other GPUs are spread evenly. -/
  fair : ∀ q ∈ ids,
    let far := fun gpu => ∀ p ∈ ids, ¬ OnNode gpus gpu p
    let chosen := ((List.range numGpus).zip choice).countP fun pair => far pair.1 ∧ pair.2 = q
    (List.range numGpus).countP far / ids.length ≤ chosen ∧
      chosen ≤ (List.range numGpus).countP far / ids.length + 1

section Dispatch

variable {gpus : GpuShape} {numGpus : Nat} {ids : List Nat}

theorem candidatesOf_ok {size : Nat} (hsize : 0 < size) (ids : List Nat) (id : Nat) :
    candidatesOf (ids.map (Nat.cast : Nat → Int)) size id =
      .ok ((ids.filter fun p => p / size = id).map (Nat.cast : Nat → Int)) := by
  rw [candidatesOf, if_neg fun h => absurd h.1 (Nat.ne_of_gt hsize), List.filter_map]
  refine congrArg (fun kept : List Nat => Except.ok (kept.map (Nat.cast : Nat → Int))) ?_
  refine List.filter_congr fun p _ => decide_eq_decide.mpr ?_
  norm_cast

/-- The choice before the random ones. -/
structure FirstChoice (gpus : GpuShape) (ids : List Nat) (gpu : Nat) (c : Int) : Prop where
  none : c = -1 ↔ ∀ q ∈ ids, ¬ OnNode gpus gpu q
  some : ∀ p : Nat, c = p → p ∈ ids ∧ OnNode gpus gpu p ∧
    ((∃ q ∈ ids, q / gpus.numLocalGpu = gpu) → p / gpus.numLocalGpu = gpu)
  cases : c = -1 ∨ ∃ p : Nat, c = p

theorem onNode_of_gpu {gpu q : Nat} (h : q / gpus.numLocalGpu = gpu) : OnNode gpus gpu q := by
  rw [OnNode, ← Nat.div_div_eq_div_mul, h]

theorem localChoice_ok (gpus : GpuShape) (ids : List Nat) (gpu : Nat) :
    ∃ c, localChoice gpus.numLocalGpu gpus.numGpusPerNode (ids.map Nat.cast) gpu = .ok c ∧
      FirstChoice gpus ids gpu c := by
  simp only [localChoice, candidatesOf_ok gpus.numLocalGpu_pos, bind, Except.bind]
  cases hgpu : ids.filter fun p => p / gpus.numLocalGpu = gpu with
  | cons p rest =>
    have hp : p ∈ ids.filter fun p => p / gpus.numLocalGpu = gpu := hgpu ▸ List.mem_cons_self
    obtain ⟨hmem, hp⟩ := List.mem_filter.mp hp
    have hp := of_decide_eq_true hp
    refine ⟨p, rfl, ⟨fun h => absurd h (by omega), fun h => absurd (onNode_of_gpu hp) (h p hmem)⟩, fun q hq => ?_,
      .inr ⟨p, rfl⟩⟩
    obtain rfl := Int.ofNat.inj hq
    exact ⟨hmem, onNode_of_gpu hp, fun _ => hp⟩
  | nil =>
    have hnone : ∀ q ∈ ids, q / gpus.numLocalGpu ≠ gpu := fun q hq heq => by
      have hmem : q ∈ ids.filter fun p => p / gpus.numLocalGpu = gpu := List.mem_filter.mpr ⟨hq, decide_eq_true heq⟩
      rw [hgpu] at hmem
      cases hmem
    simp only [List.map_nil, divmod, if_neg (Nat.ne_of_gt gpus.numGpusPerNode_pos),
      candidatesOf_ok (Nat.mul_pos gpus.numLocalGpu_pos gpus.numGpusPerNode_pos), pure, Except.pure]
    cases hnode : ids.filter fun p => p / (gpus.numLocalGpu * gpus.numGpusPerNode) = gpu / gpus.numGpusPerNode with
    | cons p rest =>
      have hp : p ∈ ids.filter fun p => p / (gpus.numLocalGpu * gpus.numGpusPerNode) = gpu / gpus.numGpusPerNode :=
        hnode ▸ List.mem_cons_self
      obtain ⟨hmem, hp⟩ := List.mem_filter.mp hp
      have hp : OnNode gpus gpu p := of_decide_eq_true hp
      refine ⟨p, rfl, ⟨fun h => absurd h (by omega), fun h => absurd hp (h p hmem)⟩, fun q hq => ?_, .inr ⟨p, rfl⟩⟩
      obtain rfl := Int.ofNat.inj hq
      refine ⟨hmem, hp, ?_⟩
      rintro ⟨q, hq, heq⟩
      exact absurd heq (hnone q hq)
    | nil =>
      refine ⟨-1, rfl, ⟨fun _ q hq hon => ?_, fun _ => rfl⟩, fun p hp => absurd hp (by omega), .inl rfl⟩
      have hmem : q ∈ ids.filter fun p => p / (gpus.numLocalGpu * gpus.numGpusPerNode) = gpu / gpus.numGpusPerNode :=
        List.mem_filter.mpr ⟨hq, decide_eq_true hon⟩
      rw [hnode] at hmem
      cases hmem

theorem logicalToAllPhysicalRaw_row (ids : List Nat) (pad : Nat) :
    logicalToAllPhysicalRaw (ids.map Nat.cast ++ List.replicate pad (-1)) = ids.map (Nat.cast : Nat → Int) := by
  rw [logicalToAllPhysicalRaw, List.filter_append, List.filter_replicate, List.filter_eq_self.mpr]
  · simp
  · intro p hp
    obtain ⟨q, -, rfl⟩ := List.mem_map.mp hp
    simp

theorem dispatchExpert_ok {R : Type} (random : PyRandom R) (gpus : GpuShape) (numGpus : Nat) (hne : ids ≠ [])
    (hnodup : ids.Nodup) (pad : Nat) (r : R) :
    ∃ choice r', (dispatchExpert random numGpus gpus.numLocalGpu gpus.numGpusPerNode
        (ids.map Nat.cast ++ List.replicate pad (-1))).run r = .ok (choice.map Nat.cast, r') ∧
      DispatchedFairly gpus numGpus ids choice := by
  choose first hfirst hspec using localChoice_ok gpus ids
  have hcast : (ids.map (Nat.cast : Nat → Int)).Nodup := hnodup.map Nat.cast_injective
  obtain ⟨choices, r', hchoices, hlen, hmem, hcount⟩ := fairChoices_ok random
    (fun h => hne (List.map_eq_nil_iff.mp h)) hcast (((List.range numGpus).map first).count (-1)) r
  obtain ⟨hkept, hfilled⟩ := fillRemaining_spec hlen
  let output := fillRemaining ((List.range numGpus).map first) choices
  have hout : output.length = numGpus := by
    rw [fillRemaining_length, List.length_map, List.length_range]
  -- every entry is a replica
  have hnat : ∀ pair ∈ (List.range numGpus).zip output, ∃ p ∈ ids, pair.2 = (p : Int) := fun pair hpair => by
    rcases (hspec pair.1).cases with hfar | ⟨p, hp⟩
    · have hchoice : pair.2 ∈ choices := by
        rw [← hfilled]
        exact List.mem_map_of_mem (List.mem_filter.mpr ⟨hpair, decide_eq_true hfar⟩)
      obtain ⟨p, hp, heq⟩ := List.mem_map.mp (hmem _ hchoice)
      exact ⟨p, hp, heq.symm⟩
    · exact ⟨p, ((hspec pair.1).some p hp).1, (hkept pair hpair (by omega)).trans hp⟩
  have hentry : ∀ c ∈ output, ∃ p ∈ ids, c = (p : Int) := fun c hc => by
    obtain ⟨gpu, hgpu, rfl⟩ := List.mem_iff_getElem.mp hc
    refine hnat (gpu, output[gpu]) (List.mem_of_getElem? (i := gpu) ?_)
    rw [List.getElem?_zip_eq_some]
    exact ⟨List.getElem?_range (hout ▸ hgpu), List.getElem?_eq_getElem hgpu⟩
  let choice := output.map Int.toNat
  have hchoice : choice.map Nat.cast = output := by
    rw [List.map_map]
    refine (List.map_congr_left fun c hc => ?_).trans (List.map_id output)
    obtain ⟨p, -, rfl⟩ := hentry c hc
    rfl
  have hat : ∀ gpu p : Nat, choice[gpu]? = some p → (gpu, (p : Int)) ∈ (List.range numGpus).zip output := by
    intro gpu p hp
    obtain ⟨hgpu, -⟩ := List.getElem?_eq_some_iff.mp hp
    rw [List.length_map, hout] at hgpu
    refine List.mem_of_getElem? (i := gpu) (List.getElem?_zip_eq_some.mpr ⟨List.getElem?_range hgpu, ?_⟩)
    rw [← hchoice, List.getElem?_map, hp]
    rfl
  have hnear : ∀ gpu p : Nat, choice[gpu]? = some p → (∃ q ∈ ids, OnNode gpus gpu q) → first gpu = p := by
    intro gpu p hp hq
    have hne : first gpu ≠ -1 := fun h => by
      obtain ⟨q, hq, hon⟩ := hq
      exact (hspec gpu).none.mp h q hq hon
    exact (hkept _ (hat gpu p hp) hne).symm
  refine ⟨choice, r', ?_, ?_, fun p hp => ?_, fun gpu p hp hq => ?_, fun gpu p hp hq => ?_, fun q hq => ?_⟩
  · rw [hchoice]
    show dispatchExpert _ _ _ _ _ r = _
    simp only [dispatchExpert, logicalToAllPhysicalRaw_row, mapM_eq_map fun gpu _ => hfirst gpu, bind, Except.bind,
      hchoices, pure, Except.pure]
    rfl
  · rw [List.length_map, hout]
  · obtain ⟨c, hc, rfl⟩ := List.mem_map.mp hp
    obtain ⟨p, hmem, rfl⟩ := hentry c hc
    exact hmem
  · obtain ⟨q, hmem, hgpu⟩ := hq
    exact ((hspec gpu).some p (hnear gpu p hp ⟨q, hmem, onNode_of_gpu hgpu⟩)).2.2 ⟨q, hmem, hgpu⟩
  · exact ((hspec gpu).some p (hnear gpu p hp hq)).2.1
  · have hfair := hcount q (List.mem_map_of_mem hq)
    have hk : ((List.range numGpus).map first).count (-1) =
        (List.range numGpus).countP fun gpu => ∀ p ∈ ids, ¬ OnNode gpus gpu p := by
      rw [List.count_eq_countP, List.countP_map]
      refine List.countP_congr fun gpu _ => ?_
      simpa using (hspec gpu).none
    have hchosen : choices.count (q : Int) = ((List.range numGpus).zip choice).countP fun pair =>
        (∀ p ∈ ids, ¬ OnNode gpus pair.1 p) ∧ pair.2 = q := by
      rw [← hfilled, List.count_eq_countP, List.countP_map, List.countP_filter]
      show ((List.range numGpus).zip output).countP _ = _
      rw [← hchoice, List.zip_map_right, List.countP_map]
      refine List.countP_congr fun pair _ => ?_
      have hfar := (hspec pair.1).none
      simp [hfar, and_comm]
    rw [hk, hchosen, List.length_map] at hfair
    exact hfair

end Dispatch

/-! ## All layers -/

theorem exists_of_mem_right {α β : Type} {rel : α → β → Prop} {xs : List α} {ys : List β}
    (h : List.Forall₂ rel xs ys) {y : β} (hy : y ∈ ys) : ∃ x ∈ xs, rel x y := by
  induction h with
  | nil => cases hy
  | cons hrel _ ih =>
    rcases List.mem_cons.mp hy with rfl | hy
    · exact ⟨_, List.mem_cons_self, hrel⟩
    · obtain ⟨x, hx, hrel⟩ := ih hy
      exact ⟨x, List.mem_cons_of_mem _ hx, hrel⟩

theorem mapM_run_ok {σ ε α β : Type} {f : α → StateT σ (Except ε) β} {rel : α → β → Prop} {xs : List α}
    (h : ∀ x ∈ xs, ∀ s, ∃ y s', (f x).run s = .ok (y, s') ∧ rel x y) (s : σ) :
    ∃ ys s', (xs.mapM f).run s = .ok (ys, s') ∧ List.Forall₂ rel xs ys := by
  induction xs generalizing s with
  | nil => exact ⟨[], s, rfl, .nil⟩
  | cons x xs ih =>
    obtain ⟨y, s₁, hy, hrel⟩ := h x List.mem_cons_self s
    obtain ⟨ys, s₂, hys, hrels⟩ := ih (fun z hz => h z (List.mem_cons_of_mem _ hz)) s₁
    refine ⟨y :: ys, s₂, ?_, .cons hrel hrels⟩
    rw [List.mapM_cons, StateT.run_bind, hy]
    show (xs.mapM f >>= fun ys => pure (y :: ys)).run s₁ = _
    rw [StateT.run_bind, hys]
    rfl

/-- The argument's shape of GPUs. -/
structure EpShape (args : EpArgs) (gpus : GpuShape) : Prop where
  epSize_pos : 0 < args.epSize
  numPhysical : args.numLogicalExperts + args.epNumRedundantExperts = args.epSize * gpus.numLocalGpu
  nnodes_pos : 0 < args.nnodes
  numGpusPerNode : args.epSize / args.nnodes = gpus.numGpusPerNode
  numLogical_pos : 0 < args.numLogicalExperts

/-- A row lists the replicas of its logical expert, each once, and then -1. -/
def RowLists (ids : List Nat) (row : List Int) : Prop :=
  ids ≠ [] ∧ ids.Nodup ∧ ∃ pad, row = ids.map Nat.cast ++ List.replicate pad (-1)

/-- The choices for a row are made for what the row lists. -/
def RowDispatched (gpus : GpuShape) (numGpus : Nat) (row choice : List Int) : Prop :=
  ∃ ids choice', RowLists ids row ∧ choice = choice'.map Nat.cast ∧ DispatchedFairly gpus numGpus ids choice'

/-- `compute_logical_to_rank_dispatch_physical_map` gives every rank a replica of every expert. -/
theorem dispatchMap_fair {R : Type} (random : PyRandom R) {args : EpArgs} {gpus : GpuShape}
    (hshape : EpShape args gpus) {map : List (List (List Int))}
    (hrows : ∀ layer ∈ map, ∀ row ∈ layer, ∃ ids, RowLists ids row) :
    ∃ dispatch, computeLogicalToRankDispatchPhysicalMap random args
        (args.numLogicalExperts + args.epNumRedundantExperts) map = .ok dispatch ∧
      List.Forall₂ (List.Forall₂ (RowDispatched gpus args.epSize)) map dispatch := by
  have hlocal : (args.numLogicalExperts + args.epNumRedundantExperts) / args.epSize = gpus.numLocalGpu := by
    rw [hshape.numPhysical, Nat.mul_div_cancel_left _ hshape.epSize_pos]
  have hrow : ∀ layer ∈ map, ∀ row ∈ layer, ∀ r, ∃ choice r',
      (dispatchExpert random args.epSize gpus.numLocalGpu gpus.numGpusPerNode row).run r = .ok (choice, r') ∧
        RowDispatched gpus args.epSize row choice := fun layer hlayer row hrow r => by
    obtain ⟨ids, hne, hnodup, pad, rfl⟩ := hrows layer hlayer row hrow
    obtain ⟨choice, r', hrun, hfair⟩ := dispatchExpert_ok random gpus args.epSize hne hnodup pad r
    exact ⟨_, r', hrun, ids, choice, ⟨hne, hnodup, pad, rfl⟩, rfl, hfair⟩
  obtain ⟨dispatch, r', hrun, hall⟩ := mapM_run_ok (fun layer hlayer => mapM_run_ok (hrow layer hlayer)) random.start
  refine ⟨dispatch, ?_, hall⟩
  have hset : ∀ layer ∈ dispatch, ∀ row ∈ layer, ∀ p ∈ row, p ≠ -1 := fun layer hlayer row hrow p hp => by
    obtain ⟨_, -, hlayer⟩ := exists_of_mem_right hall hlayer
    obtain ⟨_, -, ids, choice, -, rfl, -⟩ := exists_of_mem_right hlayer hrow
    obtain ⟨q, -, rfl⟩ := List.mem_map.mp hp
    omega
  simp only [computeLogicalToRankDispatchPhysicalMap, divmod, if_neg (Nat.ne_of_gt hshape.epSize_pos), hlocal,
    if_neg (Nat.ne_of_gt hshape.nnodes_pos), hshape.numGpusPerNode, bind, Except.bind]
  rw [show StateT.run _ _ = _ from hrun]
  simp only [if_pos hset, pure, Except.pure]

end QCFuse.Guarantees
