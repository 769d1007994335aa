import QCFuse.Guarantees.QueryLoad

/-!
# What an offline save writes after other requests

`put_kv` appends to whatever the pool holds. A KVCOMPUTE with sample directories clears the scores
when it configures, but not the pool.
-/

set_option autoImplicit false

namespace QCFuse.Guarantees

open QCFuse.Library QCFuse.Source

variable {cfg : Config} {req : BlendRequest}

/-! ## The length of the buffers -/

/-- No buffer of `HackBlendKVPool` is longer than the model. -/
def PoolBounded (numLayers : Nat) (rt : Runtime) : Prop :=
  rt.hack.kBuffer.length ≤ numLayers ∧ rt.hack.vBuffer.length ≤ numLayers

theorem putLayer_length {buffer buffer' : List (Option Tensor)} {l : Nat} {t : Tensor}
    (h : putLayer buffer l t = .ok buffer') : buffer'.length = max buffer.length (l + 1) := by
  have hpadded : (buffer ++ List.replicate (l + 1 - buffer.length) none).length =
      max buffer.length (l + 1) := by
    rw [List.length_append, List.length_replicate]
    omega
  unfold putLayer at h
  simp only at h
  split at h
  next =>
    cases h
    rw [List.length_set, hpadded]
  next =>
    obtain ⟨joined, -, h⟩ := bind_ok h
    cases h
    rw [List.length_set, hpadded]

theorem hackAssign_length {pool pool' : HackPool} {l : Nat} {kv : KvPair}
    (h : pool.assign l kv = .ok pool') : pool'.kBuffer.length = pool.kBuffer.length ∧
      pool'.vBuffer.length = pool.vBuffer.length := by
  unfold HackPool.assign at h
  split at h
  next =>
    cases h
    exact ⟨List.length_set, List.length_set⟩
  next => cases h

theorem poolBounded_stable : Stable (Rely cfg) fun s => PoolBounded cfg.numLayers s.rt := by
  rintro s s' hs ⟨index, fails, hstep⟩
  obtain ⟨t, r, ht, hr, hrt, hthreads⟩ := loaderStep_cases hstep
  have heffect := loader_step_effect hr
  rw [hrt]
  generalize r.rt = rt, r.set = event at heffect
  cases heffect with
  | hack l kv hack hassign =>
    obtain ⟨hk, hv⟩ := hackAssign_length hassign
    unfold PoolBounded
    simp only [hk, hv]
    exact hs
  | _ => exact hs

theorem poolBounded_exec {op : MainOp} {s s' : Shared}
    (hput : ∀ l kv, op = .run (.putKv l kv) → l < cfg.numLayers) (hs : PoolBounded cfg.numLayers s.rt)
    (hstep : Exec cfg req op s s') : PoolBounded cfg.numLayers s'.rt := by
  cases exec_effect hstep with
  | run stmt rt hrt =>
    cases stmt with
    | initHackBuffers =>
      cases hrt
      exact ⟨le_of_eq List.length_replicate, le_of_eq List.length_replicate⟩
    | clearHackPool =>
      cases hrt
      exact ⟨Nat.zero_le _, Nat.zero_le _⟩
    | clearLayerK l =>
      cases hrt
      exact ⟨le_of_eq_of_le List.length_set hs.1, hs.2⟩
    | clearLayerV l =>
      cases hrt
      exact ⟨hs.1, le_of_eq_of_le List.length_set hs.2⟩
    | putQ l q =>
      obtain ⟨qBuffer, -, hrt⟩ := bind_ok hrt
      cases hrt
      exact hs
    | putQueryK l k =>
      obtain ⟨queryKBuffer, -, hrt⟩ := bind_ok hrt
      cases hrt
      exact hs
    | putKv l kv =>
      have hlt := hput l kv rfl
      obtain ⟨hack, hhack, hrt⟩ := bind_ok hrt
      cases hrt
      obtain ⟨k, hk, hhack⟩ := bind_ok hhack
      obtain ⟨v, hv, hhack⟩ := bind_ok hhack
      cases hhack
      have hlength := putLayer_length hk
      have hlength' := putLayer_length hv
      have hbefore := hs.1
      have hbefore' := hs.2
      constructor
      · show k.length ≤ _
        omega
      · show v.length ≤ _
        omega
    | _ =>
      cases hrt
      exact hs
  | blendInPlace l kv hack hassign =>
    obtain ⟨hk, hv⟩ := hackAssign_length hassign
    exact ⟨le_of_eq_of_le hk hs.1, le_of_eq_of_le hv hs.2⟩
  | _ => exact hs

/-- Only the forward pass of a KVCOMPUTE appends to the pool, at the layers of the model. -/
theorem putKv_mem_prefillOps {numLayers l : Nat} {rt : Runtime} {kv : KvPair}
    (h : .run (.putKv l kv) ∈ prefillOps numLayers rt req) : l < numLayers := by
  rcases prefillOps_cases h with houter | hforward
  · cases houter
  unfold forwardOps at hforward
  cases hstyle : req.blendStyle <;> rw [hstyle] at hforward <;> simp only at hforward <;>
    obtain ⟨i, hi, hmem⟩ := List.mem_flatMap.mp hforward
  case kvCompute =>
    simp only [kvComputeLayer, List.mem_append, List.mem_singleton] at hmem
    rcases hmem with (hmem | hmem) | hmem
    · cases hmem
      exact List.mem_range.mp hi
    · split at hmem <;> simp at hmem
    · split at hmem <;> simp at hmem
  case qCompute =>
    simp only [qComputeLayer, waitFor, List.mem_append] at hmem
    rcases hmem with (hmem | hmem) | hmem
    · split at hmem <;> simp at hmem
    · split at hmem <;> simp at hmem
    · split at hmem
      next => split at hmem <;> simp at hmem
      next => cases hmem
  all_goals
    simp only [doBlendLayer] at hmem
    split at hmem
    next => cases hmem
    next =>
      split at hmem
      next =>
        split at hmem
        next => cases hmem
        next =>
          split at hmem <;> simp [waitFor] at hmem
      next => split at hmem <;> simp [waitFor] at hmem

/-! ## The pool of a KVCOMPUTE -/

/-- No layer has K or V. -/
def PoolClear (pool : HackPool) : Prop :=
  ∀ l, layerOf pool.kBuffer l = none ∧ layerOf pool.vBuffer l = none

/-- An append to an empty layer stores the tensor. -/
theorem putLayer_none {buffer : List (Option Tensor)} {l : Nat} (t : Tensor)
    (h : layerOf buffer l = none) : ∃ buffer', putLayer buffer l t = .ok buffer' ∧
      ∀ i, layerOf buffer' i = if i = l then some t else layerOf buffer i := by
  have hpadded : ∀ i, layerOf (buffer ++ List.replicate (l + 1 - buffer.length) none) i =
      layerOf buffer i := by
    intro i
    unfold layerOf
    rcases Nat.lt_or_ge i buffer.length with hlt | hge
    · rw [List.getElem?_append_left hlt]
    · rw [List.getElem?_append_right hge, List.getElem?_eq_none hge]
      cases hi : (List.replicate (l + 1 - buffer.length) (none : Option Tensor))[i - buffer.length]? with
      | none => rfl
      | some entry =>
        obtain ⟨-, rfl⟩ := List.mem_replicate.mp (List.mem_of_getElem? hi)
        rfl
  have hlength : l < (buffer ++ List.replicate (l + 1 - buffer.length) none).length := by
    rw [List.length_append, List.length_replicate]
    omega
  refine ⟨(buffer ++ List.replicate (l + 1 - buffer.length) none).set l (some t), ?_, fun i => ?_⟩
  · unfold putLayer
    simp only
    rw [hpadded, h]
  · rw [layerOf_set _ i hlength, hpadded]

/-- The scores accumulated by the layers below `n`. -/
def accumulatedScores (numLayers : Nat) (req : BlendRequest) : Nat → KvzipScores
  | 0 => []
  | n + 1 =>
    if req.isContextblend ∧ n < req.qcomputeEnd.getD numLayers ∧ req.augmentedLocs.isSome then
      accumulateScores (accumulatedScores numLayers req n) n (req.forward.kvzipScores n)
    else accumulatedScores numLayers req n

/-- The pool and the scores when the layers below `n` are put and those below `m` scored. -/
structure Filled (numLayers : Nat) (req : BlendRequest) (n m : Nat) (rt : Runtime) : Prop where
  bounded : PoolBounded numLayers rt
  long : n ≤ rt.hack.kBuffer.length ∧ n ≤ rt.hack.vBuffer.length
  k : ∀ l, layerOf rt.hack.kBuffer l = if l < n then some (req.forward.kv l).1 else none
  v : ∀ l, layerOf rt.hack.vBuffer l = if l < n then some (req.forward.kv l).2 else none
  scores : rt.kvzipScores = accumulatedScores numLayers req m

/-- What is saved: the request's own K/V at every layer, and its own scores. -/
structure OwnSave (numLayers : Nat) (req : BlendRequest) (rt : Runtime) : Prop where
  k : rt.hack.kBuffer = (List.range numLayers).map fun l => some (req.forward.kv l).1
  v : rt.hack.vBuffer = (List.range numLayers).map fun l => some (req.forward.kv l).2
  scores : rt.kvzipScores = accumulatedScores numLayers req numLayers

theorem buffer_eq {buffer : List (Option Tensor)} {n : Nat} {t : Nat → Tensor}
    (hlength : buffer.length = n) (h : ∀ l, layerOf buffer l = if l < n then some (t l) else none) :
    buffer = (List.range n).map fun l => some (t l) := by
  apply List.ext_getElem
  · rw [hlength, List.length_map, List.length_range]
  · intro i hi hi'
    have hlayer := h i
    unfold layerOf at hlayer
    rw [List.getElem?_eq_getElem hi, if_pos (hlength ▸ hi)] at hlayer
    rw [List.getElem_map, List.getElem_range]
    exact hlayer

theorem Filled.ownSave {numLayers : Nat} {rt : Runtime} (h : Filled numLayers req numLayers numLayers rt) :
    OwnSave numLayers req rt :=
  ⟨buffer_eq (Nat.le_antisymm h.bounded.1 h.long.1) h.k,
    buffer_eq (Nat.le_antisymm h.bounded.2 h.long.2) h.v, h.scores⟩

/-- The save depends on nothing else of the state. -/
theorem OwnSave.offlineSave_eq {rt rt' : Runtime} (h : OwnSave cfg.numLayers req rt)
    (h' : OwnSave cfg.numLayers req rt') : offlineSave cfg req rt = offlineSave cfg req rt' := by
  have hgetKv : rt.hack.getKv = rt'.hack.getKv := by
    funext l
    unfold HackPool.getKv
    rw [h.k, h'.k, h.v, h'.v]
  unfold offlineSave
  rw [hgetKv, h.k, h'.k, h.scores, h'.scores]

theorem filled_putKv {numLayers i : Nat} {rt : Runtime} (h : Filled numLayers req i i rt)
    (hi : i < numLayers) : ∃ rt', (Stmt.putKv i (req.forward.kv i)).run numLayers rt = .ok rt' ∧
      Filled numLayers req (i + 1) i rt' := by
  have hk := h.k i
  have hv := h.v i
  rw [if_neg (Nat.lt_irrefl i)] at hk hv
  obtain ⟨k, hputK, hlayerK⟩ := putLayer_none (req.forward.kv i).1 hk
  obtain ⟨v, hputV, hlayerV⟩ := putLayer_none (req.forward.kv i).2 hv
  have hlengthK := putLayer_length hputK
  have hlengthV := putLayer_length hputV
  obtain ⟨hboundK, hboundV⟩ := h.bounded
  refine ⟨{ rt with hack := { rt.hack with kBuffer := k, vBuffer := v } }, ?_, ⟨⟨?_, ?_⟩, ⟨?_, ?_⟩, ?_, ?_, h.scores⟩⟩
  · simp only [Stmt.run, HackPool.putKv, hputK, hputV, bind, Except.bind, pure, Except.pure]
  · show k.length ≤ _
    omega
  · show v.length ≤ _
    omega
  · show _ ≤ k.length
    omega
  · show _ ≤ v.length
    omega
  · intro l
    show layerOf k l = _
    rw [hlayerK, h.k]
    by_cases hl : l = i
    · rw [if_pos hl, if_pos (by omega), hl]
    · rw [if_neg hl]
      split
      next hlt => rw [if_pos (by omega)]
      next hge => rw [if_neg (by omega)]
  · intro l
    show layerOf v l = _
    rw [hlayerV, h.v]
    by_cases hl : l = i
    · rw [if_pos hl, if_pos (by omega), hl]
    · rw [if_neg hl]
      split
      next hlt => rw [if_pos (by omega)]
      next hge => rw [if_neg (by omega)]

/-! ## Runs -/

/-- A contextblend KVCOMPUTE with sample directories. -/
structure SavesOffline (req : BlendRequest) : Prop where
  style : req.blendStyle = .kvCompute
  contextblend : req.isContextblend = true
  paths : req.hasSsdPaths = true

/-- No append of an offline KVCOMPUTE raises, and its save finds its own tensors and scores. -/
def SaveDemand (cfg : Config) (req : BlendRequest) : MainOp → Shared → Prop
  | .run (.putKv l kv), s => SavesOffline req → ∃ rt, (Stmt.putKv l kv).run cfg.numLayers s.rt = .ok rt
  | .finishKvCompute true, s => SavesOffline req → OwnSave cfg.numLayers req s.rt
  | _, _ => True

theorem saveDemand_of_outer {op : MainOp} (h : IsOuterOp req op) (s : Shared) : SaveDemand cfg req op s := by
  cases op with
  | run stmt =>
    cases stmt with
    | putKv => cases h
    | _ => trivial
  | finishKvCompute offline => exact h.elim
  | _ => trivial

/-- Any other request keeps the buffers within the model. -/
theorem outline_poolBounded {ops : List MainOp}
    (hdemand : ∀ op ∈ ops, ∀ s, SaveDemand cfg req op s)
    (hput : ∀ l kv, .run (.putKv l kv) ∈ ops → l < cfg.numLayers) :
    Outline (Exec cfg req) (Rely cfg) (SaveDemand cfg req) (fun s => PoolBounded cfg.numLayers s.rt) ops
      (fun s => PoolBounded cfg.numLayers s.rt) := by
  apply Outline.keep poolBounded_stable fun op hop s _ => hdemand op hop s
  intro op hop s s' hs hstep
  exact poolBounded_exec (fun l kv hl => hput l kv (hl ▸ hop)) hs hstep

/-- The layers of an offline KVCOMPUTE, on a clear pool and with no loader alive. -/
theorem outline_kvCompute {loaders : List Loader}
    (hended : ∀ t ∈ loaders, t.Ended) :
    Outline (Exec cfg req) (Rely cfg) (SaveDemand cfg req)
      (AtRest loaders (Filled cfg.numLayers req 0 0))
      ((List.range cfg.numLayers).flatMap (kvComputeLayer cfg.numLayers true req))
      (AtRest loaders (PoolBounded cfg.numLayers)) := by
  have hloop : Outline (Exec cfg req) (Rely cfg) (SaveDemand cfg req)
      (AtRest loaders fun rt => PoolBounded cfg.numLayers rt ∧
        (0 < cfg.numLayers → Filled cfg.numLayers req 0 0 rt))
      ((List.range cfg.numLayers).flatMap (kvComputeLayer cfg.numLayers true req))
      (AtRest loaders fun rt => PoolBounded cfg.numLayers rt ∧
        (cfg.numLayers < cfg.numLayers → Filled cfg.numLayers req cfg.numLayers cfg.numLayers rt)) := by
    apply Outline.loop (P := fun i => AtRest loaders fun rt => PoolBounded cfg.numLayers rt ∧
      (i < cfg.numLayers → Filled cfg.numLayers req i i rt)) fun i => stable_atRest hended _
    intro i hi
    unfold kvComputeLayer
    have hput : Outline (Exec cfg req) (Rely cfg) (SaveDemand cfg req)
        (AtRest loaders fun rt => PoolBounded cfg.numLayers rt ∧
          (i < cfg.numLayers → Filled cfg.numLayers req i i rt))
        [.run (.putKv i (req.forward.kv i))] (AtRest loaders (Filled cfg.numLayers req (i + 1) i)) := by
      refine .next (stable_atRest hended _) ?_ (fun s s' hs hstep => ?_)
        (.done (stable_atRest hended _) fun _ hs => hs)
      · rintro s ⟨-, -, hfilled⟩ -
        obtain ⟨rt, hrt, -⟩ := filled_putKv (hfilled hi) hi
        exact ⟨rt, hrt⟩
      · obtain ⟨rt, hrt, hnext⟩ := filled_putKv (hs.2.2 hi) hi
        obtain ⟨rt', hrt', rfl⟩ := after_next hstep
        rw [hrt] at hrt'
        cases hrt'
        exact ⟨hs.1, hnext⟩
    have hscore : Outline (Exec cfg req) (Rely cfg) (SaveDemand cfg req)
        (AtRest loaders (Filled cfg.numLayers req (i + 1) i))
        (if req.isContextblend ∧ i < req.qcomputeEnd.getD cfg.numLayers ∧ req.augmentedLocs.isSome then
          [.run (.accumulateKvzipLayerScore i (req.forward.kvzipScores i))] else [])
        (AtRest loaders (Filled cfg.numLayers req (i + 1) (i + 1))) := by
      have hscores : accumulatedScores cfg.numLayers req (i + 1) =
          if req.isContextblend ∧ i < req.qcomputeEnd.getD cfg.numLayers ∧ req.augmentedLocs.isSome then
            accumulateScores (accumulatedScores cfg.numLayers req i) i (req.forward.kvzipScores i)
          else accumulatedScores cfg.numLayers req i := rfl
      split
      next hscored =>
        rw [if_pos hscored] at hscores
        refine .next (stable_atRest hended _) (fun _ _ => trivial) (fun s s' hs hstep => ?_)
          (.done (stable_atRest hended _) fun _ hs => hs)
        cases exec_effect hstep with
        | run stmt rt hrt =>
          cases hrt
          refine ⟨hs.1, hs.2.bounded, hs.2.long, hs.2.k, hs.2.v, ?_⟩
          rw [hscores, ← hs.2.scores]
      next hplain =>
        rw [if_neg hplain] at hscores
        refine .done (stable_atRest hended _) fun s hs => ⟨hs.1, hs.2.bounded, hs.2.long, hs.2.k, hs.2.v, ?_⟩
        rw [hscores]
        exact hs.2.scores
    have hfinish : Outline (Exec cfg req) (Rely cfg) (SaveDemand cfg req)
        (AtRest loaders (Filled cfg.numLayers req (i + 1) (i + 1)))
        (if i + 1 = cfg.numLayers then [.finishKvCompute true] else [])
        (AtRest loaders fun rt => PoolBounded cfg.numLayers rt ∧
          (i + 1 < cfg.numLayers → Filled cfg.numLayers req (i + 1) (i + 1) rt)) := by
      split
      next hlast =>
        refine .next (stable_atRest hended _) ?_ (fun s s' hs hstep => ?_)
          (.done (stable_atRest hended _) fun _ hs => hs)
        · rintro s ⟨-, hs⟩ -
          rw [hlast] at hs
          exact hs.ownSave
        · cases exec_effect hstep
          exact ⟨hs.1, hs.2.bounded, fun hlt => by omega⟩
      next => exact .done (stable_atRest hended _) fun s hs => ⟨hs.1, hs.2.bounded, fun _ => hs.2⟩
    exact (hput.append hscore).append hfinish
  apply (hloop.strengthen (stable_atRest hended _) _).weaken
  · exact fun s hs => ⟨hs.1, hs.2.1⟩
  · exact fun s hs => ⟨hs.1, hs.2.bounded, fun _ => hs.2⟩

/-- An offline KVCOMPUTE finds a clear pool and no live loader. -/
def clearBegins (p : Process) : Label → Prop
  | .begin req => SavesOffline req → PoolClear p.shared.rt.hack ∧ Quiet p.shared
  | _ => True

/-- The process in which the request runs first. -/
def freshProcess (cfg : Config) (req : BlendRequest) : Process :=
  ⟨⟨.initial, []⟩, .running req (prefillOps cfg.numLayers .initial req)⟩

/-- What an offline KVCOMPUTE writes is what it writes when it runs first in a fresh process. -/
structure SavesAsFresh (cfg : Config) (p : Process) : Prop where
  saved : ∀ req ops, SavesOffline req → p.main = .running req (.finishKvCompute true :: ops) →
    ∀ fresh rest, (blendMachine cfg).Reach oneRequest (· = freshProcess cfg req) fresh →
      fresh.main = .running req (.finishKvCompute true :: rest) →
        offlineSave cfg req p.shared.rt = offlineSave cfg req fresh.shared.rt
  /-- It gets there: the pool takes every layer. -/
  puts : ∀ req l kv ops, SavesOffline req → p.main = .running req (.run (.putKv l kv) :: ops) →
    ∃ rt, (Stmt.putKv l kv).run cfg.numLayers p.shared.rt = .ok rt

/-- `configure` of an offline KVCOMPUTE leaves the pool as it is and drops the scores. -/
theorem outline_configureOffline {loaders : List Loader} (hended : ∀ t ∈ loaders, t.Ended) :
    Outline (Exec cfg req) (Rely cfg) (SaveDemand cfg req)
      (AtRest loaders fun rt => PoolBounded cfg.numLayers rt ∧ PoolClear rt.hack)
      (configure false true req.ssdCachePathChunk req.ssdCachePathQuery)
      (AtRest loaders (Filled cfg.numLayers req 0 0)) := by
  refine outline_atRest hended [.setMode false true,
    .setSampleDirs req.ssdCachePathChunk req.ssdCachePathQuery, .newLayerEvents, .clearTaskB,
    .clearLoaderError, .clearDigestIndex] _ _ ?_ ?_
  · intro stmt hstmt s
    simp only [List.mem_cons, List.not_mem_nil, or_false] at hstmt
    rcases hstmt with rfl | rfl | rfl | rfl | rfl | rfl <;> trivial
  · rintro rt rt' ⟨hbounded, hclear⟩ hrun
    cases hrun
    exact ⟨hbounded, ⟨Nat.zero_le _, Nat.zero_le _⟩, fun l => (hclear l).1, fun l => (hclear l).2, rfl⟩

theorem covered_offline {s : Shared} (hbounded : PoolBounded cfg.numLayers s.rt)
    (hsaves : SavesOffline req) (hclear : PoolClear s.rt.hack) (hquiet : Quiet s) :
    Covered (Exec cfg req) (Rely cfg) (SaveDemand cfg req) (prefillOps cfg.numLayers s.rt req)
      (fun s => PoolBounded cfg.numLayers s.rt) s := by
  have honline : onlineAfterPrepare s.rt.online req = false := by
    unfold onlineAfterPrepare
    rw [if_pos hsaves.paths, hsaves.style]
    rfl
  have hoffline : offlineAfterPrepare s.rt.online s.rt.offline req = true := by
    unfold offlineAfterPrepare
    rw [if_pos hsaves.paths, hsaves.style]
  have hcleanup : Outline (Exec cfg req) (Rely cfg) (SaveDemand cfg req)
      (AtRest s.loaders (PoolBounded cfg.numLayers)) [.run .clearHackPool, .run .clearContextPool]
      (fun s => PoolBounded cfg.numLayers s.rt) := by
    have hops : ∀ op ∈ [MainOp.run .clearHackPool, .run .clearContextPool], IsOuterOp req op := by
      intro op hop
      simp only [List.mem_cons, List.not_mem_nil, or_false] at hop
      rcases hop with rfl | rfl <;> rfl
    apply (outline_poolBounded (fun op hop => saveDemand_of_outer (hops op hop))
      fun l kv hmem => ?_).strengthen (stable_atRest hquiet _) fun s hs => hs.2
    cases hops _ hmem
  refine ⟨AtRest s.loaders fun rt => PoolBounded cfg.numLayers rt ∧ PoolClear rt.hack, ?_, rfl,
    hbounded, hclear⟩
  unfold prefillOps
  rw [honline, hoffline]
  simp only [forwardOps, postForwardBlendCleanup, hsaves.style, if_true]
  have hbody := (outline_kvCompute hquiet).append hcleanup
  unfold prepareForExtend
  split
  next => exact outline_raise (stable_atRest hquiet _) (fun _ => trivial) (outline_false _)
  next =>
    split
    next => exact outline_raise (stable_atRest hquiet _) (fun _ => trivial) (outline_false _)
    next =>
      simp only [if_pos hsaves.paths, hsaves.style]
      rw [List.append_assoc]
      exact (outline_configureOffline hquiet).append hbody

/-- A request that saves nothing offline. -/
theorem covered_other {s : Shared} (hbounded : PoolBounded cfg.numLayers s.rt)
    (hother : ¬ SavesOffline req) :
    Covered (Exec cfg req) (Rely cfg) (SaveDemand cfg req) (prefillOps cfg.numLayers s.rt req)
      (fun s => PoolBounded cfg.numLayers s.rt) s := by
  refine ⟨_, outline_poolBounded (fun op _ s => ?_) (fun l kv => putKv_mem_prefillOps), hbounded⟩
  cases op with
  | run stmt =>
    cases stmt with
    | putKv l kv => exact fun hsaves => absurd hsaves hother
    | _ => trivial
  | finishKvCompute offline =>
    cases offline with
    | false => trivial
    | true => exact fun hsaves => absurd hsaves hother
  | _ => trivial

theorem runInvariant_fresh (hsaves : SavesOffline req) : RunInvariant cfg (SaveDemand cfg)
    (fun s => PoolBounded cfg.numLayers s.rt) (freshProcess cfg req) := by
  have hbounded : PoolBounded cfg.numLayers (Shared.mk .initial []).rt := ⟨Nat.zero_le _, Nat.zero_le _⟩
  have hclear : PoolClear (Shared.mk .initial []).rt.hack := fun l => ⟨rfl, rfl⟩
  have hquiet : Quiet ⟨.initial, []⟩ := fun t ht => absurd ht List.not_mem_nil
  have hcovered := covered_offline hbounded hsaves hclear hquiet
  exact hcovered

instance (req : BlendRequest) : Decidable (SavesOffline req) :=
  decidable_of_iff (req.blendStyle = .kvCompute ∧ req.isContextblend = true ∧ req.hasSsdPaths = true)
    ⟨fun h => ⟨h.1, h.2.1, h.2.2⟩, fun h => ⟨h.style, h.contextblend, h.paths⟩⟩

/-- A column of bytes. -/
def byteRows (bytes : Bytes) : Tensor := ⟨[bytes.length, 1], .uint8, bytes, by simp [Dtype.itemsize]⟩

/-- A KVCOMPUTE of a system prompt, one document, its zip prompt and a query, one token each. -/
def fourTokenSave : BlendRequest :=
  { oneLayerRequest 1 .kvCompute true 1 "b" with
    criticalLayers := [0]
    blendLocList := [0, 1, 2, 3, 4]
    forward := { (oneLayerRequest 1 .kvCompute true 1 "b").forward with
      kv := fun _ => (byteRows [10, 11, 12, 13], byteRows [20, 21, 22, 23]) } }

theorem fourTokenSave_saves : SavesOffline fourTokenSave := ⟨rfl, rfl, rfl⟩

/-- Up to its save, in a fresh process. -/
def freshSaveRun : List Label := List.replicate 8 .main

theorem freshSaveRun_ends :
    ((blendMachine oneLayer).run freshSaveRun (freshProcess oneLayer fourTokenSave)).isSome = true :=
  rfl

/-- Behind a QCOMPUTE whose layer stays in the pool. -/
def leftoverRun : List Label :=
  [[.begin (oneLayerRequest 0 .qCompute false 0 "a")], List.replicate 11 .main,
    List.replicate 4 (.loader 0 false), [.begin fourTokenSave], List.replicate 8 .main].flatten

theorem leftoverRun_ends : ((blendMachine oneLayer).run leftoverRun .initial).isSome = true :=
  rfl

/-- The bytes of the chunk cache that the forward thread is about to save. -/
def savedBytes (cfg : Config) (p : Process) : Option (Option Bytes) :=
  match p.main with
  | .running req (.finishKvCompute true :: _) =>
    (offlineSave cfg req p.shared.rt).toOption.map fun files => files.1.binFile
  | _ => none

theorem freshSaveRun_bytes : savedBytes oneLayer (((blendMachine oneLayer).run freshSaveRun
    (freshProcess oneLayer fourTokenSave)).get freshSaveRun_ends) =
      some (some [10, 11, 13, 20, 21, 23]) := by
  decide +kernel

theorem leftoverRun_bytes : savedBytes oneLayer (((blendMachine oneLayer).run leftoverRun
    .initial).get leftoverRun_ends) = some (some [1, 10, 12, 1, 20, 22]) := by
  decide +kernel

theorem freshSaveRun_main : ∃ ops, (((blendMachine oneLayer).run freshSaveRun
    (freshProcess oneLayer fourTokenSave)).get freshSaveRun_ends).main =
      .running fourTokenSave (.finishKvCompute true :: ops) := ⟨_, rfl⟩

theorem leftoverRun_main : ∃ ops, (((blendMachine oneLayer).run leftoverRun .initial).get
    leftoverRun_ends).main = .running fourTokenSave (.finishKvCompute true :: ops) := ⟨_, rfl⟩

theorem savedBytes_eq (cfg : Config) {p : Process} {ops : List MainOp}
    (h : p.main = .running req (.finishKvCompute true :: ops)) :
    savedBytes cfg p = (offlineSave cfg req p.shared.rt).toOption.map fun files => files.1.binFile := by
  unfold savedBytes
  rw [h]

/-- The forward thread of a fresh process needs no guard. -/
theorem freshSaveRun_reach : (blendMachine oneLayer).Reach oneRequest
    (· = freshProcess oneLayer fourTokenSave) (((blendMachine oneLayer).run freshSaveRun
      (freshProcess oneLayer fourTokenSave)).get freshSaveRun_ends) := by
  apply Machine.reach_run
  intro label hlabel p
  obtain ⟨-, rfl⟩ := List.mem_replicate.mp hlabel
  trivial

/-- A sample that is finished, with its loader. -/
def finishedRun : List Label :=
  [[.begin (oneLayerRequest 0 .doBlendFinish false 0 "a")], List.replicate 16 .main,
    [.loader 0 false]].flatten

theorem finishedRun_ends : ((blendMachine oneLayer).run finishedRun .initial).isSome = true := by
  decide +kernel

theorem finishedRun_clear : (((blendMachine oneLayer).run finishedRun .initial).get
    finishedRun_ends).shared.rt.hack = .cleared ∧
      (((blendMachine oneLayer).run finishedRun .initial).get finishedRun_ends).shared.loaders.all
        (fun t => decide t.Ended) = true := by
  decide +kernel

/-- The process behind it, when the save begins. -/
def savingProcess : Process :=
  ⟨(((blendMachine oneLayer).run finishedRun .initial).get finishedRun_ends).shared,
    .running fourTokenSave (prefillOps 1 (((blendMachine oneLayer).run finishedRun .initial).get
      finishedRun_ends).shared.rt fourTokenSave)⟩

theorem savingRun_ends :
    ((blendMachine oneLayer).run freshSaveRun savingProcess).isSome = true :=
  rfl

theorem savingRun_bytes : savedBytes oneLayer (((blendMachine oneLayer).run freshSaveRun
    savingProcess).get savingRun_ends) = some (some [10, 11, 13, 20, 21, 23]) := by
  decide +kernel

end QCFuse.Guarantees
