import QCFuse.Guarantees.LayerBuffers

/-!
# A QCOMPUTE and the rounds behind it

The QCOMPUTE starts the loader of the selection layers, which only a selection waits for. A round
that does not select may be over before that loader is.
-/

set_option autoImplicit false

namespace QCFuse.Guarantees

open QCFuse.Library QCFuse.Source

variable {cfg : Config} {req : BlendRequest} {demand : MainOp → Shared → Prop}

/-- The critical layers in the query cache are those of the chunk cache: one KVCOMPUTE writes
both. -/
def CachesAgree (disk : Disk) (req : BlendRequest) : Prop :=
  req.isContextblend = true → ∀ l ∈ req.criticalLayers,
    disk.critical req.ssdCachePathQuery req.ssdCachePathQuery l =
      disk.chunk req.ssdCachePathChunk req.ssdCachePathChunk l

/-- The origin of what a QCOMPUTE and the rounds behind it load. -/
abbrev requestOrigin (cfg : Config) (req : BlendRequest) : Origin :=
  sampleOrigin cfg req.ssdCachePathChunk req.ssdCachePathQuery

/-- The pools in the forward pass of a QCOMPUTE, before layer `i`. -/
abbrev SampleAt (cfg : Config) (req : BlendRequest) (i : Nat) : Shared → Prop :=
  RoundState cfg (requestOrigin cfg req) (req.selectionLayers cfg.numLayers) (blendNeeds 0)
    (fun w => ∃ l, w = .layer l ∧ (l < i ∨ req.endLayer cfg.numLayers ≤ l ∨ req.isContextblend = false))
    (fun _ => False) fun _ => False

/-- Between the requests, the layers' events are done. -/
abbrev SampleLoaded (cfg : Config) (req : BlendRequest) : Shared → Prop :=
  RoundState cfg (requestOrigin cfg req) (req.selectionLayers cfg.numLayers) (blendNeeds 0)
    (fun w => ∃ l, w = .layer l) (fun _ => False) fun _ => False

/-! ## The QCOMPUTE -/

/-- A loader of the QCOMPUTE joins. -/
theorem outline_sampleStart {t : Loader} (hdemand : ∀ s, demand (.start t) s)
    (hfrom : ThreadFrom cfg.disk (requestOrigin cfg req) t)
    (hmeets : ∀ there recorded, ThreadMeets (blendNeeds 0) there recorded t)
    (htidy : Tidy (req.selectionLayers cfg.numLayers) t)
    (honce : ∀ w, pendingSets w t ≤ 1)
    (hlayers : ∀ l, (req.endLayer cfg.numLayers ≤ l ∨ req.isContextblend = false) →
      pendingSets (.layer l) t = 0) :
    Outline (Exec cfg req) (Rely cfg) demand
      (RoundState cfg (requestOrigin cfg req) (req.selectionLayers cfg.numLayers) (blendNeeds 0)
        (fun _ => True) (fun _ => True) fun _ => False)
      [.start t] (SampleAt cfg req 0) := by
  refine .next (roundState_stable _ _ _ _ _ _) (fun s _ => hdemand s) (fun s s' hs hstep => ?_)
    (.done (roundState_stable _ _ _ _ _ _) fun _ hs => hs)
  apply (roundState_start hs hfrom hmeets htidy (fun w _ => ⟨honce w, trivial⟩) hstep).weaken
  · rintro w ⟨l, rfl, hl⟩
    exact ⟨trivial, hlayers l (hl.resolve_left (Nat.not_lt_zero l))⟩
  · exact fun _ h => h.elim
  · exact fun _ => id

theorem outline_samplePrepare (hcaches : CachesAgree cfg.disk req) (source : ContextSource)
    {loaders : List Loader} (hended : ∀ t ∈ loaders, t.Ended) :
    Outline (Exec cfg req) (Rely cfg) (BlendDemand cfg req.ssdCachePathChunk)
      (AtRest loaders fun _ => True) (prepareQCompute cfg.numLayers req source) (SampleAt cfg req 0) := by
  unfold prepareQCompute
  have hconfigure := outline_configured cfg req (BlendDemand cfg req.ssdCachePathChunk) hended
    req.ssdCachePathChunk req.ssdCachePathQuery fun _ _ => trivial
  apply hconfigure.append
  have hstate : ∀ s, AtRest loaders (Configured cfg.numLayers req.ssdCachePathChunk
      req.ssdCachePathQuery) s → RoundState cfg (requestOrigin cfg req)
        (req.selectionLayers cfg.numLayers) (blendNeeds 0) (fun _ => True) (fun _ => True)
        (fun _ => False) s := by
    rintro s ⟨rfl, hs⟩
    exact roundState_configured hs hended
  apply Outline.strengthen (stable_atRest hended _) hstate
  split
  next hquery =>
    split
    next =>
      apply outline_raise (roundState_stable _ _ _ _ _ _) fun _ => trivial
      exact outline_false _
    next hcritical =>
      have hrestore : Outline (Exec cfg req) (Rely cfg) (BlendDemand cfg req.ssdCachePathChunk)
          (RoundState cfg (requestOrigin cfg req) (req.selectionLayers cfg.numLayers) (blendNeeds 0)
            (fun _ => True) (fun _ => True) fun _ => False) [.restoreQueryMetadata]
          (RoundState cfg (requestOrigin cfg req) (req.selectionLayers cfg.numLayers) (blendNeeds 0)
            (fun _ => True) (fun _ => True) fun _ => False) := by
        apply outline_roundKeep
        · intro op hop s
          rw [List.mem_singleton.mp hop]
          trivial
        · intro op hop
          rw [List.mem_singleton.mp hop]
          exact ⟨trivial, nofun⟩
      apply hrestore.append
      have hcount := fun w => pendingSets_queryCache w req.client (req.endLayer cfg.numLayers)
        req.criticalLayers req.ssdCachePathQuery
      apply outline_sampleStart (fun _ => trivial)
      · exact threadFrom_queryCache (fun _ => trivial) fun l hl => hcaches hquery.1 l hl
      · exact fun there recorded => threadMeets_queryCache
          (fun l _ c hc => absurd hc (not_blendNeeds_zero _ c))
          fun c hc => absurd hc (not_blendNeeds_zero _ c)
      · apply tidy_queryCache
        intro l hl
        unfold BlendRequest.selectionLayers
        rwa [if_pos hcritical]
      · intro w
        apply (hcount w).trans
        rw [countP_layer]
        cases w with
        | taskB => exact le_refl _
        | layer l =>
          have hone := List.nodup_iff_count_le_one.mp
            (List.nodup_range (n := req.endLayer cfg.numLayers)) l
          rw [if_neg nofun, Nat.zero_add]
          exact hone
      · rintro l (hl | hplain)
        · have hzero := hcount (.layer l)
          rw [countP_layer, if_neg nofun, Nat.zero_add] at hzero
          apply Nat.le_zero.mp (hzero.trans _)
          rw [Nat.le_zero]
          apply List.count_eq_zero_of_not_mem
          rw [List.mem_range]
          omega
        · rw [hquery.1] at hplain
          cases hplain
  next =>
    have hcount := fun w => pendingSets_taskB w req.client (req.selectionChunkLayers cfg.numLayers)
    apply outline_sampleStart (fun _ => trivial)
    · exact threadFrom_taskB fun _ => rfl
    · exact fun there recorded => threadMeets_taskB fun c hc => absurd hc (not_blendNeeds_zero _ c)
    · exact tidy_taskB fun l hl => hl
    · intro w
      apply (hcount w).trans
      split <;> omega
    · intro l _
      have hzero := hcount (.layer l)
      rw [if_neg nofun] at hzero
      exact Nat.le_zero.mp hzero

/-- The layers of the QCOMPUTE. -/
theorem outline_sampleForward (cfg : Config) (req : BlendRequest) (n : Nat) :
    Outline (Exec cfg req) (Rely cfg) (BlendDemand cfg req.ssdCachePathChunk) (SampleAt cfg req 0)
      ((List.range n).flatMap (qComputeLayer cfg.numLayers true req)) (SampleAt cfg req n) := by
  apply Outline.loop (P := SampleAt cfg req) fun i => roundState_stable _ _ _ _ _ _
  intro i _
  unfold qComputeLayer
  have hcollect : Outline (Exec cfg req) (Rely cfg) (BlendDemand cfg req.ssdCachePathChunk)
      (SampleAt cfg req i)
      ((if cfg.numLayers ≤ i then [MainOp.raiseError] else []) ++
        if req.shouldCollectQ cfg.numLayers i then
          [MainOp.run (.putQ i (req.forward.q i)), .run (.putQueryK i (req.forward.queryK i))] else [])
      (SampleAt cfg req i) := by
    have hops : ∀ op ∈ ((if cfg.numLayers ≤ i then [MainOp.raiseError] else []) ++
        if req.shouldCollectQ cfg.numLayers i then
          [MainOp.run (.putQ i (req.forward.q i)), .run (.putQueryK i (req.forward.queryK i))] else []),
        op = MainOp.raiseError ∨ op = .run (.putQ i (req.forward.q i)) ∨
          op = .run (.putQueryK i (req.forward.queryK i)) := by
      intro op hop
      rcases List.mem_append.mp hop with hop | hop
      · split at hop
        next => exact Or.inl (List.mem_singleton.mp hop)
        next => cases hop
      · split at hop
        next =>
          simp only [List.mem_cons, List.not_mem_nil, or_false] at hop
          exact Or.inr hop
        next => cases hop
    apply outline_roundKeep
    · intro op hop s
      rcases hops op hop with rfl | rfl | rfl <;> trivial
    · intro op hop
      rcases hops op hop with rfl | rfl | rfl <;> exact ⟨trivial, by rintro _ ⟨⟩⟩
  apply hcollect.append
  split
  next hcontext =>
    rw [if_pos rfl]
    have hwait : ∀ op ∈ waitFor (.layer i), ∀ s, BlendDemand cfg req.ssdCachePathChunk op s := by
      intro op hop s
      simp only [waitFor, List.mem_cons, List.not_mem_nil, or_false] at hop
      rcases hop with rfl | rfl <;> trivial
    have hrotate : ∀ op ∈ [MainOp.loadedContext i], KeepsProtocol op ∧ ∀ l, op ≠ .blendLayer l true := by
      intro op hop
      rw [List.mem_singleton.mp hop]
      exact ⟨trivial, by rintro _ ⟨⟩⟩
    apply (outline_roundWait (.layer i) hwait).append
    apply ((outline_roundKeep _ hrotate).strengthen (presentState_stable _ _ _ _ _ _ _ _)
      fun s hs => hs.1).weaken
    · intro s hs
      apply hs.weaken _ (fun _ => id) fun _ => id
      rintro w ⟨l, rfl, hl⟩
      rcases hl with hl | hl
      · rcases Nat.lt_or_eq_of_le (Nat.le_of_lt_succ hl) with hl | rfl
        · exact Or.inl ⟨l, rfl, Or.inl hl⟩
        · exact Or.inr rfl
      · exact Or.inl ⟨l, rfl, Or.inr hl⟩
    · intro op hop s
      rw [List.mem_singleton.mp hop]
      trivial
  next hplain =>
    refine .done (roundState_stable _ _ _ _ _ _) fun s hs => ?_
    apply hs.weaken _ (fun _ => id) fun _ => id
    rintro w ⟨l, rfl, -⟩
    exact ⟨l, rfl, Or.inr (Or.inr (Bool.eq_false_iff.mpr hplain))⟩

/-! ## The rounds -/

theorem offline_stable : Stable (Rely cfg) fun s => s.rt.online = false := by
  rintro s s' hs ⟨index, fails, hstep⟩
  obtain ⟨t, r, ht, hr, hrt, hthreads⟩ := loaderStep_cases hstep
  have heffect := loader_step_effect hr
  rw [hrt]
  generalize r.rt = rt, r.set = event at heffect
  cases heffect <;> exact hs

/-- `cleanup_runtime_state` leaves the process offline. -/
theorem outline_cleanupRuntimeState (hdemand : ∀ stmt s, demand (.run stmt) s) {numLayers : Nat} :
    Outline (Exec cfg req) (Rely cfg) demand (fun _ => True) (cleanupRuntimeState numLayers)
      (fun s => s.rt.online = false) := by
  have hpools : Outline (Exec cfg req) (Rely cfg) demand (fun _ => True)
      [.run .clearHackPool, .run .clearContextPool, .run .clearDigestIndex] (fun _ => True) := by
    apply Outline.keep stable_true _ fun _ _ _ _ _ _ => trivial
    intro op hop s _
    simp only [List.mem_cons, List.not_mem_nil, or_false] at hop
    rcases hop with rfl | rfl | rfl <;> exact hdemand _ s
  have hevents : Outline (Exec cfg req) (Rely cfg) demand (fun s => s.rt.online = false)
      ([MainOp.run .clearTaskB, .run .clearLoaderError] ++ resetLayerEvents numLayers)
      (fun s => s.rt.online = false) := by
    have hops : ∀ op ∈ [MainOp.run .clearTaskB, .run .clearLoaderError] ++ resetLayerEvents numLayers,
        op = .run .clearTaskB ∨ op = .run .clearLoaderError ∨ ∃ l, op = .run (.clearLayerEvent l) := by
      intro op hop
      rcases List.mem_append.mp hop with hop | hop
      · simp only [List.mem_cons, List.not_mem_nil, or_false] at hop
        exact hop.imp_right Or.inl
      · obtain ⟨l, -, rfl⟩ := List.mem_map.mp hop
        exact Or.inr (Or.inr ⟨l, rfl⟩)
    apply Outline.keep offline_stable
    · intro op hop s _
      rcases hops op hop with rfl | rfl | ⟨l, rfl⟩ <;> exact hdemand _ s
    · intro op hop s s' hs hstep
      rcases hops op hop with rfl | rfl | ⟨l, rfl⟩ <;>
        (cases exec_effect hstep with
          | run stmt rt hrt =>
            cases hrt
            exact hs)
  unfold cleanupRuntimeState reset
  apply hpools.append
  refine .next stable_true (fun s _ => hdemand _ s) (fun s s' _ hstep => ?_) hevents
  cases exec_effect hstep with
  | run stmt rt hrt =>
    cases hrt
    rfl

/-- Rounds of DO_BLEND and DO_BLEND_FINISH behind a QCOMPUTE; a request finishes when its cleanup
has taken the process offline. -/
def blendRounds (p : Process) : Label → Prop
  | .begin r => r.hasSsdPaths = true ∧ p.shared.rt.online = true ∧
      (r.blendStyle = .doBlend ∨ r.blendStyle = .doBlendFinish)
  | .finish r => r.blendStyle = .doBlendFinish → p.shared.rt.online = false
  | .main | .loader _ _ => True

instance (p : Process) (label : Label) : Decidable (blendRounds p label) := by
  unfold blendRounds
  split <;> infer_instance

/-- No thread writes a layer that the round clears: the round waits for the loader of the
selection layers, or keeps every layer it loads, or that loader is done already. -/
def Separated (cfg : Config) (req r : BlendRequest) (s : Shared) : Prop :=
  (0 < r.ratio ∧ r.start < cfg.numLayers) ∨
    (∀ l ∈ req.selectionLayers cfg.numLayers, l ∈ r.keepLayersSet cfg.numLayers) ∨ Quiet s

/-- The same, with every DO_BLEND separated from the loaders of the QCOMPUTE. -/
def separatedRounds (cfg : Config) (req : BlendRequest) (p : Process) (label : Label) : Prop :=
  blendRounds p label ∧ match label with
    | .begin r => r.blendStyle = .doBlend → Separated cfg req r p.shared
    | _ => True

instance (cfg : Config) (req : BlendRequest) (p : Process) (label : Label) :
    Decidable (separatedRounds cfg req p label) := by
  unfold separatedRounds Separated Quiet
  split <;> infer_instance

/-- At the use of a layer, the pool holds its K/V of the chunk cache, unrotated. -/
def LayerBuffersSurvive (cfg : Config) (req : BlendRequest) (p : Process) : Prop :=
  ∀ r l direct ops, p.main = .running r (.blendLayer l direct :: ops) →
    p.shared.rt.hack.kvOf l = some (cfg.disk.chunk req.ssdCachePathChunk req.ssdCachePathChunk l)

/-- A process in which a QCOMPUTE with sample directories begins while no loader is alive. -/
structure BeginsSample (cfg : Config) (req : BlendRequest) (p : Process) : Prop
    extends Begins cfg req p where
  style : req.blendStyle = .qCompute
  paths : req.hasSsdPaths = true

/-- Online between two requests, the pools are those behind the QCOMPUTE. -/
def RoundIdle (cfg : Config) (req : BlendRequest) (s : Shared) : Prop :=
  s.rt.online = true → SampleLoaded cfg req s

theorem roundIdle_stable : Stable (Rely cfg) (RoundIdle cfg req) := by
  intro s s' hs hrely honline
  refine roundState_stable _ _ _ _ _ _ s s' (hs ?_) hrely
  by_contra hoffline
  rw [offline_stable s s' (Bool.eq_false_iff.mpr hoffline) hrely] at honline
  cases honline

theorem RoundIdle.of_offline {s : Shared} (h : s.rt.online = false) : RoundIdle cfg req s := by
  intro honline
  rw [h] at honline
  cases honline

theorem covered_sample {s : Shared} (hcaches : CachesAgree cfg.disk req) (hquiet : Quiet s)
    (hstyle : req.blendStyle = .qCompute) (hpaths : req.hasSsdPaths = true) :
    Covered (Exec cfg req) (Rely cfg) (BlendDemand cfg req.ssdCachePathChunk)
      (prefillOps cfg.numLayers s.rt req) (RoundIdle cfg req) s := by
  have honline : onlineAfterPrepare s.rt.online req = true := by
    unfold onlineAfterPrepare
    rw [if_pos hpaths, hstyle]
    rfl
  have hloaded : ∀ s, SampleAt cfg req (req.endLayer cfg.numLayers) s → RoundIdle cfg req s := by
    intro s hs _
    apply hs.weaken _ (fun _ => id) fun _ => id
    rintro w ⟨l, rfl⟩
    exact ⟨l, rfl, (Nat.lt_or_ge l _).imp_right Or.inl⟩
  refine ⟨AtRest s.loaders fun _ => True, ?_, rfl, trivial⟩
  simp only [prefillOps, honline, forwardOps, hstyle, postForwardBlendCleanup, List.append_nil]
  have hkv : req.blendStyle ≠ .kvCompute := by
    rw [hstyle]
    rintro ⟨⟩
  rcases prepareForExtend_cases hpaths hkv with hraise | ⟨source, hprepare⟩
  · rw [hraise]
    exact outline_raise (stable_atRest hquiet _) (fun _ => trivial) (outline_false _)
  · rw [hprepare, if_pos hstyle]
    exact (outline_samplePrepare hcaches source hquiet).append
      ((outline_sampleForward cfg req (req.endLayer cfg.numLayers)).weaken hloaded)

theorem RoundState.quiet {o : Origin} {selection : List Nat} {n : Needs} {settled fresh : Wait → Prop}
    {blended : Nat → Prop} {s : Shared} (h : RoundState cfg o selection n settled fresh blended s)
    (hquiet : Quiet s) : RoundState cfg o selection n (fun _ => True) fresh blended s :=
  ⟨h.held, h.protocol, h.tidy, h.once, fun _ _ => totalSets_quiet hquiet, h.fresh⟩

/-- A DO_BLEND that is separated from the loaders of the QCOMPUTE. -/
theorem covered_doBlend {s : Shared} {r : BlendRequest} (hs : SampleLoaded cfg req s)
    (hstyle : r.blendStyle = .doBlend) (hseparated : Separated cfg req r s) :
    Covered (Exec cfg r) (Rely cfg) (BlendDemand cfg req.ssdCachePathChunk)
      (prepareDoBlend cfg.numLayers true r ++
        (List.range cfg.numLayers).flatMap (doBlendLayer cfg.numLayers true r) ++
        clearDoBlendLayers cfg.numLayers (r.keepLayersSet cfg.numLayers)) (SampleLoaded cfg req) s := by
  have hround : r.blendStyle ≠ .doBlendFinish := by
    rw [hstyle]
    exact nofun
  rcases hseparated with hselects | hkeeps | hquiet
  · refine ⟨_, outline_doBlendRound cfg _ _ _ r hround (fun l => ⟨l, rfl⟩) fun l _ => ?_, hs⟩
    exact Or.inr (Or.inr hselects.symm)
  · refine ⟨_, outline_doBlendRound cfg _ _ _ r hround (fun l => ⟨l, rfl⟩) fun l hl => ?_, hs⟩
    exact Or.inl fun hsel => hl (hkeeps l hsel)
  · refine ⟨_, outline_doBlendRound cfg _ _ _ r hround (fun _ => trivial) fun l _ => ?_, hs.quiet hquiet⟩
    exact Or.inr (Or.inl trivial)

theorem covered_round {s : Shared} {r : BlendRequest} (hs : SampleLoaded cfg req s)
    (honline : s.rt.online = true) (hpaths : r.hasSsdPaths = true)
    (hstyle : r.blendStyle = .doBlend ∨ r.blendStyle = .doBlendFinish)
    (hseparated : r.blendStyle = .doBlend → Separated cfg req r s) :
    Covered (Exec cfg r) (Rely cfg) (BlendDemand cfg req.ssdCachePathChunk)
      (prefillOps cfg.numLayers s.rt r) (RoundIdle cfg req) s := by
  have hstays : onlineAfterPrepare s.rt.online r = true := by
    unfold onlineAfterPrepare
    rw [if_pos hpaths]
    rcases hstyle with hstyle | hstyle <;> rw [hstyle] <;> rfl
  have hne : r.blendStyle ≠ .kvCompute ∧ r.blendStyle ≠ .qCompute := by
    rcases hstyle with hstyle | hstyle <;> rw [hstyle] <;> exact ⟨nofun, nofun⟩
  unfold prefillOps
  rw [honline] at hstays ⊢
  rw [hstays]
  rcases prepareForExtend_cases hpaths hne.1 with hraise | ⟨source, hprepare⟩
  · rw [hraise]
    exact ⟨_, outline_raise (roundState_stable _ _ _ _ _ _) (fun _ => trivial) (outline_false _), hs⟩
  · rw [hprepare, if_neg hne.2]
    rcases hstyle with hstyle | hstyle
    · simp only [forwardOps, postForwardBlendCleanup, hstyle, if_true]
      obtain ⟨P, houtline, hP⟩ := covered_doBlend hs hstyle (hseparated hstyle)
      exact ⟨P, houtline.weaken fun s hs _ => hs, hP⟩
    · simp only [forwardOps, postForwardBlendCleanup, hstyle]
      refine ⟨_, Outline.append (Outline.append (outline_roundPrepare (fun _ _ => trivial)
        (fun _ _ => trivial) (fun _ => rfl) fun l => ⟨l, rfl⟩)
        (outline_roundForward cfg _ _ _ r _)) ?_, hs⟩
      apply (outline_cleanupRuntimeState fun _ _ => trivial).strengthen (roundState_stable _ _ _ _ _ _)
        (fun _ _ => trivial) |>.weaken
      exact fun s hs => RoundIdle.of_offline hs

/-- In every run of rounds behind a QCOMPUTE whose DO_BLENDs are separated from its loaders, a layer
is used as the chunk cache has it. -/
theorem layerBuffersSurvive_of_separated (cfg : Config) (req : BlendRequest)
    (hcaches : CachesAgree cfg.disk req) (p : Process)
    (h : (blendMachine cfg).Reach (separatedRounds cfg req) (BeginsSample cfg req) p) :
    LayerBuffersSurvive cfg req p := by
  have hinv : RunInvariant cfg (fun _ => BlendDemand cfg req.ssdCachePathChunk) (RoundIdle cfg req) p := by
    refine runInvariant roundIdle_stable ?_ ?_ ?_ h
    · rintro ⟨shared, main⟩ ⟨⟨hmain, hquiet⟩, hstyle, hpaths⟩
      simp only at hmain
      subst hmain
      exact covered_sample hcaches hquiet hstyle hpaths
    · rintro s r hidle ⟨⟨hpaths, honline, hstyle⟩, hseparated⟩
      exact covered_round (hidle honline) honline hpaths hstyle hseparated
    · rintro s r hidle ⟨hoffline, -⟩
      unfold cacheFinishedReq
      split
      next hfinish =>
        refine ⟨fun _ => True, ?_, trivial⟩
        apply (outline_cleanupRuntimeState fun _ _ => trivial).weaken
        exact fun s hs => RoundIdle.of_offline hs
      next => exact ⟨_, .done roundIdle_stable fun _ hs => hs, hidle⟩
  obtain ⟨shared, main⟩ := p
  rintro r l direct ops rfl
  exact RunInvariant.demanded hinv

/-! ## A round that clears a layer while it is loaded -/

/-- Two layers. -/
def twoLayers : Config := { oneLayer with numLayers := 2 }

/-- A QCOMPUTE that selects by layer 1, so that its loader reads that layer. -/
def layerOneQuery : BlendRequest :=
  { oneLayerRequest 0 .qCompute false 0 "a" with criticalLayers := [1] }

/-- A round without selection, which keeps layer 0 only. -/
def layerZeroRound : BlendRequest :=
  { oneLayerRequest 0 .doBlend false 0 "a" with criticalLayers := [0] }

/-- The process that begins with the QCOMPUTE. -/
def layerOneStart : Process :=
  ⟨⟨.initial, []⟩, .running layerOneQuery (prefillOps 2 .initial layerOneQuery)⟩

theorem layerOneStart_begins : BeginsSample twoLayers layerOneQuery layerOneStart :=
  ⟨⟨rfl, fun _ ht => absurd ht List.not_mem_nil⟩, rfl, rfl⟩

/-- The cleanup of a round drops K of layer 1, the loader of the QCOMPUTE puts K and V, the cleanup
drops V, and the prefetch of the next round finds K. -/
def clearedHalfRun : List Label :=
  [List.replicate 11 .main, List.replicate 2 (.loader 0 false), [.begin layerZeroRound],
    List.replicate 3 .main, List.replicate 5 (.loader 1 false), List.replicate 4 .main,
    [.loader 0 false], List.replicate 4 .main, [.begin layerZeroRound], List.replicate 3 .main,
    List.replicate 2 (.loader 2 false), List.replicate 2 .main].flatten

theorem clearedHalfRun_ends :
    ((blendMachine twoLayers).guardedRun blendRounds clearedHalfRun layerOneStart).isSome = true :=
  rfl

/-- The layer that the forward thread is about to use, and what the pool holds of it. -/
def usedLayer (p : Process) : Option (Nat × Option KvPair) :=
  match p.main with
  | .running _ (.blendLayer l _ :: _) => some (l, p.shared.rt.hack.kvOf l)
  | _ => none

theorem LayerBuffersSurvive.used {cfg : Config} {req : BlendRequest} {p : Process}
    (h : LayerBuffersSurvive cfg req p) {l : Nat} {kv : Option KvPair} (hused : usedLayer p = some (l, kv)) :
    kv = some (cfg.disk.chunk req.ssdCachePathChunk req.ssdCachePathChunk l) := by
  unfold usedLayer at hused
  split at hused
  next r l' direct ops hmain =>
    cases hused
    exact h r l direct ops hmain
  next => cases hused

theorem clearedHalfRun_used : usedLayer (((blendMachine twoLayers).guardedRun blendRounds clearedHalfRun
    layerOneStart).get clearedHalfRun_ends) = some (1, none) :=
  rfl

/-- Layer 1 has V without K when the second round comes to it. -/
theorem layerBuffers_cleared :
    ¬ ∀ cfg req p, CachesAgree cfg.disk req →
      (blendMachine cfg).Reach blendRounds (BeginsSample cfg req) p → LayerBuffersSurvive cfg req p := by
  intro h
  have hreach := (Machine.reach_guardedRun clearedHalfRun_ends).weaken (fun _ _ => id)
    fun p hp => hp ▸ layerOneStart_begins
  have hsurvive := h _ _ _ (fun hcontext => absurd hcontext Bool.false_ne_true) hreach
  cases hsurvive.used clearedHalfRun_used

/-- Up to the use of layer 1 in a DO_BLEND_FINISH behind the QCOMPUTE. -/
def finishRoundRun : List Label :=
  [List.replicate 11 .main, [.begin (oneLayerRequest 0 .doBlendFinish false 0 "a")],
    List.replicate 3 .main, List.replicate 5 (.loader 1 false), List.replicate 2 .main].flatten

theorem finishRoundRun_ends :
    ((blendMachine twoLayers).guardedRun (separatedRounds twoLayers layerOneQuery) finishRoundRun
      layerOneStart).isSome = true :=
  rfl

theorem finishRoundRun_used : (usedLayer (((blendMachine twoLayers).guardedRun
    (separatedRounds twoLayers layerOneQuery) finishRoundRun layerOneStart).get
      finishRoundRun_ends)).map Prod.fst = some 1 :=
  rfl

theorem layerBuffersSurvive_of_separated_finish :
    ∃ p, (blendMachine twoLayers).Reach (separatedRounds twoLayers layerOneQuery)
      (BeginsSample twoLayers layerOneQuery) p ∧ (usedLayer p).map Prod.fst = some 1 ∧
        LayerBuffersSurvive twoLayers layerOneQuery p := by
  have hreach := (Machine.reach_guardedRun finishRoundRun_ends).weaken (fun _ _ => id)
    fun p hp => hp ▸ layerOneStart_begins
  exact ⟨_, hreach, finishRoundRun_used,
    layerBuffersSurvive_of_separated _ _ (fun hcontext => absurd hcontext Bool.false_ne_true) _ hreach⟩

end QCFuse.Guarantees
