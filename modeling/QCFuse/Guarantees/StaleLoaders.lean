import QCFuse.Guarantees.QueryLoad

/-!
# Loaders of an earlier request

Threads are never joined, and find the pools, the events and the directories through the class.
While the directories stay, whatever thread answers a wait has read them; where they change, no
thread may be left.
-/

set_option autoImplicit false

namespace QCFuse.Guarantees

open QCFuse.Library QCFuse.Source

variable {cfg : Config} {req : BlendRequest}

/-- K/V of a layer that was read from these sample directories. -/
def ReadFrom (disk : Disk) (chunk query : Dir) (l : Nat) (kv : KvPair) : Prop :=
  kv = disk.chunk chunk chunk l ∨ kv = disk.critical query query l

def ownOrigin (disk : Disk) (chunk query : Dir) : Origin where
  chunkDir := chunk
  queryDir := query
  digest l kv := kv = disk.digest query query l
  cache := ReadFrom disk chunk query

/-- The pools hold what was read from the request's sample directories, the layers of
`ContextBlendPool` that were rotated and those of `HackBlendKVPool` that were blended apart. -/
abbrev OwnHeld (cfg : Config) (req : BlendRequest) (rotated blended : Nat → Prop) : Shared → Prop :=
  Held cfg.disk (ownOrigin cfg.disk req.ssdCachePathChunk req.ssdCachePathQuery) rotated blended

/-- Between requests: everything was read from the configured directories. -/
def HeldIdle (cfg : Config) (s : Shared) : Prop :=
  ∃ chunk query, Held cfg.disk (ownOrigin cfg.disk chunk query) (fun _ => True) (fun _ => False) s

/-- What the wait guards in the pool was read from the request's directories: digest rows in a
QCOMPUTE, whole layers in the rounds. -/
def GuardedReads (cfg : Config) (req : BlendRequest) (rt : Runtime) : Wait → Prop
  | .layer l =>
    if req.blendStyle = .qCompute then
      ∀ kv, rt.context.kvOf l = some kv →
        kv = cfg.disk.digest req.ssdCachePathQuery req.ssdCachePathQuery l
    else ∀ kv, rt.hack.kvOf l = some kv →
      ReadFrom cfg.disk req.ssdCachePathChunk req.ssdCachePathQuery l kv
  | .taskB => ∀ l kv, rt.hack.kvOf l = some kv →
      ReadFrom cfg.disk req.ssdCachePathChunk req.ssdCachePathQuery l kv

def ReadDemand (cfg : Config) (req : BlendRequest) : MainOp → Shared → Prop
  | .raiseLoaderError w, s => GuardedReads cfg req s.rt w
  | _, _ => True

theorem heldIdle_stable : Stable (Rely cfg) (HeldIdle cfg) := by
  rintro s s' ⟨chunk, query, hs⟩ hrely
  exact ⟨chunk, query, held_stable _ _ s s' hs hrely⟩

/-! ## Statements -/

section Statements

variable {rotated blended : Nat → Prop}

theorem readDemand_of_ne {op : MainOp} (h : ∀ w, op ≠ .raiseLoaderError w) (s : Shared) :
    ReadDemand cfg req op s := by
  cases op with
  | raiseLoaderError w => exact absurd rfl (h w)
  | _ => trivial

/-- A statement that returns from no wait and puts no tensor of its own into the pools. -/
def KeepsOwn (cfg : Config) (req : BlendRequest) (op : MainOp) : Prop :=
  KeepsHeld cfg.disk (ownOrigin cfg.disk req.ssdCachePathChunk req.ssdCachePathQuery) op ∧
    (∀ w, op ≠ .raiseLoaderError w) ∧ (∀ l, op ≠ .loadedContext l) ∧ ∀ l, op ≠ .blendLayer l true

theorem outline_ownKeep {ops : List MainOp} (hops : ∀ op ∈ ops, KeepsOwn cfg req op) :
    Outline (Exec cfg req) (Rely cfg) (ReadDemand cfg req) (OwnHeld cfg req rotated blended) ops
      (OwnHeld cfg req rotated blended) := by
  apply Outline.keep (held_stable _ _) fun op hop s _ => readDemand_of_ne (hops op hop).2.1 s
  intro op hop s s' hs hstep
  obtain ⟨hkeeps, -, hrotate, hblend⟩ := hops op hop
  exact (held_exec hkeeps hs hstep).weaken (fun l hl => hl.resolve_right (hrotate l))
    fun l hl => hl.resolve_right (hblend l)

/-- A wait finds what it guards. -/
theorem outline_ownWait (w : Wait)
    (hguarded : ∀ s, OwnHeld cfg req rotated blended s → GuardedReads cfg req s.rt w) :
    Outline (Exec cfg req) (Rely cfg) (ReadDemand cfg req) (OwnHeld cfg req rotated blended) (waitFor w)
      (OwnHeld cfg req rotated blended) := by
  refine .next (held_stable _ _) (fun _ _ => trivial) ?_ (.next (held_stable _ _) hguarded ?_
    (.done (held_stable _ _) fun _ hs => hs))
  · intro s s' hs hstep
    cases exec_effect hstep
    exact hs
  · intro s s' hs hstep
    cases exec_effect hstep
    exact hs

theorem keepsOwn_reset {numLayers : Nat} : ∀ op ∈ resetLayerEvents numLayers, KeepsOwn cfg req op := by
  intro op hop
  obtain ⟨l, -, rfl⟩ := List.mem_map.mp hop
  exact ⟨trivial, nofun, nofun, nofun⟩

theorem keepsOwn_configure (online : Bool) : ∀ op ∈ configure online false req.ssdCachePathChunk
    req.ssdCachePathQuery, KeepsOwn cfg req op := by
  intro op hop
  simp only [configure, Bool.false_eq_true, if_false, List.append_nil, List.mem_cons, List.not_mem_nil,
    or_false] at hop
  rcases hop with rfl | rfl | rfl | rfl | rfl
  · exact ⟨trivial, by rintro _ ⟨⟩, by rintro _ ⟨⟩, by rintro _ ⟨⟩⟩
  · exact ⟨⟨rfl, rfl⟩, by rintro _ ⟨⟩, by rintro _ ⟨⟩, by rintro _ ⟨⟩⟩
  · exact ⟨trivial, by rintro _ ⟨⟩, by rintro _ ⟨⟩, by rintro _ ⟨⟩⟩
  · exact ⟨trivial, by rintro _ ⟨⟩, by rintro _ ⟨⟩, by rintro _ ⟨⟩⟩
  · exact ⟨trivial, by rintro _ ⟨⟩, by rintro _ ⟨⟩, by rintro _ ⟨⟩⟩

/-- A statement that puts a tensor into the pools or sets the directories. -/
def changesOwn : Stmt → Bool
  | .putKv _ _ => true
  | .setSampleDirs _ _ => true
  | _ => false

theorem keepsHeld_stmt {disk : Disk} {origin : Origin} {stmt : Stmt} (h : changesOwn stmt = false) :
    KeepsHeld disk origin (.run stmt) := by
  cases stmt with
  | putKv l kv => cases h
  | setSampleDirs chunk query => cases h
  | _ => trivial

theorem keepsOwn_stmt {stmt : Stmt} (h : changesOwn stmt = false) : KeepsOwn cfg req (.run stmt) :=
  ⟨keepsHeld_stmt h, nofun, nofun, nofun⟩

/-- A statement after which a layer of `HackBlendKVPool` is empty. -/
theorem outline_ownClear {stmt : Stmt} {cleared : Nat → Prop} (hkeeps : KeepsOwn cfg req (.run stmt))
    (hcleared : ∀ rt rt', stmt.run cfg.numLayers rt = .ok rt' → ∀ l, cleared l → rt'.hack.kvOf l = none) :
    Outline (Exec cfg req) (Rely cfg) (ReadDemand cfg req) (OwnHeld cfg req rotated blended) [.run stmt]
      (OwnHeld cfg req rotated fun l => blended l ∧ ¬ cleared l) := by
  refine .next (held_stable _ _) (fun _ _ => trivial) (fun s s' hs hstep => ?_)
    (.done (held_stable _ _) fun _ hs => hs)
  have hheld := held_exec hkeeps.1 hs hstep
  cases exec_effect hstep with
  | run stmt rt hrt =>
    refine ⟨hheld.chunkDir, hheld.queryDir, fun l kv hl => ?_, fun l kv hl => ?_, hheld.threads⟩
    · exact (hheld.context l kv hl).imp_left fun h => h.resolve_right nofun
    · refine (hheld.hack l kv hl).imp_left fun h => ⟨h.resolve_right nofun, fun hnone => ?_⟩
      rw [hcleared s.rt rt hrt l hnone] at hl
      cases hl

/-- `init_buffers` of the context pool. -/
theorem outline_ownInitContext :
    Outline (Exec cfg req) (Rely cfg) (ReadDemand cfg req) (OwnHeld cfg req rotated blended)
      [.run .initContextBuffers] (OwnHeld cfg req (fun _ => False) blended) := by
  refine .next (held_stable _ _) (fun _ _ => trivial) (fun s s' hs hstep => ?_)
    (.done (held_stable _ _) fun _ hs => hs)
  have hkeeps : KeepsHeld cfg.disk (ownOrigin cfg.disk req.ssdCachePathChunk req.ssdCachePathQuery)
      (.run .initContextBuffers) := trivial
  have hheld := held_exec hkeeps hs hstep
  cases exec_effect hstep with
  | run stmt rt hrt =>
    cases hrt
    refine ⟨hheld.chunkDir, hheld.queryDir, fun l kv hl => ?_, fun l kv hl => ?_, hheld.threads⟩
    · rw [kvOf_initContext] at hl
      cases hl
    · exact (hheld.hack l kv hl).imp_left fun h => h.resolve_right nofun

end Statements

/-! ## The QCOMPUTE -/

/-- The directories stay, or the request configures its own while no loader is alive. -/
def OwnDirs (req : BlendRequest) (s : Shared) : Prop :=
  (s.rt.sampleDirChunk = req.ssdCachePathChunk ∧ s.rt.sampleDirQuery = req.ssdCachePathQuery) ∨
    (Quiet s ∧ (req.blendStyle = .qCompute ∨ s.rt.online = false))

/-- What the QCOMPUTE starts loads from its directories. -/
theorem keepsOwn_queryLoaders (source : ContextSource) :
    ∀ op ∈ (if req.isContextblend ∧ source = .query then
      if req.criticalLayers = [] then [.raiseError]
      else [.restoreQueryMetadata, .start (.queryCache req.client (req.endLayer cfg.numLayers)
        req.criticalLayers req.ssdCachePathQuery)]
    else [.start (.taskB req.client (req.selectionChunkLayers cfg.numLayers))]), KeepsOwn cfg req op := by
  intro op hop
  split at hop
  next =>
    split at hop
    next =>
      rw [List.mem_singleton.mp hop]
      exact ⟨trivial, nofun, nofun, nofun⟩
    next =>
      simp only [List.mem_cons, List.not_mem_nil, or_false] at hop
      rcases hop with rfl | rfl
      · exact ⟨trivial, nofun, nofun, nofun⟩
      · exact ⟨threadFrom_queryCache (fun _ => rfl) fun _ _ => Or.inr rfl, nofun, nofun, nofun⟩
  next =>
    rw [List.mem_singleton.mp hop]
    exact ⟨threadFrom_taskB fun _ => Or.inl rfl, nofun, nofun, nofun⟩

theorem covered_queryPrepare {s : Shared} (hidle : HeldIdle cfg s) (hdirs : OwnDirs req s)
    (source : ContextSource) :
    Covered (Exec cfg req) (Rely cfg) (ReadDemand cfg req) (prepareQCompute cfg.numLayers req source)
      (OwnHeld cfg req (fun l => l < 0) fun _ => False) s := by
  have hnone : ∀ s, OwnHeld cfg req (fun _ => False) (fun _ => False) s →
      OwnHeld cfg req (fun l => l < 0) (fun _ => False) s :=
    fun s hs => hs.weaken (fun _ h => h.elim) fun _ => id
  unfold prepareQCompute
  rcases hdirs with ⟨hchunk, hquery⟩ | ⟨hquiet, -⟩
  · -- the same directories: what is still loaded for an earlier request is this one's too
    obtain ⟨chunk, query, hs⟩ := hidle
    have heq : chunk = req.ssdCachePathChunk ∧ query = req.ssdCachePathQuery :=
      ⟨hs.chunkDir.symm.trans hchunk, hs.queryDir.symm.trans hquery⟩
    obtain ⟨rfl, rfl⟩ := heq
    have hinit : Outline (Exec cfg req) (Rely cfg) (ReadDemand cfg req)
        (OwnHeld cfg req (fun _ => True) fun _ => False) [.run .initHackBuffers]
        (OwnHeld cfg req (fun _ => True) fun _ => False) := by
      apply outline_ownKeep
      intro op hop
      rw [List.mem_singleton.mp hop]
      exact keepsOwn_stmt rfl
    have hpools := hinit.append outline_ownInitContext
    exact ⟨_, (hpools.append (outline_ownKeep (keepsOwn_configure true))).append
      ((outline_ownKeep (keepsOwn_queryLoaders source)).weaken hnone), hs⟩
  · refine ⟨AtRest s.loaders fun _ => True, ?_, rfl, trivial⟩
    apply (outline_configured cfg req (ReadDemand cfg req) hquiet _ _ fun _ _ => trivial).append
    apply ((outline_ownKeep (keepsOwn_queryLoaders source)).weaken hnone).strengthen
      (stable_atRest hquiet _)
    rintro s' ⟨hloaders, hs⟩
    exact held_configured hs fun t ht => hquiet t (hloaders ▸ ht)

theorem outline_queryReads (cfg : Config) (req : BlendRequest) (hstyle : req.blendStyle = .qCompute)
    (n : Nat) :
    Outline (Exec cfg req) (Rely cfg) (ReadDemand cfg req)
      (OwnHeld cfg req (fun l => l < 0) fun _ => False)
      ((List.range n).flatMap (qComputeLayer cfg.numLayers true req))
      (OwnHeld cfg req (fun l => l < n) fun _ => False) := by
  apply Outline.loop (P := fun i => OwnHeld cfg req (fun l => l < i) fun _ => False)
    fun i => held_stable _ _
  intro i _
  unfold qComputeLayer
  have hcollect : Outline (Exec cfg req) (Rely cfg) (ReadDemand cfg req)
      (OwnHeld cfg req (fun l => l < i) fun _ => False)
      ((if cfg.numLayers ≤ i then [MainOp.raiseError] else []) ++
        if req.shouldCollectQ cfg.numLayers i then
          [MainOp.run (.putQ i (req.forward.q i)), .run (.putQueryK i (req.forward.queryK i))] else [])
      (OwnHeld cfg req (fun l => l < i) fun _ => False) := by
    apply outline_ownKeep
    intro op hop
    rcases List.mem_append.mp hop with hop | hop
    · split at hop
      next =>
        rw [List.mem_singleton.mp hop]
        exact ⟨trivial, nofun, nofun, nofun⟩
      next => cases hop
    · split at hop
      next =>
        simp only [List.mem_cons, List.not_mem_nil, or_false] at hop
        rcases hop with rfl | rfl <;> exact keepsOwn_stmt rfl
      next => cases hop
  apply hcollect.append
  have hsucc : ∀ s, OwnHeld cfg req (fun l => l < i ∨ l = i) (fun _ => False) s →
      OwnHeld cfg req (fun l => l < i + 1) (fun _ => False) s := fun s hs =>
    hs.weaken (fun l hl => by omega) fun _ => id
  split
  next =>
    rw [if_pos rfl]
    -- the rows of the layer are not rotated yet
    have hwait : Outline (Exec cfg req) (Rely cfg) (ReadDemand cfg req)
        (OwnHeld cfg req (fun l => l < i) fun _ => False) (waitFor (.layer i))
        (OwnHeld cfg req (fun l => l < i) fun _ => False) := by
      apply outline_ownWait
      intro s hs
      simp only [GuardedReads, if_pos hstyle]
      exact fun kv hkv => (hs.context i kv hkv).resolve_left (Nat.lt_irrefl i)
    apply hwait.append
    refine .next (held_stable _ _) (fun _ _ => trivial) (fun s s' hs hstep => ?_)
      (.done (held_stable _ _) hsucc)
    have hkeeps : KeepsHeld cfg.disk (ownOrigin cfg.disk req.ssdCachePathChunk req.ssdCachePathQuery)
        (.loadedContext i) := trivial
    apply (held_exec hkeeps hs hstep).weaken _ fun l hl => hl.resolve_right nofun
    exact fun l hl => hl.imp_right fun heq => by cases heq; rfl
  next => exact .done (held_stable _ _) fun s hs => hsucc s (hs.weaken (fun _ => Or.inl) fun _ => id)

/-! ## The rounds -/

/-- The layers that a round has overwritten in the pool before it comes to layer `i`. -/
def BlendedBefore (req : BlendRequest) (numLayers i l : Nat) : Prop :=
  req.start < l ∧ l < i ∧ (req.blendStyle = .doBlendFinish ∨ l ∉ req.keepLayersSet numLayers)

/-- What is behind the configuration of a round. -/
theorem keepsOwn_prefetch : ∀ op ∈ resetLayerEvents cfg.numLayers ++
    [.start (.doBlendPrefetch req.client (req.start + 1) cfg.numLayers)], KeepsOwn cfg req op := by
  intro op hop
  rcases List.mem_append.mp hop with hop | hop
  · exact keepsOwn_reset op hop
  · rw [List.mem_singleton.mp hop]
    exact ⟨threadFrom_doBlendPrefetch fun _ => Or.inl rfl, nofun, nofun, nofun⟩

theorem covered_roundPrepare {s : Shared} (hidle : HeldIdle cfg s) (hdirs : OwnDirs req s)
    (hstyle : req.blendStyle ≠ .qCompute) :
    Covered (Exec cfg req) (Rely cfg) (ReadDemand cfg req)
      (prepareDoBlend cfg.numLayers s.rt.online req)
      (OwnHeld cfg req (fun _ => True) (BlendedBefore req cfg.numLayers 0)) s := by
  have hnone : ∀ s, OwnHeld cfg req (fun _ => True) (fun _ => False) s →
      OwnHeld cfg req (fun _ => True) (BlendedBefore req cfg.numLayers 0) s :=
    fun s hs => hs.weaken (fun _ => id) fun _ h => h.elim
  unfold prepareDoBlend
  rw [List.append_assoc]
  rcases hdirs with ⟨hchunk, hquery⟩ | ⟨hquiet, hfresh⟩
  · obtain ⟨chunk, query, hs⟩ := hidle
    have heq : chunk = req.ssdCachePathChunk ∧ query = req.ssdCachePathQuery :=
      ⟨hs.chunkDir.symm.trans hchunk, hs.queryDir.symm.trans hquery⟩
    obtain ⟨rfl, rfl⟩ := heq
    have hinit : ∀ op ∈ (if s.rt.online = true then [] else MainOp.run .initHackBuffers ::
        configure true false req.ssdCachePathChunk req.ssdCachePathQuery), KeepsOwn cfg req op := by
      intro op hop
      split at hop
      next => cases hop
      next =>
        rcases List.mem_cons.mp hop with rfl | hop
        · exact keepsOwn_stmt rfl
        · exact keepsOwn_configure true op hop
    exact ⟨_, (outline_ownKeep hinit).append ((outline_ownKeep keepsOwn_prefetch).weaken hnone), hs⟩
  · rw [hfresh.resolve_left hstyle]
    refine ⟨AtRest s.loaders fun _ => True, ?_, rfl, trivial⟩
    have hconfigure : Outline (Exec cfg req) (Rely cfg) (ReadDemand cfg req)
        (AtRest s.loaders fun _ => True)
        (.run .initHackBuffers :: configure true false req.ssdCachePathChunk req.ssdCachePathQuery)
        (AtRest s.loaders fun rt => rt.hack = .initBuffers cfg.numLayers ∧
          rt.sampleDirChunk = req.ssdCachePathChunk ∧ rt.sampleDirQuery = req.ssdCachePathQuery) := by
      refine outline_atRest hquiet [.initHackBuffers, .setMode true false,
        .setSampleDirs req.ssdCachePathChunk req.ssdCachePathQuery, .newLayerEvents, .clearTaskB,
        .clearLoaderError] _ _ (fun _ _ _ => trivial) ?_
      intro rt rt' _ hrun
      cases hrun
      exact ⟨rfl, rfl, rfl⟩
    apply hconfigure.append
    apply ((outline_ownKeep keepsOwn_prefetch).weaken hnone).strengthen (stable_atRest hquiet _)
    rintro s' ⟨hloaders, hhack, hchunk, hquery⟩
    refine ⟨hchunk, hquery, fun _ _ _ => Or.inl trivial, fun l kv hl => ?_,
      fun t ht => threadFrom_ended (hquiet t (hloaders ▸ ht))⟩
    rw [hhack, kvOf_initHack] at hl
    cases hl

theorem outline_roundReads (cfg : Config) (req : BlendRequest) (hstyle : req.blendStyle ≠ .qCompute) :
    Outline (Exec cfg req) (Rely cfg) (ReadDemand cfg req)
      (OwnHeld cfg req (fun _ => True) (BlendedBefore req cfg.numLayers 0))
      ((List.range cfg.numLayers).flatMap (doBlendLayer cfg.numLayers true req))
      (OwnHeld cfg req (fun _ => True) (BlendedBefore req cfg.numLayers cfg.numLayers)) := by
  apply Outline.loop (P := fun i => OwnHeld cfg req (fun _ => True) (BlendedBefore req cfg.numLayers i))
    fun i => held_stable _ _
  intro i _
  have hsucc : ∀ s, OwnHeld cfg req (fun _ => True) (BlendedBefore req cfg.numLayers i) s →
      OwnHeld cfg req (fun _ => True) (BlendedBefore req cfg.numLayers (i + 1)) s := fun s hs =>
    hs.weaken (fun _ => id) fun l hl => ⟨hl.1, Nat.lt_succ_of_lt hl.2.1, hl.2.2⟩
  unfold doBlendLayer
  split
  next => exact .done (held_stable _ _) hsucc
  next =>
    split
    next hstart =>
      split
      next => exact .done (held_stable _ _) hsucc
      next =>
        rw [if_pos rfl]
        have hwait : Outline (Exec cfg req) (Rely cfg) (ReadDemand cfg req)
            (OwnHeld cfg req (fun _ => True) (BlendedBefore req cfg.numLayers i)) (waitFor .taskB)
            (OwnHeld cfg req (fun _ => True) (BlendedBefore req cfg.numLayers i)) := by
          apply outline_ownWait
          intro s hs l kv hkv
          refine (hs.hack l kv hkv).resolve_left fun h => ?_
          have hlt := h.1
          have hle := h.2.1
          omega
        apply hwait.append
        refine .next (held_stable _ _) (fun _ _ => trivial) (fun s s' hs hstep => ?_)
          (.done (held_stable _ _) hsucc)
        cases exec_effect hstep
        exact hs
    next =>
      rw [if_pos rfl]
      have hwait : Outline (Exec cfg req) (Rely cfg) (ReadDemand cfg req)
          (OwnHeld cfg req (fun _ => True) (BlendedBefore req cfg.numLayers i)) (waitFor (.layer i))
          (OwnHeld cfg req (fun _ => True) (BlendedBefore req cfg.numLayers i)) := by
        apply outline_ownWait
        intro s hs
        simp only [GuardedReads, if_neg hstyle]
        exact fun kv hkv => (hs.hack i kv hkv).resolve_left fun h => Nat.lt_irrefl i h.2.1
      apply hwait.append
      refine .next (held_stable _ _) (fun _ _ => trivial) (fun s s' hs hstep => ?_)
        (.done (held_stable _ _) fun _ hs => hs)
      have hkeeps : KeepsHeld cfg.disk (ownOrigin cfg.disk req.ssdCachePathChunk req.ssdCachePathQuery)
          (.blendLayer i (req.blendStyle = .doBlendFinish ∨
            (true = true ∧ i ∉ req.keepLayersSet cfg.numLayers))) := trivial
      apply (held_exec hkeeps hs hstep).weaken fun _ _ => trivial
      rintro l (⟨hlt, hle, hover⟩ | hl)
      · exact ⟨hlt, Nat.lt_succ_of_lt hle, hover⟩
      · simp only [MainOp.blendLayer.injEq, true_and, decide_eq_true_eq] at hl
        obtain ⟨rfl, hover⟩ := hl
        exact ⟨by omega, Nat.lt_succ_self i, hover⟩

theorem kvOf_clearLayerK {numLayers l : Nat} {rt rt' : Runtime}
    (h : (Stmt.clearLayerK l).run numLayers rt = .ok rt') : rt'.hack.kvOf l = none := by
  cases h
  simp only [HackPool.kvOf, layerOf_cleared, if_true]

/-- The layers that are not kept are cleared, whatever the loaders put there in the meantime. -/
theorem outline_clearReads {keep : List Nat} {blended : Nat → Prop} (n : Nat)
    (hblended : ∀ l, blended l → l < n ∧ l ∉ keep) :
    Outline (Exec cfg req) (Rely cfg) (ReadDemand cfg req) (OwnHeld cfg req (fun _ => True) blended)
      (clearDoBlendLayers n keep) (OwnHeld cfg req (fun _ => True) fun _ => False) := by
  have hloop : Outline (Exec cfg req) (Rely cfg) (ReadDemand cfg req)
      (OwnHeld cfg req (fun _ => True) fun l => blended l ∧ 0 ≤ l)
      ((List.range n).flatMap fun layerId =>
        if layerId ∈ keep then [] else [.run (.clearLayerK layerId), .run (.clearLayerV layerId)])
      (OwnHeld cfg req (fun _ => True) fun l => blended l ∧ n ≤ l) := by
    apply Outline.loop (P := fun i => OwnHeld cfg req (fun _ => True) fun l => blended l ∧ i ≤ l)
      fun i => held_stable _ _
    intro i _
    split
    next hkeep =>
      refine .done (held_stable _ _) fun s hs => hs.weaken (fun _ => id) ?_
      rintro l ⟨hl, hle⟩
      refine ⟨hl, Nat.lt_of_le_of_ne hle ?_⟩
      rintro rfl
      exact (hblended i hl).2 hkeep
    next =>
      have hk : Outline (Exec cfg req) (Rely cfg) (ReadDemand cfg req)
          (OwnHeld cfg req (fun _ => True) fun l => blended l ∧ i ≤ l) [.run (.clearLayerK i)]
          (OwnHeld cfg req (fun _ => True) fun l => (blended l ∧ i ≤ l) ∧ ¬ l = i) := by
        have hkeeps : KeepsOwn cfg req (.run (.clearLayerK i)) := keepsOwn_stmt rfl
        apply outline_ownClear hkeeps
        rintro rt rt' hrun l rfl
        exact kvOf_clearLayerK hrun
      have hv : Outline (Exec cfg req) (Rely cfg) (ReadDemand cfg req)
          (OwnHeld cfg req (fun _ => True) fun l => (blended l ∧ i ≤ l) ∧ ¬ l = i) [.run (.clearLayerV i)]
          (OwnHeld cfg req (fun _ => True) fun l => (blended l ∧ i ≤ l) ∧ ¬ l = i) := by
        apply outline_ownKeep
        intro op hop
        rw [List.mem_singleton.mp hop]
        exact keepsOwn_stmt rfl
      apply (hk.append hv).weaken
      intro s hs
      apply hs.weaken fun _ => id
      rintro l ⟨⟨hl, hle⟩, hne⟩
      exact ⟨hl, Nat.lt_of_le_of_ne hle (Ne.symm hne)⟩
  unfold clearDoBlendLayers
  apply ((hloop.append (outline_ownKeep keepsOwn_reset)).strengthen (held_stable _ _) _).weaken
  · intro s hs
    apply hs.weaken fun _ => id
    rintro l ⟨hl, hle⟩
    exact absurd (hblended l hl).1 (Nat.not_lt_of_le hle)
  · exact fun s hs => hs.weaken (fun _ => id) fun l hl => ⟨hl, Nat.zero_le l⟩

/-- `cleanup_runtime_state` empties the pools. -/
theorem outline_cleanupReads (n : Nat) {rotated blended : Nat → Prop} :
    Outline (Exec cfg req) (Rely cfg) (ReadDemand cfg req) (OwnHeld cfg req rotated blended)
      (cleanupRuntimeState n) (OwnHeld cfg req rotated fun _ => False) := by
  have hkeeps : KeepsOwn cfg req (.run .clearHackPool) := keepsOwn_stmt rfl
  have hcleared : Outline (Exec cfg req) (Rely cfg) (ReadDemand cfg req)
      (OwnHeld cfg req rotated blended) [.run .clearHackPool]
      (OwnHeld cfg req rotated fun l => blended l ∧ ¬ True) := by
    apply outline_ownClear hkeeps
    intro rt rt' hrun l _
    cases hrun
    rfl
  have hrest : Outline (Exec cfg req) (Rely cfg) (ReadDemand cfg req)
      (OwnHeld cfg req rotated fun l => blended l ∧ ¬ True)
      ([MainOp.run .clearContextPool, .run .clearDigestIndex] ++ reset n)
      (OwnHeld cfg req rotated fun l => blended l ∧ ¬ True) := by
    apply outline_ownKeep
    intro op hop
    simp only [reset, List.mem_append, List.mem_cons, List.not_mem_nil, or_false] at hop
    rcases hop with (rfl | rfl) | (rfl | rfl | rfl) | hop
    · exact keepsOwn_stmt rfl
    · exact keepsOwn_stmt rfl
    · exact keepsOwn_stmt rfl
    · exact keepsOwn_stmt rfl
    · exact keepsOwn_stmt rfl
    · exact keepsOwn_reset op hop
  apply (hcleared.append hrest).weaken
  exact fun s hs => hs.weaken (fun _ => id) fun l hl => hl.2 trivial

/-! ## Runs -/

/-- Requests with sample directories that load; each keeps the directories or configures its own
while no loader is alive. -/
def ownDirBegins (p : Process) : Label → Prop
  | .begin req => req.blendStyle ≠ .kvCompute ∧ req.hasSsdPaths = true ∧ OwnDirs req p.shared
  | _ => True

/-- Requests with sample directories that load. -/
def loadingBegins (_ : Process) : Label → Prop
  | .begin req => req.blendStyle ≠ .kvCompute ∧ req.hasSsdPaths = true
  | _ => True

/-- Whenever a wait returns for a request, what it guards was read from the request's own
directories. -/
def WaitsFindOwn (cfg : Config) (p : Process) : Prop :=
  ∀ req w ops, p.main = .running req (.raiseLoaderError w :: ops) →
    p.shared.rt.loaderError = false → GuardedReads cfg req p.shared.rt w

theorem covered_reads {s : Shared} (hidle : HeldIdle cfg s) (hdirs : OwnDirs req s)
    (hstyle : req.blendStyle ≠ .kvCompute) (hpaths : req.hasSsdPaths = true) :
    Covered (Exec cfg req) (Rely cfg) (ReadDemand cfg req) (prefillOps cfg.numLayers s.rt req)
      (HeldIdle cfg) s := by
  have honline : onlineAfterPrepare s.rt.online req = true := by
    unfold onlineAfterPrepare
    rw [if_pos hpaths]
    exact decide_eq_true hstyle
  have hend : ∀ {rotated} s, OwnHeld cfg req rotated (fun _ => False) s → HeldIdle cfg s :=
    fun s hs => ⟨_, _, hs.weaken (fun _ _ => trivial) fun _ => id⟩
  unfold prefillOps
  simp only [honline]
  rcases prepareForExtend_cases hpaths hstyle with hraise | ⟨source, hprepare⟩
  · rw [hraise]
    exact ⟨_, outline_raise heldIdle_stable (fun _ => trivial) (outline_false _), hidle⟩
  · rw [hprepare]
    cases hs : req.blendStyle with
    | kvCompute => exact absurd hs hstyle
    | qCompute =>
      rw [if_pos rfl]
      simp only [forwardOps, postForwardBlendCleanup, hs, List.append_nil]
      obtain ⟨P, houtline, hP⟩ := covered_queryPrepare hidle hdirs source
      exact ⟨P, houtline.append ((outline_queryReads cfg req hs _).weaken hend), hP⟩
    | doBlend =>
      have hround : req.blendStyle ≠ .qCompute := by
        rw [hs]
        rintro ⟨⟩
      rw [if_neg (by rintro ⟨⟩)]
      simp only [forwardOps, postForwardBlendCleanup, hs, if_true]
      obtain ⟨P, houtline, hP⟩ := covered_roundPrepare hidle hdirs hround
      refine ⟨P, (houtline.append (outline_roundReads cfg req hround)).append
        ((outline_clearReads cfg.numLayers ?_).weaken hend), hP⟩
      rintro l ⟨-, hlt, hover⟩
      rw [hs] at hover
      exact ⟨hlt, hover.resolve_left (by rintro ⟨⟩)⟩
    | doBlendFinish =>
      have hround : req.blendStyle ≠ .qCompute := by
        rw [hs]
        rintro ⟨⟩
      rw [if_neg (by rintro ⟨⟩)]
      simp only [forwardOps, postForwardBlendCleanup, hs]
      obtain ⟨P, houtline, hP⟩ := covered_roundPrepare hidle hdirs hround
      exact ⟨P, (houtline.append (outline_roundReads cfg req hround)).append
        ((outline_cleanupReads cfg.numLayers).weaken hend), hP⟩

/-- Where requests keep the directories or find no loader alive, a wait never returns for the K/V of
another sample. -/
theorem waitsFindOwn_of_ownDirs (cfg : Config) (p : Process)
    (h : (blendMachine cfg).Reach ownDirBegins (· = .initial) p) : WaitsFindOwn cfg p := by
  have hinv : RunInvariant cfg (ReadDemand cfg) (HeldIdle cfg) p := by
    refine runInvariant heldIdle_stable ?_ ?_ ?_ h
    · rintro p rfl
      refine ⟨some "", some "", rfl, rfl, fun _ _ _ => Or.inl trivial, fun l kv hl => ?_,
        fun t ht => absurd ht List.not_mem_nil⟩
      cases hl
    · rintro s req hidle ⟨hstyle, hpaths, hdirs⟩
      exact covered_reads hidle hdirs hstyle hpaths
    · rintro s req ⟨chunk, query, hs⟩ -
      -- the end of a request clears pools and flags, under whatever directories are configured
      have hkeep : ∀ op ∈ cacheFinishedReq cfg.numLayers req, ∃ stmt, op = .run stmt ∧ changesOwn stmt = false := by
        intro op hop
        unfold cacheFinishedReq at hop
        split at hop
        next =>
          simp only [cleanupRuntimeState, reset, resetLayerEvents, List.mem_append, List.mem_cons,
            List.not_mem_nil, or_false, List.mem_map] at hop
          rcases hop with (rfl | rfl | rfl) | (rfl | rfl | rfl) | ⟨l, -, rfl⟩ <;>
            exact ⟨_, rfl, rfl⟩
        next => cases hop
      refine ⟨Held cfg.disk (ownOrigin cfg.disk chunk query) (fun _ => True) (fun _ => False), ?_, hs⟩
      apply (Outline.keep (held_stable _ _) _ _).weaken fun s hs => ⟨chunk, query, hs⟩
      · intro op hop s _
        obtain ⟨stmt, rfl, -⟩ := hkeep op hop
        trivial
      · intro op hop s s' hs hstep
        obtain ⟨stmt, rfl, hkeeps⟩ := hkeep op hop
        exact (held_exec (keepsHeld_stmt hkeeps) hs hstep).weaken (fun _ _ => trivial) fun l hl => hl.resolve_right (by rintro ⟨⟩)
  obtain ⟨shared, main⟩ := p
  rintro req w ops rfl -
  exact RunInvariant.demanded hinv

instance (req : BlendRequest) (s : Shared) : Decidable (OwnDirs req s) :=
  inferInstanceAs (Decidable ((s.rt.sampleDirChunk = req.ssdCachePathChunk ∧
    s.rt.sampleDirQuery = req.ssdCachePathQuery) ∨
      ((∀ t ∈ s.loaders, t.Ended) ∧ (req.blendStyle = .qCompute ∨ s.rt.online = false))))

instance (p : Process) : ∀ label : Label, Decidable (ownDirBegins p label)
  | .begin req => inferInstanceAs (Decidable (req.blendStyle ≠ .kvCompute ∧ req.hasSsdPaths = true ∧
      OwnDirs req p.shared))
  | .finish _ | .main | .loader _ _ => .isTrue trivial

instance (p : Process) : ∀ label : Label, Decidable (loadingBegins p label)
  | .begin req => inferInstanceAs (Decidable (req.blendStyle ≠ .kvCompute ∧ req.hasSsdPaths = true))
  | .finish _ | .main | .loader _ _ => .isTrue trivial

/-- The directories of the request for which `wait_task_b` returns, and what the pool holds of
layer 0. -/
def taskBReturns (p : Process) : Option (Dir × Dir × Option KvPair) :=
  match p.main with
  | .running req (.raiseLoaderError .taskB :: _) =>
    if p.shared.rt.loaderError then none
    else some (req.ssdCachePathChunk, req.ssdCachePathQuery, p.shared.rt.hack.kvOf 0)
  | _ => none

theorem WaitsFindOwn.taskB {cfg : Config} {p : Process} (h : WaitsFindOwn cfg p) {chunk query : Dir}
    {kv : KvPair} (hreturns : taskBReturns p = some (chunk, query, some kv)) :
    ReadFrom cfg.disk chunk query 0 kv := by
  unfold taskBReturns at hreturns
  split at hreturns
  next req ops hmain =>
    split at hreturns
    next => cases hreturns
    next hclear =>
      simp only [Option.some.injEq, Prod.mk.injEq] at hreturns
      obtain ⟨rfl, rfl, hkv⟩ := hreturns
      exact h req .taskB ops hmain (Bool.eq_false_iff.mpr hclear) 0 kv hkv
  next => cases hreturns

/-- Two samples: the loader of the first QCOMPUTE is held up until the second is configured, and sets
the event of the second's loader. -/
def staleTaskBRun : List Label :=
  [[.begin (oneLayerRequest 0 .qCompute false 0 "a")], List.replicate 11 .main,
    List.replicate 2 (.loader 0 false), [.begin (oneLayerRequest 0 .doBlendFinish false 0 "a")],
    List.replicate 10 .main, [.begin (oneLayerRequest 1 .qCompute false 0 "b")],
    List.replicate 11 .main, List.replicate 2 (.loader 0 false),
    [.begin (oneLayerRequest 1 .doBlendFinish false 1 "b")], List.replicate 3 .main].flatten

theorem staleTaskBRun_ends :
    ((blendMachine oneLayer).guardedRun loadingBegins staleTaskBRun .initial).isSome = true :=
  rfl

theorem staleTaskBRun_returns : taskBReturns (((blendMachine oneLayer).guardedRun loadingBegins
    staleTaskBRun .initial).get staleTaskBRun_ends) =
      some (some "b", some "b", some (byteTensor 1, byteTensor 1)) :=
  rfl

/-- `wait_task_b` of the second sample returns with a layer of the first. -/
theorem waitsFindOwn_stale :
    ¬ ∀ cfg p, (blendMachine cfg).Reach loadingBegins (· = .initial) p → WaitsFindOwn cfg p := by
  intro h
  have hown := h _ _ (Machine.reach_guardedRun staleTaskBRun_ends)
  have hread : ReadFrom twoDirs (some "b") (some "b") 0 (byteTensor 1, byteTensor 1) :=
    hown.taskB staleTaskBRun_returns
  have hbyte : ¬ (byteTensor 1, byteTensor 1) = (byteTensor 2, byteTensor 2) := by decide +kernel
  rcases hread with hchunk | hcritical
  · exact hbyte hchunk
  · exact hbyte hcritical

/-- The same samples, the second one after the loaders of the first have ended. -/
def ownTaskBRun : List Label :=
  [[.begin (oneLayerRequest 0 .qCompute false 0 "a")], List.replicate 11 .main,
    List.replicate 4 (.loader 0 false), [.begin (oneLayerRequest 0 .doBlendFinish false 0 "a")],
    List.replicate 10 .main, List.replicate 1 (.loader 1 false),
    [.begin (oneLayerRequest 1 .qCompute false 0 "b")], List.replicate 11 .main,
    List.replicate 4 (.loader 2 false), [.begin (oneLayerRequest 1 .doBlendFinish false 1 "b")],
    List.replicate 3 .main].flatten

theorem ownTaskBRun_ends :
    ((blendMachine oneLayer).guardedRun ownDirBegins ownTaskBRun .initial).isSome = true :=
  rfl

theorem ownTaskBRun_returns : taskBReturns (((blendMachine oneLayer).guardedRun ownDirBegins
    ownTaskBRun .initial).get ownTaskBRun_ends) =
      some (some "b", some "b", some (byteTensor 2, byteTensor 2)) :=
  rfl

theorem waitsFindOwn_of_ownDirs_secondSample :
    ∃ p, (blendMachine oneLayer).Reach ownDirBegins (· = .initial) p ∧
      taskBReturns p = some (some "b", some "b", some (byteTensor 2, byteTensor 2)) ∧
        WaitsFindOwn oneLayer p := by
  have hreach := Machine.reach_guardedRun ownTaskBRun_ends
  exact ⟨_, hreach, ownTaskBRun_returns, waitsFindOwn_of_ownDirs _ _ hreach⟩

end QCFuse.Guarantees
