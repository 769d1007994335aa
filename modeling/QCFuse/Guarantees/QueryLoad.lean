import QCFuse.Guarantees.LoaderProtocol

/-!
# One QCOMPUTE and its loaders

From `prepare_for_extend` on, the query worker, the digest thread and the critical thread fill
the pools while the forward pass waits for them layer by layer.
-/

set_option autoImplicit false

namespace QCFuse.Guarantees

open QCFuse.Library QCFuse.Source

variable {cfg : Config}

/-! ## Freshly configured -/

/-- The pools and the manager behind `init_buffers` and an online `configure`. -/
structure Configured (numLayers : Nat) (chunk query : Dir) (rt : Runtime) : Prop where
  hack : rt.hack = .initBuffers numLayers
  context : ∀ l, rt.context.kvOf l = none
  chunkDir : rt.sampleDirChunk = chunk
  queryDir : rt.sampleDirQuery = query
  online : rt.online = true
  layerReady : rt.layerReady = List.replicate numLayers false
  taskB : rt.taskB = false
  loaderError : rt.loaderError = false

theorem outline_configured (cfg : Config) (req : BlendRequest) (demand : MainOp → Shared → Prop)
    {loaders : List Loader} (hended : ∀ t ∈ loaders, t.Ended) (chunk query : Dir)
    (hdemand : ∀ stmt s, demand (.run stmt) s) :
    Outline (Exec cfg req) (Rely cfg) demand (AtRest loaders fun _ => True)
      ([MainOp.run .initHackBuffers, .run .initContextBuffers] ++ configure true false chunk query)
      (AtRest loaders (Configured cfg.numLayers chunk query)) := by
  refine outline_atRest hended [.initHackBuffers, .initContextBuffers, .setMode true false,
    .setSampleDirs chunk query, .newLayerEvents, .clearTaskB, .clearLoaderError] _ _
    (fun stmt _ => hdemand stmt) ?_
  intro rt rt' _ hrun
  cases hrun
  exact ⟨rfl, kvOf_initContext _ _, rfl, rfl, rfl, rfl, rfl, rfl⟩

theorem Configured.eventOf {numLayers : Nat} {chunk query : Dir} {rt : Runtime}
    (h : Configured numLayers chunk query rt) (w : Wait) : rt.eventOf w ≠ some true := by
  cases w with
  | taskB =>
    simp only [Runtime.eventOf, h.taskB]
    rintro ⟨⟩
  | layer l =>
    simp only [Runtime.eventOf, h.layerReady]
    intro hl
    obtain ⟨-, hl⟩ := List.mem_replicate.mp (List.mem_of_getElem? hl)
    cases hl

theorem Configured.whole {numLayers : Nat} {chunk query : Dir} {rt : Runtime}
    (h : Configured numLayers chunk query rt) : Whole rt := by
  intro l hl
  rw [h.hack] at hl
  unfold HackPool.initBuffers at hl
  rw [layerOf_none] at hl
  cases hl

/-! ## While the loaders run -/

/-- Where the tensors come from, what the events stand for, and that errors are recorded. -/
structure Loading (disk : Disk) (o : Origin) (n : Needs) (client : Nat)
    (rotated blended : Nat → Prop) (s : Shared) : Prop where
  held : Held disk o rotated blended s
  protocol : Protocol n s
  failures : FailuresRecorded client s

variable {o : Origin} {n : Needs} {client : Nat} {rotated blended : Nat → Prop}

theorem loading_stable (o : Origin) (n : Needs) (client : Nat) (rotated blended : Nat → Prop) :
    Stable (Rely cfg) (Loading cfg.disk o n client rotated blended) := fun s s' hs hrely =>
  ⟨held_stable rotated blended s s' hs.held hrely, protocol_stable n s s' hs.protocol hrely,
    failuresRecorded_stable client s s' hs.failures hrely⟩

theorem Loading.weaken {rotated' blended' : Nat → Prop} {s : Shared}
    (h : Loading cfg.disk o n client rotated blended s) (hrotated : ∀ l, rotated l → rotated' l)
    (hblended : ∀ l, blended l → blended' l) :
    Loading cfg.disk o n client rotated' blended' s :=
  ⟨h.held.weaken hrotated hblended, h.protocol, h.failures⟩

theorem held_configured {numLayers : Nat} {s : Shared}
    (h : Configured numLayers o.chunkDir o.queryDir s.rt) (hended : ∀ t ∈ s.loaders, t.Ended) :
    Held cfg.disk o rotated blended s := by
  refine ⟨h.chunkDir, h.queryDir, fun l kv hl => ?_, fun l kv hl => ?_,
    fun t ht => threadFrom_ended (hended t ht)⟩
  · rw [h.context] at hl
    cases hl
  · rw [h.hack, kvOf_initHack] at hl
    cases hl

theorem protocol_configured {numLayers : Nat} {chunk query : Dir} {s : Shared}
    (h : Configured numLayers chunk query s.rt) (hended : ∀ t ∈ s.loaders, t.Ended) : Protocol n s where
  whole := h.whole
  earned w hw := absurd hw (h.eventOf w)
  threads t ht := threadMeets_ended (hended t ht)

theorem failuresRecorded_exec {req : BlendRequest} {op : MainOp} {s s' : Shared}
    (hkeeps : KeepsProtocol op) (hs : FailuresRecorded client s) (hstep : Exec cfg req op s s') :
    FailuresRecorded client s' := by
  obtain ⟨hloaders, -, herror⟩ := keepsProtocol_frame hkeeps hstep
  intro t ht hclient hfailed
  rw [herror]
  exact hs t (hloaders ▸ ht) hclient hfailed

theorem KeepsProtocol.keepsHeld {op : MainOp} (h : KeepsProtocol op) : KeepsHeld cfg.disk o op := by
  cases op with
  | run stmt => cases stmt <;> first | exact h.elim | trivial
  | start t => exact h.elim
  | finishKvCompute => exact h.elim
  | _ => trivial

theorem loading_exec {req : BlendRequest} {op : MainOp} {s s' : Shared} (hkeeps : KeepsProtocol op)
    (hs : Loading cfg.disk o n client rotated blended s) (hstep : Exec cfg req op s s') :
    Loading cfg.disk o n client (fun l => rotated l ∨ op = .loadedContext l)
      (fun l => blended l ∨ op = .blendLayer l true) s' :=
  ⟨held_exec hkeeps.keepsHeld hs.held hstep, protocol_exec hkeeps hs.protocol hstep,
    failuresRecorded_exec hkeeps hs.failures hstep⟩

/-- A thread joins that comes from the origin. -/
theorem held_start {req : BlendRequest} {t : Loader} {s s' : Shared}
    (hs : Held cfg.disk o rotated blended s) (hfrom : ThreadFrom cfg.disk o t)
    (hstep : Exec cfg req (.start t) s s') : Held cfg.disk o rotated blended s' := by
  have hkeeps : KeepsHeld cfg.disk o (.start t) := hfrom
  apply (held_exec hkeeps hs hstep).weaken
  · exact fun l hl => hl.resolve_right nofun
  · exact fun l hl => hl.resolve_right nofun

theorem protocol_start {req : BlendRequest} {t : Loader} {s s' : Shared} (hs : Protocol n s)
    (hmeets : ThreadMeets n (Present s.rt) (s.rt.loaderError = true) t)
    (hstep : Exec cfg req (.start t) s s') : Protocol n s' := by
  cases exec_effect hstep
  refine ⟨hs.whole, hs.earned, fun u hu => ?_⟩
  rcases List.mem_append.mp hu with hu | hu
  · exact hs.threads u hu
  · rw [List.mem_singleton.mp hu]
    exact hmeets

/-- A thread joins that comes from the origin and keeps the protocol. -/
theorem loading_start {req : BlendRequest} {t : Loader} {s s' : Shared}
    (hs : Loading cfg.disk o n client rotated blended s) (hfrom : ThreadFrom cfg.disk o t)
    (hmeets : ∀ there recorded, ThreadMeets n there recorded t) (hfailed : t.failed = false)
    (hstep : Exec cfg req (.start t) s s') : Loading cfg.disk o n client rotated blended s' := by
  have hheld := held_start hs.held hfrom hstep
  have hprotocol := protocol_start hs.protocol (hmeets _ _) hstep
  cases exec_effect hstep
  refine ⟨hheld, hprotocol, fun u hu hclient hu' => ?_⟩
  rcases List.mem_append.mp hu with hu | hu
  · exact hs.failures u hu hclient hu'
  · rw [List.mem_singleton.mp hu, hfailed] at hu'
    cases hu'

/-! ## The statements of a QCOMPUTE -/

/-- The origin of what the query worker's threads load. -/
def queryOrigin (cfg : Config) (req : BlendRequest) : Origin where
  chunkDir := req.ssdCachePathChunk
  queryDir := req.ssdCachePathQuery
  digest l kv := kv = cfg.disk.digest req.ssdCachePathQuery req.ssdCachePathQuery l
  cache l kv := kv = cfg.disk.critical req.ssdCachePathQuery req.ssdCachePathQuery l

/-- A layer's event stands for its digest rows, the event of task B for every critical layer. -/
def queryNeeds (req : BlendRequest) : Needs
  | .layer l, c => c = .context l
  | .taskB, c => ∃ l ∈ req.criticalLayers, c = .hack l

/-- The pools while a QCOMPUTE with `context_cache_source="query"` runs. -/
abbrev QueryLoading (cfg : Config) (req : BlendRequest) (rotated : Nat → Prop) : Shared → Prop :=
  Loading cfg.disk (queryOrigin cfg req) (queryNeeds req) req.client rotated fun _ => False

/-- At the check behind a wait, what is returned to the forward pass is loaded, and errors are
known. -/
def QueryDemand (cfg : Config) (req : BlendRequest) : MainOp → Shared → Prop
  | .raiseLoaderError w, s => FailuresRecorded req.client s ∧ ∀ l, w = .layer l →
      s.rt.loaderError = false → s.rt.context.kvOf l =
        some (cfg.disk.digest req.ssdCachePathQuery req.ssdCachePathQuery l)
  | _, _ => True

variable {req : BlendRequest}

/-- A statement that only reads the state of the loaders keeps what is known of it. -/
theorem outline_queryKeep {ops : List MainOp} (hops : ∀ op ∈ ops, KeepsProtocol op ∧
    (∀ w, op ≠ .raiseLoaderError w) ∧ (∀ l, op ≠ .loadedContext l) ∧ ∀ l, op ≠ .blendLayer l true) :
    Outline (Exec cfg req) (Rely cfg) (QueryDemand cfg req) (QueryLoading cfg req rotated) ops
      (QueryLoading cfg req rotated) := by
  apply Outline.keep (loading_stable _ _ _ _ _)
  · intro op hop s _
    have hne := (hops op hop).2.1
    cases op with
    | raiseLoaderError w => exact absurd rfl (hne w)
    | _ => trivial
  · intro op hop s s' hs hstep
    obtain ⟨hkeeps, -, hrotate, hblend⟩ := hops op hop
    exact (loading_exec hkeeps hs hstep).weaken (fun l hl => hl.resolve_right (hrotate l))
      fun l hl => hl.resolve_right (hblend l)

/-- The wait for a layer that is not rotated yet, and its use. -/
theorem outline_queryWait (cfg : Config) (req : BlendRequest) (rotated : Nat → Prop) {l : Nat}
    (hfresh : ¬ rotated l) :
    Outline (Exec cfg req) (Rely cfg) (QueryDemand cfg req) (QueryLoading cfg req rotated)
      (waitFor (.layer l) ++ [.loadedContext l])
      (QueryLoading cfg req fun i => rotated i ∨ i = l) := by
  have hstable : Stable (Rely cfg) fun s => QueryLoading cfg req rotated s ∧
      s.rt.eventOf (.layer l) = some true := fun s s' hs hrely =>
    ⟨loading_stable _ _ _ _ _ s s' hs.1 hrely, event_stable _ s s' hs.2 hrely⟩
  have hrotate : Outline (Exec cfg req) (Rely cfg) (QueryDemand cfg req) (QueryLoading cfg req rotated)
      [.loadedContext l] (QueryLoading cfg req fun i => rotated i ∨ i = l) := by
    refine .next (loading_stable _ _ _ _ _) (fun _ _ => trivial) (fun s s' hs hstep => ?_)
      (.done (loading_stable _ _ _ _ _) fun _ hs => hs)
    have hkeeps : KeepsProtocol (.loadedContext l) := trivial
    refine (loading_exec hkeeps hs hstep).weaken (fun i hi => ?_) fun i hi => hi.resolve_right nofun
    exact hi.imp_right fun heq => by cases heq; rfl
  refine .next (loading_stable _ _ _ _ _) (fun _ _ => trivial) ?_ (.next hstable ?_ ?_ hrotate)
  · intro s s' hs hstep
    cases exec_effect hstep with
    | wait w hset => exact ⟨hs, hset⟩
  · -- the event was set, so the digest rows are there unless an error is raised now
    rintro s ⟨hs, hset⟩
    refine ⟨hs.failures, fun i hi herror => ?_⟩
    cases hi
    rcases hs.protocol.earned _ hset with hraise | hpresent
    · rw [herror] at hraise
      cases hraise
    · obtain ⟨kv, hkv⟩ := Option.isSome_iff_exists.mp (hpresent (.context l) rfl)
      have horigin := (hs.held.context l kv hkv).resolve_left hfresh
      rw [hkv, show kv = _ from horigin]
  · intro s s' hs hstep
    cases exec_effect hstep with
    | raiseLoaderError w hnone => exact hs.1

/-- The layers of the forward pass. -/
theorem outline_queryForward (cfg : Config) (req : BlendRequest) (hcontext : req.isContextblend = true) (n : Nat) :
    Outline (Exec cfg req) (Rely cfg) (QueryDemand cfg req) (QueryLoading cfg req fun i => i < 0)
      ((List.range n).flatMap (qComputeLayer cfg.numLayers true req))
      (QueryLoading cfg req fun i => i < n) := by
  apply Outline.loop (P := fun l => QueryLoading cfg req fun i => i < l)
    fun l => loading_stable _ _ _ _ _
  intro l _
  unfold qComputeLayer
  rw [if_pos hcontext, if_pos rfl]
  have hcollect : Outline (Exec cfg req) (Rely cfg) (QueryDemand cfg req)
      (QueryLoading cfg req fun i => i < l)
      ((if cfg.numLayers ≤ l then [MainOp.raiseError] else []) ++
        if req.shouldCollectQ cfg.numLayers l then
          [MainOp.run (.putQ l (req.forward.q l)), .run (.putQueryK l (req.forward.queryK l))] else [])
      (QueryLoading cfg req fun i => i < l) := by
    apply outline_queryKeep
    intro op hop
    rcases List.mem_append.mp hop with hop | hop
    · split at hop
      next =>
        rw [List.mem_singleton.mp hop]
        exact ⟨trivial, nofun, nofun, nofun⟩
      next => cases hop
    · split at hop
      next =>
        simp only [List.mem_cons, List.not_mem_nil, or_false] at hop
        rcases hop with rfl | rfl <;> exact ⟨trivial, nofun, nofun, nofun⟩
      next => cases hop
  apply hcollect.append
  apply (outline_queryWait cfg req (fun i => i < l) (Nat.lt_irrefl l)).weaken
  intro s hs
  apply hs.weaken _ fun _ => id
  intro i hi
  omega

/-- `prepare_for_extend` of a QCOMPUTE that loads a query cache. -/
theorem outline_queryPrepare (cfg : Config) (req : BlendRequest) {loaders : List Loader} (hended : ∀ t ∈ loaders, t.Ended)
    (hclient : ∀ t ∈ loaders, t.client ≠ req.client) (hcontext : req.isContextblend = true) :
    Outline (Exec cfg req) (Rely cfg) (QueryDemand cfg req) (AtRest loaders fun _ => True)
      (prepareQCompute cfg.numLayers req .query) (QueryLoading cfg req fun i => i < 0) := by
  unfold prepareQCompute
  rw [if_pos ⟨hcontext, rfl⟩]
  have hconfigure := outline_configured cfg req (QueryDemand cfg req) hended req.ssdCachePathChunk
    req.ssdCachePathQuery fun _ _ => trivial
  apply hconfigure.append
  have hloading : ∀ s, AtRest loaders (Configured cfg.numLayers req.ssdCachePathChunk
      req.ssdCachePathQuery) s → QueryLoading cfg req (fun i => i < 0) s := by
    rintro s ⟨rfl, hs⟩
    exact ⟨held_configured hs hended, protocol_configured hs hended,
      fun t ht hsame => absurd hsame (hclient t ht)⟩
  apply Outline.strengthen (stable_atRest hended _) hloading
  split
  next =>
    apply outline_raise (loading_stable _ _ _ _ _) fun _ => trivial
    exact outline_false _
  next =>
    have hrestore : Outline (Exec cfg req) (Rely cfg) (QueryDemand cfg req)
        (QueryLoading cfg req fun i => i < 0) [.restoreQueryMetadata]
        (QueryLoading cfg req fun i => i < 0) := by
      apply outline_queryKeep
      intro op hop
      rw [List.mem_singleton.mp hop]
      exact ⟨trivial, nofun, nofun, nofun⟩
    apply hrestore.append
    refine .next (loading_stable _ _ _ _ _) (fun _ _ => trivial) (fun s s' hs hstep => ?_)
      (.done (loading_stable _ _ _ _ _) fun _ hs => hs)
    refine loading_start hs (threadFrom_queryCache (fun _ => rfl) fun _ _ => rfl) ?_ rfl hstep
    intro there recorded
    exact threadMeets_queryCache (fun l _ c hc => Or.inr hc) fun c hc => Or.inr hc

/-- A request with sample directories is prepared by its style, or raises. -/
theorem prepareForExtend_cases {numLayers : Nat} {online : Bool} {r : BlendRequest}
    (hpaths : r.hasSsdPaths = true) (hstyle : r.blendStyle ≠ .kvCompute) :
    prepareForExtend numLayers online r = [.raiseError] ∨
      ∃ source, prepareForExtend numLayers online r =
        if r.blendStyle = .qCompute then prepareQCompute numLayers r source
        else prepareDoBlend numLayers online r := by
  have hoffline : ¬ (r.isQueryOffline ∧ r.augmentedLocs.isNone) := by
    unfold BlendRequest.isQueryOffline
    simp [hstyle]
  unfold prepareForExtend
  rw [if_neg hoffline]
  split
  next => exact Or.inl rfl
  next source _ =>
    refine Or.inr ⟨source, ?_⟩
    rw [if_pos hpaths]
    cases h : r.blendStyle with
    | kvCompute => exact absurd h hstyle
    | _ => rfl

/-! ## Runs -/

/-- No further request is handled. -/
def oneRequest (_ : Process) : Label → Prop
  | .main | .loader _ _ => True
  | .begin _ | .finish _ => False

/-- A QCOMPUTE that loads the query cache, with sample directories. -/
structure LoadsQueryCache (req : BlendRequest) : Prop where
  style : req.blendStyle = .qCompute
  contextblend : req.isContextblend = true
  source : req.contextSource = .ok .query
  paths : req.hasSsdPaths = true

/-- A process in which a request begins while no loader is alive. -/
structure Begins (cfg : Config) (req : BlendRequest) (p : Process) : Prop where
  main : p.main = .running req (prefillOps cfg.numLayers p.shared.rt req)
  quiet : Quiet p.shared

/-- The same for the first request of a client. -/
structure BeginsFirst (cfg : Config) (req : BlendRequest) (p : Process) : Prop
    extends Begins cfg req p where
  fresh : ∀ t ∈ p.shared.loaders, t.client ≠ req.client

/-- What a wait that returns normally guarantees. -/
structure WaitsAreSafe (cfg : Config) (req : BlendRequest) (p : Process) : Prop where
  /-- The check of `wait_layer_ready(l)` passes. -/
  layer : ∀ l ops, p.main = .running req (.raiseLoaderError (.layer l) :: ops) →
    p.shared.rt.loaderError = false → p.shared.rt.context.kvOf l =
      some (cfg.disk.digest req.ssdCachePathQuery req.ssdCachePathQuery l)
  /-- `wait_task_b` would return at once. -/
  taskB : p.main = .idle → p.shared.rt.taskB = true → p.shared.rt.loaderError = false →
    ∀ l ∈ req.criticalLayers, p.shared.rt.hack.kvOf l =
      some (cfg.disk.critical req.ssdCachePathQuery req.ssdCachePathQuery l)
  /-- A load has failed, so every check raises. -/
  failed : (p.main = .idle ∨ ∃ w ops, p.main = .running req (.raiseLoaderError w :: ops)) →
    (∃ t ∈ p.shared.loaders, t.client = req.client ∧ t.failed = true) →
      p.shared.rt.loaderError = true

theorem covered_queryLoad {s : Shared} (hreq : LoadsQueryCache req) (hquiet : Quiet s)
    (hfresh : ∀ t ∈ s.loaders, t.client ≠ req.client) :
    Covered (Exec cfg req) (Rely cfg) (QueryDemand cfg req) (prefillOps cfg.numLayers s.rt req)
      (QueryLoading cfg req fun _ => True) s := by
  have hops : prefillOps cfg.numLayers s.rt req = prepareQCompute cfg.numLayers req .query ++
      (List.range (req.endLayer cfg.numLayers)).flatMap (qComputeLayer cfg.numLayers true req) := by
    have honline : onlineAfterPrepare s.rt.online req = true := by
      unfold onlineAfterPrepare
      rw [if_pos hreq.paths, hreq.style]
      rfl
    have hoffline : ¬ (req.isQueryOffline ∧ req.augmentedLocs.isNone) := by
      unfold BlendRequest.isQueryOffline
      rw [hreq.style]
      simp
    simp only [prefillOps, honline, prepareForExtend, if_neg hoffline, hreq.source, if_pos hreq.paths,
      hreq.style, forwardOps, postForwardBlendCleanup, List.append_nil]
  rw [hops]
  have houtline := (outline_queryPrepare cfg req hquiet hfresh hreq.contextblend).append
    (outline_queryForward cfg req hreq.contextblend (req.endLayer cfg.numLayers))
  refine ⟨_, houtline.weaken fun s hs => hs.weaken (fun _ _ => trivial) fun _ => id, rfl, trivial⟩

/-- A sample directory with a query cache of one layer. -/
def oneLayerCache : Config :=
  { oneLayer with
    disk := { twoDirs with
      queryMeta := fun _ => .ok (.obj [("indices_by_method", .obj [("kvzip", .obj [])])]) } }

/-- A QCOMPUTE of layer 0 that loads its digest rows and its critical rows. -/
def oneLayerQuery : BlendRequest :=
  { oneLayerRequest 0 .qCompute true 0 "a" with
    contextCacheSource := some "query"
    criticalLayers := [0] }

theorem oneLayerQuery_loads : LoadsQueryCache oneLayerQuery := ⟨rfl, rfl, rfl, rfl⟩

/-- Up to the check behind the wait for layer 0. -/
def oneLayerQueryRun : List Label :=
  List.replicate 11 .main ++ [.loader 0 false, .loader 0 false] ++ List.replicate 4 (.loader 1 false) ++
    [.main]

/-- The process that begins with it. -/
def oneLayerQueryStart : Process :=
  ⟨⟨.initial, []⟩, .running oneLayerQuery (prefillOps 1 .initial oneLayerQuery)⟩

theorem oneLayerQueryRun_ends :
    ((blendMachine oneLayerCache).run oneLayerQueryRun oneLayerQueryStart).isSome = true := rfl

end QCFuse.Guarantees
