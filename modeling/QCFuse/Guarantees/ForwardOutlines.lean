import QCFuse.Library.ProofOutline
import QCFuse.Source.ForwardThread

/-!
# Runs of the process, from outlines of the forward thread

The loader threads are the interference; a request is covered by an outline of its statements
that ends in what holds between requests.
-/

set_option autoImplicit false

namespace QCFuse.Guarantees

open QCFuse.Library QCFuse.Source

/-! ## What one step of a loader thread can do -/

/-- A step inside the `try` raises or runs the next statement; a step after it runs the next. -/
theorem loader_step_cases {disk : Disk} {fails : Bool} {rt : Runtime} {t : Loader}
    {r : Loader.StepResult} (h : t.step disk fails rt = some r) :
    (∃ op body, t.phase = .trying (op :: body) ∧
      (r = t.raised rt ∨ t.tryStep disk rt body op = some r)) ∨
    ∃ op rest, t.phase = .leaving (op :: rest) ∧ r = t.leaveStep rt rest op := by
  unfold Loader.step at h
  split at h
  next => cases h
  next op body hphase =>
    refine Or.inl ⟨op, body, hphase, ?_⟩
    split at h
    next =>
      split at h
      next => cases h
      next =>
        cases h
        exact Or.inl rfl
    next => exact Or.inr h
  next => cases h
  next op rest hphase =>
    split at h
    next => cases h
    next =>
      cases h
      exact Or.inr ⟨op, rest, hphase, rfl⟩

/-- What a step changes of the shared state: an event, a flag or one layer of a pool. -/
inductive LoaderEffect (rt : Runtime) : Runtime → Option Nat → Prop
  | nothing : LoaderEffect rt rt none
  | layerReady (layerId : Nat) : layerId < rt.layerReady.length →
      LoaderEffect rt { rt with layerReady := rt.layerReady.set layerId true } (some layerId)
  | taskB : LoaderEffect rt { rt with taskB := true } none
  | loaderError : LoaderEffect rt { rt with loaderError := true } none
  | context (layerId : Nat) (kv : KvPair) (context : ContextPool) :
      rt.context.assign layerId kv = .ok context →
      LoaderEffect rt { rt with context := context } none
  | hack (layerId : Nat) (kv : KvPair) (hack : HackPool) :
      rt.hack.assign layerId kv = .ok hack → LoaderEffect rt { rt with hack := hack } none

theorem loader_step_effect {disk : Disk} {fails : Bool} {rt : Runtime} {t : Loader}
    {r : Loader.StepResult} (h : t.step disk fails rt = some r) :
    LoaderEffect rt r.rt r.set := by
  rcases loader_step_cases h with ⟨op, body, -, rfl | hstep⟩ | ⟨op, rest, -, rfl⟩
  · exact .nothing
  · cases op <;> simp only [Loader.tryStep] at hstep
    case setLayerReady layerId =>
      split at hstep <;> cases hstep
      next => exact .nothing
      next hlt => exact .layerReady layerId (Nat.lt_of_not_le hlt)
    case prefetchLayer layerId =>
      split at hstep
      next =>
        split at hstep <;> cases hstep
        next => exact .nothing
        next hlt => exact .layerReady layerId (Nat.lt_of_not_le hlt)
      next =>
        cases hstep
        exact .nothing
    case putDigest layerId kv =>
      split at hstep <;> cases hstep
      next context hcontext => exact .context layerId kv context hcontext
      next => exact .nothing
    case putHack layerId kv =>
      split at hstep <;> cases hstep
      next hack hhack => exact .hack layerId kv hack hhack
      next => exact .nothing
    case blockedOn => cases hstep
    case waitLayer =>
      split at hstep
      next =>
        cases hstep
        exact .nothing
      next => split at hstep <;> cases hstep <;> exact .nothing
    case raiseLoaderError => split at hstep <;> cases hstep <;> exact .nothing
    all_goals
      cases hstep
      exact .nothing
  · cases op <;> simp only [Loader.leaveStep]
    case setLayerReady layerId =>
      split
      next => exact .nothing
      next hlt => exact .layerReady layerId (Nat.lt_of_not_le hlt)
    case setTaskB => exact .taskB
    case recordLoaderError => exact .loaderError
    all_goals exact .nothing

/-- The threads after a step: the one that moved, the others, those just started; any of the
former may have been woken by the event that was set. -/
theorem loaderStep_cases {disk : Disk} {index : Nat} {fails : Bool} {s s' : Shared}
    (h : s.loaderStep disk index fails = some s') :
    ∃ t r, t ∈ s.loaders ∧ t.step disk fails s.rt = some r ∧ s'.rt = r.rt ∧
      ∀ u ∈ s'.loaders, u ∈ r.started ∨ ∃ v, (v = r.loader ∨ v ∈ s.loaders) ∧
        (u = v ∨ ∃ layerId, r.set = some layerId ∧ u = v.wake r.rt.generation layerId) := by
  unfold Shared.loaderStep at h
  obtain ⟨t, ht, h⟩ := Option.bind_eq_some_iff.mp h
  obtain ⟨r, hr, rfl⟩ := Option.map_eq_some_iff.mp h
  refine ⟨t, r, List.mem_of_getElem? ht, hr, rfl, fun u hu => ?_⟩
  rcases List.mem_append.mp hu with hu | hu
  · refine Or.inr ?_
    have hset : ∀ v ∈ s.loaders.set index r.loader, v = r.loader ∨ v ∈ s.loaders := by
      intro v hv
      rcases List.mem_or_eq_of_mem_set hv with hv | hv
      · exact Or.inr hv
      · exact Or.inl hv
    split at hu
    next layerId hwake =>
      obtain ⟨v, hv, rfl⟩ := List.mem_map.mp hu
      exact ⟨v, hset v hv, Or.inr ⟨layerId, hwake, rfl⟩⟩
    next => exact ⟨u, hset u hu, Or.inl rfl⟩
  · exact Or.inl hu

/-- Every other thread is still there, perhaps woken. -/
theorem loaderStep_keeps {disk : Disk} {index : Nat} {fails : Bool} {s s' : Shared}
    (h : s.loaderStep disk index fails = some s') :
    ∃ t r, s.loaders[index]? = some t ∧ t.step disk fails s.rt = some r ∧ s'.rt = r.rt ∧
      (∀ u ∈ r.started, u ∈ s'.loaders) ∧
      ∀ v, (v = r.loader ∨ ∃ i, i ≠ index ∧ s.loaders[i]? = some v) →
        v ∈ s'.loaders ∨ ∃ layerId, v.wake r.rt.generation layerId ∈ s'.loaders := by
  unfold Shared.loaderStep at h
  obtain ⟨t, ht, h⟩ := Option.bind_eq_some_iff.mp h
  obtain ⟨r, hr, rfl⟩ := Option.map_eq_some_iff.mp h
  refine ⟨t, r, ht, hr, rfl, fun u hu => List.mem_append_right _ hu, fun v hv => ?_⟩
  have hmem : v ∈ s.loaders.set index r.loader := by
    rcases hv with rfl | ⟨i, hne, hi⟩
    · exact List.mem_iff_getElem?.mpr ⟨index,
        List.getElem?_set_self (List.getElem?_eq_some_iff.mp ht).1⟩
    · exact List.mem_iff_getElem?.mpr ⟨i, by rw [List.getElem?_set_ne (Ne.symm hne), hi]⟩
  simp only
  split
  next layerId _ =>
    exact Or.inr ⟨layerId, List.mem_append_left _ (List.mem_map_of_mem hmem)⟩
  next => exact Or.inl (List.mem_append_left _ hmem)

/-! ## Threads that have ended -/

/-- No loader thread has anything left to do. -/
def Quiet (s : Shared) : Prop := ∀ t ∈ s.loaders, t.Ended

theorem ended_step_none {t : Loader} (h : t.Ended) (disk : Disk) (fails : Bool)
    (rt : Runtime) : t.step disk fails rt = none := by
  unfold Loader.Ended at h
  unfold Loader.step
  split at h
  next hphase => rw [hphase]
  next => cases h

theorem Quiet.loaderStep_none {s : Shared} (h : Quiet s) (disk : Disk) (index : Nat)
    (fails : Bool) : s.loaderStep disk index fails = none := by
  unfold Shared.loaderStep
  cases ht : s.loaders[index]? with
  | none => rfl
  | some t =>
    simp only [Option.bind_some, ended_step_none (h t (List.mem_of_getElem? ht)) disk fails s.rt,
      Option.map_none]

/-! ## Statements of a forward pass -/

/-- The forward pass writes tensors and scores, waits and reads; it starts no thread, and
leaves the mode, the directories, the events and whole pools alone. -/
def isForwardOp : MainOp → Bool
  | .run (.putQ _ _) | .run (.putQueryK _ _) | .run (.putKv _ _)
  | .run (.accumulateKvzipLayerScore _ _) => true
  | .run _ | .start _ | .restoreQueryMetadata => false
  | _ => true

theorem isForwardOp_of_mem {numLayers : Nat} {online offline : Bool} {req : BlendRequest}
    {op : MainOp} (h : op ∈ forwardOps numLayers online offline req) : isForwardOp op := by
  have hwait : ∀ w, ∀ op ∈ waitFor w, isForwardOp op := by
    intro w op hop
    simp only [waitFor, List.mem_cons, List.not_mem_nil, or_false] at hop
    rcases hop with rfl | rfl <;> rfl
  unfold forwardOps at h
  cases hstyle : req.blendStyle <;> rw [hstyle] at h <;> simp only at h <;>
    obtain ⟨l, -, h⟩ := List.mem_flatMap.mp h
  case kvCompute =>
    simp only [kvComputeLayer, List.mem_append, List.mem_singleton] at h
    rcases h with (rfl | h) | h
    · rfl
    · split at h <;> simp at h
      subst h
      rfl
    · split at h <;> simp at h
      subst h
      rfl
  case qCompute =>
    simp only [qComputeLayer, List.mem_append] at h
    rcases h with (h | h) | h
    · split at h <;> simp at h
      subst h
      rfl
    · split at h <;> simp at h
      rcases h with rfl | rfl <;> rfl
    · split at h
      next =>
        split at h
        next =>
          rcases List.mem_append.mp h with h | h
          · exact hwait _ op h
          · rw [List.mem_singleton.mp h]
            rfl
        next =>
          rw [List.mem_singleton.mp h]
          rfl
      next => cases h
  all_goals
    unfold doBlendLayer at h
    split at h
    next => cases h
    next =>
      split at h
      next =>
        split at h
        next => cases h
        next =>
          rcases List.mem_append.mp h with h | h
          · split at h
            next => exact hwait _ op h
            next => cases h
          · rw [List.mem_singleton.mp h]
            rfl
      next =>
        rcases List.mem_append.mp h with h | h
        · split at h
          next => exact hwait _ op h
          next => cases h
        · rw [List.mem_singleton.mp h]
          rfl

/-- Statements of the manager and the pools, which no forward pass contains. -/
def isManagerStmt : Stmt → Bool
  | .putQ _ _ | .putQueryK _ _ | .putKv _ _ | .accumulateKvzipLayerScore _ _ => false
  | _ => true

/-- Around its forward pass, a request runs such statements, restores the query metadata, raises
and starts threads of its client. -/
def IsOuterOp (req : BlendRequest) : MainOp → Prop
  | .run stmt => isManagerStmt stmt = true
  | .start t => t.client = req.client
  | .raiseError | .restoreQueryMetadata => True
  | _ => False

theorem isOuterOp_configure {req : BlendRequest} (online offline : Bool) (chunk query : Dir) :
    ∀ op ∈ configure online offline chunk query, IsOuterOp req op := by
  intro op hop
  cases offline <;> simp [configure] at hop
  · rcases hop with rfl | rfl | rfl | rfl | rfl <;> rfl
  · rcases hop with rfl | rfl | rfl | rfl | rfl | rfl <;> rfl

theorem isOuterOp_reset {req : BlendRequest} (numLayers : Nat) :
    ∀ op ∈ resetLayerEvents numLayers, IsOuterOp req op := by
  intro op hop
  obtain ⟨l, -, rfl⟩ := List.mem_map.mp hop
  rfl

theorem isOuterOp_cleanupRuntimeState {req : BlendRequest} (numLayers : Nat) :
    ∀ op ∈ cleanupRuntimeState numLayers, IsOuterOp req op := by
  intro op hop
  simp only [cleanupRuntimeState, reset, List.mem_append, List.mem_cons, List.not_mem_nil, or_false]
    at hop
  rcases hop with (rfl | rfl | rfl) | (rfl | rfl | rfl) | hop
  case inr.inr => exact isOuterOp_reset numLayers op hop
  all_goals rfl

theorem isOuterOp_prepareForExtend {numLayers : Nat} {online : Bool} {req : BlendRequest} :
    ∀ op ∈ prepareForExtend numLayers online req, IsOuterOp req op := by
  intro op hop
  have hraise : op ∈ [MainOp.raiseError] → IsOuterOp req op := by
    intro h
    rw [List.mem_singleton.mp h]
    trivial
  have hconfigure : ∀ op ∈ configure true false req.ssdCachePathChunk req.ssdCachePathQuery,
      IsOuterOp req op := isOuterOp_configure _ _ _ _
  unfold prepareForExtend at hop
  split at hop
  next => exact hraise hop
  next =>
    split at hop
    next => exact hraise hop
    next source _ =>
      split at hop
      next =>
        cases hstyle : req.blendStyle <;> rw [hstyle] at hop <;> simp only at hop
        case kvCompute => exact isOuterOp_configure _ _ _ _ op hop
        case qCompute =>
          unfold prepareQCompute at hop
          rcases List.mem_append.mp hop with hop | hop
          · rcases List.mem_append.mp hop with hop | hop
            · simp only [List.mem_cons, List.not_mem_nil, or_false] at hop
              rcases hop with rfl | rfl <;> rfl
            · exact hconfigure op hop
          · split at hop
            next =>
              split at hop
              next => exact hraise hop
              next =>
                simp only [List.mem_cons, List.not_mem_nil, or_false] at hop
                rcases hop with rfl | rfl
                · trivial
                · rfl
            next =>
              rw [List.mem_singleton.mp hop]
              rfl
        all_goals
          unfold prepareDoBlend at hop
          rcases List.mem_append.mp hop with hop | hop
          · rcases List.mem_append.mp hop with hop | hop
            · split at hop
              next => cases hop
              next =>
                rcases List.mem_cons.mp hop with rfl | hop
                · rfl
                · exact hconfigure op hop
            · exact isOuterOp_reset numLayers op hop
          · rw [List.mem_singleton.mp hop]
            rfl
      next => cases hop

theorem isOuterOp_postForwardBlendCleanup {numLayers : Nat} {online offline : Bool}
    {req : BlendRequest} :
    ∀ op ∈ postForwardBlendCleanup numLayers online offline req, IsOuterOp req op := by
  intro op hop
  unfold postForwardBlendCleanup at hop
  cases hstyle : req.blendStyle <;> rw [hstyle] at hop <;> simp only at hop
  case kvCompute =>
    split at hop
    next =>
      simp only [List.mem_cons, List.not_mem_nil, or_false] at hop
      rcases hop with rfl | rfl <;> rfl
    next => cases hop
  case qCompute => cases hop
  case doBlend =>
    split at hop
    next =>
      unfold clearDoBlendLayers at hop
      rcases List.mem_append.mp hop with hop | hop
      · obtain ⟨l, -, hop⟩ := List.mem_flatMap.mp hop
        split at hop
        next => cases hop
        next =>
          simp only [List.mem_cons, List.not_mem_nil, or_false] at hop
          rcases hop with rfl | rfl <;> rfl
      · exact isOuterOp_reset numLayers op hop
    next => cases hop
  case doBlendFinish => exact isOuterOp_cleanupRuntimeState numLayers op hop

theorem isOuterOp_cacheFinishedReq {numLayers : Nat} {req : BlendRequest} :
    ∀ op ∈ cacheFinishedReq numLayers req, IsOuterOp req op := by
  intro op hop
  unfold cacheFinishedReq at hop
  split at hop
  next => exact isOuterOp_cleanupRuntimeState numLayers op hop
  next => cases hop

/-- A statement of a prefill is one of the forward pass or one around it. -/
theorem prefillOps_cases {numLayers : Nat} {rt : Runtime} {req : BlendRequest} {op : MainOp}
    (h : op ∈ prefillOps numLayers rt req) : IsOuterOp req op ∨
      op ∈ forwardOps numLayers (onlineAfterPrepare rt.online req)
        (offlineAfterPrepare rt.online rt.offline req) req := by
  unfold prefillOps at h
  rcases List.mem_append.mp h with h | h
  · rcases List.mem_append.mp h with h | h
    · exact Or.inl (isOuterOp_prepareForExtend op h)
    · exact Or.inr h
  · exact Or.inl (isOuterOp_postForwardBlendCleanup op h)

/-! ## Outlines of a request -/

section Outlines

variable (cfg : Config)

/-- A statement of the forward thread completes. -/
def Exec (req : BlendRequest) (op : MainOp) (s s' : Shared) : Prop :=
  op.exec cfg req s = .next s'

/-- A loader thread moves. -/
def Rely (s s' : Shared) : Prop := ∃ index fails, s.loaderStep cfg.disk index fails = some s'

variable {cfg}

theorem stable_true : Stable (Rely cfg) fun _ => True := fun _ _ _ _ => trivial

/-- Without live loaders nothing interferes. -/
theorem stable_quiet {P : Shared → Prop} (h : ∀ s, P s → Quiet s) : Stable (Rely cfg) P := by
  rintro s s' hs ⟨index, fails, hstep⟩
  rw [(h s hs).loaderStep_none] at hstep
  cases hstep

/-- What a completed statement of the forward thread found and what it changed. -/
inductive MainEffect (cfg : Config) (req : BlendRequest) (s : Shared) : MainOp → Shared → Prop
  | run (stmt : Stmt) (rt : Runtime) : stmt.run cfg.numLayers s.rt = .ok rt →
      MainEffect cfg req s (.run stmt) { s with rt := rt }
  | start (t : Loader) : MainEffect cfg req s (.start t) { s with loaders := s.loaders ++ [t] }
  | restoreQueryMetadata (context : ContextPool) :
      context.kBuffer = s.rt.context.kBuffer ∧ context.vBuffer = s.rt.context.vBuffer →
      MainEffect cfg req s .restoreQueryMetadata { s with rt := { s.rt with context := context } }
  | wait (w : Wait) : s.rt.eventOf w = some true → MainEffect cfg req s (.wait w) s
  | raiseLoaderError (w : Wait) : s.rt.loaderError = false →
      MainEffect cfg req s (.raiseLoaderError w) s
  | loadedContext (layerId : Nat) (kv : KvPair) (read context : ContextPool) :
      s.rt.context.kvOf layerId = some kv →
      read.kBuffer = s.rt.context.kBuffer ∧ read.vBuffer = s.rt.context.vBuffer →
      read.assign layerId (req.forward.rotateContext layerId kv.1, kv.2) = .ok context →
      MainEffect cfg req s (.loadedContext layerId) { s with rt := { s.rt with context := context } }
  | pooledContext (layerId : Nat) (context : ContextPool) :
      context.kBuffer = s.rt.context.kBuffer ∧ context.vBuffer = s.rt.context.vBuffer →
      MainEffect cfg req s (.pooledContext layerId) { s with rt := { s.rt with context := context } }
  | select : MainEffect cfg req s .select s
  | blendCopy (layerId : Nat) : MainEffect cfg req s (.blendLayer layerId false) s
  | blendInPlace (layerId : Nat) (kv : KvPair) (hack : HackPool) :
      s.rt.hack.assign layerId kv = .ok hack →
      MainEffect cfg req s (.blendLayer layerId true) { s with rt := { s.rt with hack := hack } }
  | finishKvCompute (offline : Bool) (context : ContextPool) (scores : KvzipScores) :
      MainEffect cfg req s (.finishKvCompute offline)
        { s with rt := { s.rt with context := context, kvzipScores := scores } }

theorem after_next {s s' : Shared} {computed : Py Runtime} (h : s.after computed = .next s') :
    ∃ rt, computed = .ok rt ∧ s' = { s with rt := rt } := by
  unfold Shared.after at h
  split at h
  next rt =>
    cases h
    exact ⟨rt, rfl, rfl⟩
  next => cases h

theorem buildContextPool_ok {req : BlendRequest} {rt rt' : Runtime}
    (h : buildContextPool cfg req rt = .ok rt') :
    ∃ context scores, rt' = { rt with context := context, kvzipScores := scores } := by
  unfold buildContextPool at h
  split at h
  next =>
    obtain ⟨⟨index, context⟩, -, h⟩ := bind_ok h
    cases h
    exact ⟨context, [], rfl⟩
  next =>
    cases h
    exact ⟨rt.context, rt.kvzipScores, rfl⟩

theorem exec_effect {req : BlendRequest} {op : MainOp} {s s' : Shared}
    (h : Exec cfg req op s s') : MainEffect cfg req s op s' := by
  unfold Exec at h
  cases op with
  | run stmt =>
    obtain ⟨rt, hrt, rfl⟩ := after_next h
    exact .run stmt rt hrt
  | start t =>
    cases h
    exact .start t
  | raiseError => cases h
  | restoreQueryMetadata =>
    obtain ⟨rt, hrt, rfl⟩ := after_next h
    obtain ⟨queryMeta, -, hrt⟩ := bind_ok hrt
    obtain ⟨context, hcontext, hrt⟩ := bind_ok hrt
    cases hrt
    exact .restoreQueryMetadata context (restoreQueryMetadata_buffers hcontext)
  | wait w =>
    simp only [MainOp.exec] at h
    split at h <;> cases h
    next hevent => exact .wait w hevent
  | raiseLoaderError w =>
    simp only [MainOp.exec] at h
    split at h <;> cases h
    next hclear => exact .raiseLoaderError w (Bool.not_eq_true _ ▸ hclear)
  | loadedContext layerId =>
    obtain ⟨rt, hrt, rfl⟩ := after_next h
    unfold contextFromQueryCache at hrt
    split at hrt
    next => cases hrt
    next kv hkv =>
      obtain ⟨⟨positions, read⟩, hread, hrt⟩ := bind_ok hrt
      obtain ⟨context, hcontext, hrt⟩ := bind_ok hrt
      cases hrt
      exact .loadedContext layerId kv read context hkv (contextForLayer_buffers hread) hcontext
  | pooledContext layerId =>
    obtain ⟨rt, hrt, rfl⟩ := after_next h
    simp only [contextFromPool] at hrt
    split at hrt
    next => cases hrt
    next kv hkv =>
      obtain ⟨ctxK, -, hrt⟩ := bind_ok hrt
      obtain ⟨ctxV, -, hrt⟩ := bind_ok hrt
      cases hrt
      refine .pooledContext layerId _ ?_
      split <;> exact ⟨rfl, rfl⟩
  | select =>
    simp only [MainOp.exec] at h
    split at h <;> cases h
    exact .select
  | blendLayer layerId direct =>
    simp only [MainOp.exec] at h
    split at h
    next => cases h
    next kv hkv =>
      cases direct with
      | false =>
        cases h
        exact .blendCopy layerId
      | true =>
        rw [if_pos rfl] at h
        obtain ⟨rt, hrt, rfl⟩ := after_next h
        obtain ⟨hack, hhack, hrt⟩ := bind_ok hrt
        cases hrt
        exact .blendInPlace layerId _ hack hhack
  | finishKvCompute offline =>
    obtain ⟨rt, hrt, rfl⟩ := after_next h
    have hbuilt : buildContextPool cfg req s.rt = .ok rt := by
      cases offline with
      | false => exact hrt
      | true =>
        obtain ⟨files, -, hrt⟩ := bind_ok hrt
        exact hrt
    obtain ⟨context, scores, rfl⟩ := buildContextPool_ok hbuilt
    exact .finishKvCompute offline context scores

/-- Several statements of the manager and the pools in a row. -/
def runAll (numLayers : Nat) : List Stmt → Runtime → Py Runtime
  | [], rt => .ok rt
  | stmt :: stmts, rt => stmt.run numLayers rt >>= runAll numLayers stmts

/-- The loader threads are these, and the state satisfies `F`. -/
def AtRest (loaders : List Loader) (F : Runtime → Prop) (s : Shared) : Prop :=
  s.loaders = loaders ∧ F s.rt

theorem stable_atRest {loaders : List Loader} (hended : ∀ t ∈ loaders, t.Ended)
    (F : Runtime → Prop) : Stable (Rely cfg) (AtRest loaders F) :=
  stable_quiet fun _ hs t ht => hended t (hs.1 ▸ ht)

/-- While no loader is alive, statements run as a sequential program. -/
theorem outline_atRest {req : BlendRequest} {demand : MainOp → Shared → Prop}
    {loaders : List Loader} (hended : ∀ t ∈ loaders, t.Ended) (stmts : List Stmt)
    (F F' : Runtime → Prop) (hdemand : ∀ stmt ∈ stmts, ∀ s, demand (.run stmt) s)
    (hrun : ∀ rt rt', F rt → runAll cfg.numLayers stmts rt = .ok rt' → F' rt') :
    Outline (Exec cfg req) (Rely cfg) demand (AtRest loaders F) (stmts.map .run)
      (AtRest loaders F') := by
  induction stmts generalizing F with
  | nil => exact .done (stable_atRest hended F) fun s hs => ⟨hs.1, hrun s.rt s.rt hs.2 rfl⟩
  | cons stmt stmts ih =>
    refine .next (R := AtRest loaders fun rt' => ∃ rt, F rt ∧ stmt.run cfg.numLayers rt = .ok rt')
      (stable_atRest hended F) (fun s _ => hdemand stmt List.mem_cons_self s) ?_ ?_
    · intro s s' hs hstep
      obtain ⟨rt, hrt, rfl⟩ := after_next hstep
      exact ⟨hs.1, s.rt, hs.2, hrt⟩
    · refine ih _ (fun stmt hmem => hdemand stmt (List.mem_cons_of_mem _ hmem))
        fun rt rt' hrt hall => ?_
      obtain ⟨rt₀, hF, hstmt⟩ := hrt
      refine hrun rt₀ rt' hF ?_
      rw [runAll, hstmt]
      exact hall

/-- Nothing follows a statement that always raises. -/
theorem outline_raise {req : BlendRequest} {demand : MainOp → Shared → Prop}
    {P Q : Shared → Prop} {ops : List MainOp} (hstable : Stable (Rely cfg) P)
    (hraise : ∀ s, demand .raiseError s)
    (hrest : Outline (Exec cfg req) (Rely cfg) demand (fun _ => False) ops Q) :
    Outline (Exec cfg req) (Rely cfg) demand P (.raiseError :: ops) Q := by
  refine .next hstable (fun s _ => hraise s) (fun s s' _ hstep => ?_) hrest
  simp only [Exec, MainOp.exec] at hstep
  cases hstep

/-- No state satisfies the assertion, so nothing is to be shown. -/
theorem outline_false {req : BlendRequest} {demand : MainOp → Shared → Prop} {Q : Shared → Prop}
    (ops : List MainOp) : Outline (Exec cfg req) (Rely cfg) demand (fun _ => False) ops Q := by
  induction ops with
  | nil => exact .done (fun _ _ h _ => h) fun _ h => h.elim
  | cons op ops ih => exact .next (fun _ _ h _ => h) (fun _ h => h.elim) (fun _ _ h _ => h.elim) ih

variable (cfg)

/-- What holds of the process: between requests `idle`, during one an outline to it. -/
def RunInvariant (demand : BlendRequest → MainOp → Shared → Prop) (idle : Shared → Prop)
    (p : Process) : Prop :=
  match p.main with
  | .idle => idle p.shared
  | .running req ops => Covered (Exec cfg req) (Rely cfg) (demand req) ops idle p.shared
  | .crashed => True

variable {cfg}

/-- From outlines of all admitted requests, the invariant of all runs. -/
theorem runInvariant {demand : BlendRequest → MainOp → Shared → Prop} {idle : Shared → Prop}
    {guard : Process → Label → Prop} {start : Process → Prop}
    (hstable : Stable (Rely cfg) idle)
    (hstart : ∀ p, start p → RunInvariant cfg demand idle p)
    (hbegin : ∀ s req, idle s → guard ⟨s, .idle⟩ (.begin req) →
      Covered (Exec cfg req) (Rely cfg) (demand req) (prefillOps cfg.numLayers s.rt req) idle s)
    (hfinish : ∀ s req, idle s → guard ⟨s, .idle⟩ (.finish req) →
      Covered (Exec cfg req) (Rely cfg) (demand req) (cacheFinishedReq cfg.numLayers req) idle s)
    {p : Process} (h : (blendMachine cfg).Reach guard start p) :
    RunInvariant cfg demand idle p := by
  refine h.invariant hstart ?_
  rintro ⟨s, main⟩ p' label hinv hguard hstep
  simp only [blendMachine] at hstep
  cases label with
  | «begin» req =>
    cases main with
    | idle =>
      cases hstep
      exact hbegin s req hinv hguard
    | running _ _ => cases hstep
    | crashed => cases hstep
  | finish req =>
    cases main with
    | idle =>
      cases hstep
      exact hfinish s req hinv hguard
    | running _ _ => cases hstep
    | crashed => cases hstep
  | main =>
    cases main with
    | idle => cases hstep
    | crashed => cases hstep
    | running req ops =>
      cases ops with
      | nil =>
        cases hstep
        exact Covered.finished (Q := idle) hinv
      | cons op ops =>
        simp only [Process.step] at hstep
        split at hstep
        next s' hexec =>
          cases hstep
          exact Covered.of_exec hinv hexec
        next => cases hstep
        next =>
          cases hstep
          trivial
  | loader index fails =>
    simp only [Process.step] at hstep
    obtain ⟨s', hs', rfl⟩ := Option.map_eq_some_iff.mp hstep
    have hrely : Rely cfg s s' := ⟨index, fails, hs'⟩
    cases main with
    | idle => exact hstable s s' hinv hrely
    | running req ops => exact Covered.of_rely hinv hrely
    | crashed => trivial

/-- What is demanded at a statement holds whenever the forward thread is there. -/
theorem RunInvariant.demanded {demand : BlendRequest → MainOp → Shared → Prop}
    {idle : Shared → Prop} {s : Shared} {req : BlendRequest} {op : MainOp} {ops : List MainOp}
    (h : RunInvariant cfg demand idle ⟨s, .running req (op :: ops)⟩) : demand req op s :=
  Covered.demanded h

end Outlines

/-! ## A process with one layer -/

def byteTensor (b : UInt8) : Tensor := ⟨[1, 1], .uint8, [b], rfl⟩

/-- Two sample directories whose layers hold different bytes. -/
def twoDirs : Disk :=
  let layer : Dir → Dir → Nat → KvPair := fun _ dir _ =>
    let b := if dir = some "a" then 1 else 2
    (byteTensor b, byteTensor b)
  ⟨fun _ => .error (.fileNotFound "query_packed_meta.json"), layer, layer, layer⟩

def oneLayer : Config := ⟨1, twoDirs, ⟨fun scores => List.range scores.length, fun _ => .refl _⟩⟩

/-- A request of one style over one directory, without critical layers. -/
def oneLayerRequest (client : Nat) (style : BlendStyle) (isContextblend : Bool) (ratio : Rat)
    (dir : String) : BlendRequest where
  client := client
  blendStyle := style
  isContextblend := isContextblend
  contextCacheSource := some "none"
  contextNSink := none
  digestRatio := none
  digestIndexMethod := none
  criticalLayers := []
  attnStart := 0
  attnEnd := none
  start := 0
  ratio := ratio
  blendLocList := [0, 1]
  ssdCachePathChunk := some dir
  ssdCachePathQuery := some dir
  forward := ⟨fun _ => byteTensor 9, fun _ => byteTensor 9, fun _ => (byteTensor 7, byteTensor 8),
    fun _ => [], fun _ k => k, fun _ kv => kv⟩

end QCFuse.Guarantees
