import QCFuse.Guarantees.ForwardOutlines

/-!
# Where the tensors in the pools come from

A thread opens its files under the sample directories of that moment. While these stay, every
tensor it will ever put into a pool is known in advance.
-/

set_option autoImplicit false

namespace QCFuse.Guarantees

open QCFuse.Library QCFuse.Source

/-- The sample directories, and what a loader may put at a layer of the context pool and of
`HackBlendKVPool`. -/
structure Origin where
  chunkDir : Dir
  queryDir : Dir
  digest : Nat → KvPair → Prop
  cache : Nat → KvPair → Prop

section Threads

variable (disk : Disk) (o : Origin)

/-- What the rest of a `try` will put into the pools comes from the origin. -/
def BodyFrom (metaDir binDir : Dir) : List LoadOp → Prop
  | [] => True
  | .openQuery :: body => BodyFrom metaDir o.queryDir body
  | .loadPackedMeta :: body => BodyFrom o.chunkDir binDir body
  | .readDigest l :: body => o.digest l (disk.digest metaDir binDir l) ∧ BodyFrom metaDir binDir body
  | .putDigest l kv :: body => o.digest l kv ∧ BodyFrom metaDir binDir body
  | .readCritical ids :: body =>
    (∀ l ∈ ids, o.cache l (disk.critical metaDir o.queryDir l)) ∧ BodyFrom metaDir binDir body
  | .putHack l kv :: body => o.cache l kv ∧ BodyFrom metaDir binDir body
  | .prefetchLayer l :: body =>
    o.cache l (disk.chunk metaDir o.chunkDir l) ∧ BodyFrom metaDir binDir body
  | .readChunk l :: body =>
    o.cache l (disk.chunk metaDir o.chunkDir l) ∧ BodyFrom metaDir binDir body
  | .checkQueryMeta :: body | .waitLayer _ :: body | .blockedOn _ _ :: body
  | .raiseLoaderError :: body | .setLayerReady _ :: body => BodyFrom metaDir binDir body

/-- The same for the threads started after the `try`. -/
def LeaveFrom : LeaveOp → Prop
  | .startDigest dir ids => ∀ l ∈ ids, o.digest l (disk.digest dir o.queryDir l)
  | .startCritical dir _ ids => ∀ l ∈ ids, o.cache l (disk.critical dir o.queryDir l)
  | _ => True

def ThreadFrom (t : Loader) : Prop :=
  match t.phase with
  | .trying body => BodyFrom disk o t.metaDir t.binDir body ∧
      (∀ op ∈ t.onReturn, LeaveFrom disk o op) ∧ ∀ op ∈ t.onError, LeaveFrom disk o op
  | .leaving rest => ∀ op ∈ rest, LeaveFrom disk o op

variable {disk o}

theorem threadFrom_continueWith {t : Loader} {body : List LoadOp}
    (hbody : BodyFrom disk o t.metaDir t.binDir body)
    (hreturn : ∀ op ∈ t.onReturn, LeaveFrom disk o op)
    (herror : ∀ op ∈ t.onError, LeaveFrom disk o op) : ThreadFrom disk o (t.continueWith body) := by
  unfold ThreadFrom Loader.continueWith
  cases body with
  | nil => exact hreturn
  | cons op body => exact ⟨hbody, hreturn, herror⟩

theorem threadFrom_ended {t : Loader} (h : t.Ended) : ThreadFrom disk o t := by
  unfold Loader.Ended at h
  unfold ThreadFrom
  split at h
  next hphase =>
    rw [hphase]
    exact fun op hop => absurd hop List.not_mem_nil
  next => cases h

theorem ThreadFrom.wake {t : Loader} (h : ThreadFrom disk o t) (generation layerId : Nat) :
    ThreadFrom disk o (t.wake generation layerId) := by
  unfold Loader.wake
  split
  next hphase =>
    split
    next =>
      unfold ThreadFrom at h
      rw [hphase] at h
      exact threadFrom_continueWith h.1 h.2.1 h.2.2
    next => exact h
  next => exact h

theorem bodyFrom_append {metaDir binDir : Dir} {puts body : List LoadOp}
    (hputs : ∀ op ∈ puts, ∃ l kv, op = .putHack l kv ∧ o.cache l kv)
    (hbody : BodyFrom disk o metaDir binDir body) :
    BodyFrom disk o metaDir binDir (puts ++ body) := by
  induction puts with
  | nil => exact hbody
  | cons op puts ih =>
    obtain ⟨l, kv, rfl, hcache⟩ := hputs op List.mem_cons_self
    exact ⟨hcache, ih fun op hop => hputs op (List.mem_cons_of_mem _ hop)⟩

theorem leaveFrom_releaseOps (layerIds : List Nat) (releaseTaskB : Bool) :
    ∀ op ∈ Loader.releaseOps layerIds releaseTaskB, LeaveFrom disk o op := by
  intro op hop
  simp only [Loader.releaseOps, List.cons_append, List.mem_cons, List.mem_append, List.mem_map]
    at hop
  rcases hop with rfl | ⟨l, -, rfl⟩ | hop
  · trivial
  · trivial
  · split at hop
    next =>
      rw [List.mem_singleton.mp hop]
      trivial
    next => cases hop

/-! ## The threads of the manager -/

theorem threadFrom_digest {client : Nat} {metaDir : Dir} {layerIds : List Nat}
    (h : ∀ l ∈ layerIds, o.digest l (disk.digest metaDir o.queryDir l)) :
    ThreadFrom disk o (Loader.digest client metaDir layerIds) := by
  have hbody : BodyFrom disk o metaDir o.queryDir
      (layerIds.flatMap fun l => [.readDigest l, .setLayerReady l]) := by
    induction layerIds with
    | nil => trivial
    | cons l ids ih =>
      exact ⟨h l List.mem_cons_self, ih fun l hl => h l (List.mem_cons_of_mem _ hl)⟩
  refine threadFrom_continueWith ?_ (fun op hop => absurd hop List.not_mem_nil)
    (leaveFrom_releaseOps _ _)
  split
  next => trivial
  next => exact hbody

theorem threadFrom_critical {client : Nat} {metaDir : Dir} {digestIds criticalIds : List Nat}
    (h : ∀ l ∈ criticalIds, o.cache l (disk.critical metaDir o.queryDir l)) :
    ThreadFrom disk o (Loader.critical client metaDir digestIds criticalIds) := by
  refine threadFrom_continueWith ?_ ?_ (leaveFrom_releaseOps _ _)
  · cases digestIds with
    | nil => exact ⟨h, trivial⟩
    | cons first rest => exact ⟨h, trivial⟩
  · intro op hop
    rw [List.mem_singleton.mp hop]
    trivial

theorem threadFrom_queryCache {client numDigestLayers : Nat} {criticalLayers : List Nat}
    {queryDir : Dir} (hdigest : ∀ l, o.digest l (disk.digest queryDir o.queryDir l))
    (hcritical : ∀ l ∈ criticalLayers, o.cache l (disk.critical queryDir o.queryDir l)) :
    ThreadFrom disk o (Loader.queryCache client numDigestLayers criticalLayers queryDir) := by
  refine ⟨trivial, ?_, leaveFrom_releaseOps _ _⟩
  intro op hop
  simp only [Loader.queryCache, List.mem_cons, List.not_mem_nil, or_false] at hop
  rcases hop with rfl | rfl
  · exact fun l _ => hdigest l
  · exact hcritical

theorem threadFrom_taskB {client : Nat} {layerIds : List Nat}
    (h : ∀ l, o.cache l (disk.chunk o.chunkDir o.chunkDir l)) :
    ThreadFrom disk o (Loader.taskB client layerIds) := by
  refine ⟨?_, ?_, leaveFrom_releaseOps _ _⟩
  · simp only [Loader.taskB, BodyFrom]
    induction layerIds with
    | nil => trivial
    | cons l ids ih => exact ⟨h l, ih⟩
  · intro op hop
    rw [List.mem_singleton.mp hop]
    trivial

theorem threadFrom_doBlendPrefetch {client prefetchFrom numLayers : Nat}
    (h : ∀ l, o.cache l (disk.chunk o.chunkDir o.chunkDir l)) :
    ThreadFrom disk o (Loader.doBlendPrefetch client prefetchFrom numLayers) := by
  refine ⟨?_, fun op hop => absurd hop List.not_mem_nil, leaveFrom_releaseOps _ _⟩
  simp only [Loader.doBlendPrefetch, BodyFrom]
  induction List.range' prefetchFrom (numLayers - prefetchFrom) with
  | nil => trivial
  | cons l ids ih => exact ⟨h l, ih⟩

/-! ## One step of a thread -/

/-- What a step puts into the pools comes from the origin. -/
structure PutsFrom (o : Origin) (rt rt' : Runtime) : Prop where
  context : ∀ l kv, rt'.context.kvOf l = some kv → rt.context.kvOf l = some kv ∨ o.digest l kv
  hack : ∀ l kv, rt'.hack.kvOf l = some kv → rt.hack.kvOf l = some kv ∨ o.cache l kv

theorem putsFrom_same {rt rt' : Runtime} (hcontext : rt'.context = rt.context)
    (hhack : rt'.hack = rt.hack) : PutsFrom o rt rt' :=
  ⟨fun _ _ h => Or.inl (hcontext ▸ h), fun _ _ h => Or.inl (hhack ▸ h)⟩

theorem ThreadFrom.step {fails : Bool} {rt : Runtime} {t : Loader} {r : Loader.StepResult}
    (h : ThreadFrom disk o t) (hchunk : rt.sampleDirChunk = o.chunkDir)
    (hquery : rt.sampleDirQuery = o.queryDir) (hstep : t.step disk fails rt = some r) :
    PutsFrom o rt r.rt ∧ ThreadFrom disk o r.loader ∧ ∀ u ∈ r.started, ThreadFrom disk o u := by
  have hnone : ∀ u ∈ ([] : List Loader), ThreadFrom disk o u :=
    fun u hu => absurd hu List.not_mem_nil
  have hsame : PutsFrom o rt rt := putsFrom_same rfl rfl
  rcases loader_step_cases hstep with ⟨op, body, hphase, hstep⟩ | ⟨op, rest, hphase, rfl⟩
  · unfold ThreadFrom at h
    rw [hphase] at h
    obtain ⟨hbody, hreturn, herror⟩ := h
    have hraised : PutsFrom o rt (t.raised rt).rt ∧ ThreadFrom disk o (t.raised rt).loader ∧
        ∀ u ∈ (t.raised rt).started, ThreadFrom disk o u := ⟨hsame, herror, hnone⟩
    have hcontinue : ∀ body', BodyFrom disk o t.metaDir t.binDir body' →
        ThreadFrom disk o (t.continueWith body') :=
      fun body' hbody' => threadFrom_continueWith hbody' hreturn herror
    rcases hstep with rfl | hstep
    · exact hraised
    · cases op <;> simp only [Loader.tryStep] at hstep
      case blockedOn => cases hstep
      case waitLayer l =>
        split at hstep
        next =>
          cases hstep
          exact hraised
        next => split at hstep <;> cases hstep <;> exact ⟨hsame, hcontinue _ hbody, hnone⟩
      case raiseLoaderError =>
        split at hstep <;> cases hstep
        next => exact hraised
        next => exact ⟨hsame, hcontinue _ hbody, hnone⟩
      case checkQueryMeta =>
        cases hstep
        exact ⟨hsame, hcontinue _ hbody, hnone⟩
      case openQuery =>
        cases hstep
        exact ⟨hsame, threadFrom_continueWith (hquery ▸ hbody) hreturn herror, hnone⟩
      case loadPackedMeta =>
        cases hstep
        exact ⟨hsame, threadFrom_continueWith (hchunk ▸ hbody) hreturn herror, hnone⟩
      case readDigest l =>
        cases hstep
        exact ⟨hsame, hcontinue _ hbody, hnone⟩
      case readChunk l =>
        cases hstep
        exact ⟨hsame, hcontinue _ ⟨hchunk ▸ hbody.1, hbody.2⟩, hnone⟩
      case readCritical ids =>
        cases hstep
        refine ⟨hsame, hcontinue _ (bodyFrom_append ?_ hbody.2), hnone⟩
        intro op hop
        obtain ⟨l, hl, rfl⟩ := List.mem_map.mp hop
        exact ⟨l, _, rfl, hquery ▸ hbody.1 l hl⟩
      case putDigest l kv =>
        split at hstep <;> cases hstep
        next context hcontext =>
          refine ⟨⟨fun i kv' hi => ?_, fun i kv' hi => Or.inl hi⟩, hcontinue _ hbody.2, hnone⟩
          rw [ContextPool.kvOf_assign hcontext] at hi
          split at hi
          next heq =>
            cases hi
            exact Or.inr (heq ▸ hbody.1)
          next => exact Or.inl hi
        next => exact hraised
      case putHack l kv =>
        split at hstep <;> cases hstep
        next hack hhack =>
          refine ⟨⟨fun i kv' hi => Or.inl hi, fun i kv' hi => ?_⟩, hcontinue _ hbody.2, hnone⟩
          rw [HackPool.kvOf_assign hhack] at hi
          split at hi
          next heq =>
            cases hi
            exact Or.inr (heq ▸ hbody.1)
          next => exact Or.inl hi
        next => exact hraised
      case setLayerReady l =>
        split at hstep <;> cases hstep
        next => exact hraised
        next => exact ⟨putsFrom_same rfl rfl, hcontinue _ hbody, hnone⟩
      case prefetchLayer l =>
        split at hstep
        next =>
          split at hstep <;> cases hstep
          next => exact hraised
          next => exact ⟨putsFrom_same rfl rfl, hcontinue _ hbody.2, hnone⟩
        next =>
          cases hstep
          exact ⟨hsame, hcontinue _ hbody, hnone⟩
  · unfold ThreadFrom at h
    rw [hphase] at h
    have hrest : ∀ op ∈ rest, LeaveFrom disk o op := fun op hop => h op (List.mem_cons_of_mem _ hop)
    have hop := h op List.mem_cons_self
    cases op with
    | recordLoaderError => exact ⟨putsFrom_same rfl rfl, hrest, hnone⟩
    | setTaskB => exact ⟨putsFrom_same rfl rfl, hrest, hnone⟩
    | setLayerReady l =>
      simp only [Loader.leaveStep]
      split
      next => exact ⟨hsame, hrest, hnone⟩
      next => exact ⟨putsFrom_same rfl rfl, hrest, hnone⟩
    | startDigest dir ids =>
      refine ⟨hsame, hrest, fun u hu => ?_⟩
      rw [List.mem_singleton.mp hu]
      exact threadFrom_digest hop
    | startCritical dir digestIds criticalIds =>
      refine ⟨hsame, hrest, fun u hu => ?_⟩
      rw [List.mem_singleton.mp hu]
      exact threadFrom_critical hop

end Threads

/-! ## What the pools hold -/

/-- Every layer of a pool comes from the origin, but for the layers of the context pool that
were rotated and the layers of `HackBlendKVPool` that were blended in place. -/
structure Held (disk : Disk) (o : Origin) (rotated blended : Nat → Prop) (s : Shared) :
    Prop where
  chunkDir : s.rt.sampleDirChunk = o.chunkDir
  queryDir : s.rt.sampleDirQuery = o.queryDir
  context : ∀ l kv, s.rt.context.kvOf l = some kv → rotated l ∨ o.digest l kv
  hack : ∀ l kv, s.rt.hack.kvOf l = some kv → blended l ∨ o.cache l kv
  threads : ∀ t ∈ s.loaders, ThreadFrom disk o t

theorem LoaderEffect.sampleDirs {rt rt' : Runtime} {set : Option Nat}
    (h : LoaderEffect rt rt' set) :
    rt'.sampleDirChunk = rt.sampleDirChunk ∧ rt'.sampleDirQuery = rt.sampleDirQuery := by
  cases h <;> exact ⟨rfl, rfl⟩

section Forward

variable {cfg : Config} {o : Origin} {rotated blended : Nat → Prop}

theorem Held.weaken {rotated' blended' : Nat → Prop} {s : Shared}
    (h : Held cfg.disk o rotated blended s) (hrotated : ∀ l, rotated l → rotated' l)
    (hblended : ∀ l, blended l → blended' l) : Held cfg.disk o rotated' blended' s :=
  ⟨h.chunkDir, h.queryDir, fun l kv hl => (h.context l kv hl).imp_left (hrotated l),
    fun l kv hl => (h.hack l kv hl).imp_left (hblended l), h.threads⟩

theorem held_stable (rotated blended : Nat → Prop) :
    Stable (Rely cfg) (Held cfg.disk o rotated blended) := by
  rintro s s' hs ⟨index, fails, hstep⟩
  obtain ⟨t, r, ht, hr, hrt, hthreads⟩ := loaderStep_cases hstep
  obtain ⟨hputs, hloader, hstarted⟩ :=
    ThreadFrom.step (hs.threads t ht) hs.chunkDir hs.queryDir hr
  obtain ⟨hchunk, hquery⟩ := (loader_step_effect hr).sampleDirs
  refine ⟨?_, ?_, ?_, ?_, ?_⟩
  · rw [hrt, hchunk]
    exact hs.chunkDir
  · rw [hrt, hquery]
    exact hs.queryDir
  · intro l kv hl
    rw [hrt] at hl
    rcases hputs.context l kv hl with hl | hl
    · exact hs.context l kv hl
    · exact Or.inr hl
  · intro l kv hl
    rw [hrt] at hl
    rcases hputs.hack l kv hl with hl | hl
    · exact hs.hack l kv hl
    · exact Or.inr hl
  · intro u hu
    rcases hthreads u hu with hu | ⟨v, hv, hu⟩
    · exact hstarted u hu
    · have hfrom : ThreadFrom cfg.disk o v := by
        rcases hv with rfl | hv
        · exact hloader
        · exact hs.threads v hv
      rcases hu with rfl | ⟨l, -, rfl⟩
      · exact hfrom
      · exact hfrom.wake _ _

/-- A statement of the forward thread that only clears, rotates and blends: it configures the
sample directories of the origin and starts threads of it. -/
def KeepsHeld (disk : Disk) (o : Origin) : MainOp → Prop
  | .run (.setSampleDirs chunk query) => chunk = o.chunkDir ∧ query = o.queryDir
  | .run (.putKv _ _) | .finishKvCompute _ => False
  | .start t => ThreadFrom disk o t
  | _ => True

theorem layerOf_none (n i : Nat) : layerOf (List.replicate n none) i = none := by
  unfold layerOf
  cases h : (List.replicate n (none : Option Tensor))[i]? with
  | none => rfl
  | some entry =>
    obtain ⟨-, rfl⟩ := List.mem_replicate.mp (List.mem_of_getElem? h)
    rfl

theorem kvOf_initHack (n i : Nat) : (HackPool.initBuffers n).kvOf i = none := by
  unfold HackPool.kvOf HackPool.initBuffers
  rw [layerOf_none]

theorem kvOf_initContext (pool : ContextPool) (n i : Nat) : (pool.initBuffers n).kvOf i = none := by
  unfold ContextPool.kvOf ContextPool.initBuffers
  rw [layerOf_none]

theorem layerOf_cleared (buffer : List (Option Tensor)) (l i : Nat) :
    layerOf (buffer.set l none) i = if i = l then none else layerOf buffer i := by
  unfold layerOf
  by_cases h : i = l
  · rw [if_pos h, h, List.getElem?_set]
    simp only [if_true]
    split <;> rfl
  · rw [if_neg h, List.getElem?_set_ne (Ne.symm h)]

/-- Statements put nothing into the pools. -/
theorem stmt_pools {stmt : Stmt} {rt rt' : Runtime} (hput : ∀ l kv, stmt ≠ .putKv l kv)
    (h : stmt.run cfg.numLayers rt = .ok rt') :
    (∀ l kv, rt'.context.kvOf l = some kv → rt.context.kvOf l = some kv) ∧
      ∀ l kv, rt'.hack.kvOf l = some kv → rt.hack.kvOf l = some kv := by
  cases stmt with
  | putKv l kv => exact absurd rfl (hput l kv)
  | initHackBuffers =>
    cases h
    refine ⟨fun l kv hl => hl, fun l kv hl => ?_⟩
    rw [kvOf_initHack] at hl
    cases hl
  | initContextBuffers =>
    cases h
    refine ⟨fun l kv hl => ?_, fun l kv hl => hl⟩
    rw [kvOf_initContext] at hl
    cases hl
  | clearHackPool =>
    cases h
    refine ⟨fun l kv hl => hl, fun l kv hl => ?_⟩
    cases hl
  | clearContextPool =>
    cases h
    refine ⟨fun l kv hl => ?_, fun l kv hl => hl⟩
    cases hl
  | clearLayerK l =>
    cases h
    refine ⟨fun i kv hi => hi, fun i kv hi => ?_⟩
    unfold HackPool.kvOf at hi ⊢
    simp only [layerOf_cleared] at hi
    by_cases hil : i = l
    · rw [if_pos hil] at hi
      cases hi
    · rwa [if_neg hil] at hi
  | clearLayerV l =>
    cases h
    refine ⟨fun i kv hi => hi, fun i kv hi => ?_⟩
    unfold HackPool.kvOf at hi ⊢
    simp only [layerOf_cleared] at hi
    by_cases hil : i = l
    · rw [if_pos hil] at hi
      cases hk : layerOf rt.hack.kBuffer i with
      | none =>
        rw [hk] at hi
        cases hi
      | some k =>
        rw [hk] at hi
        cases hi
    · rwa [if_neg hil] at hi
  | putQ =>
    obtain ⟨qBuffer, -, h⟩ := bind_ok h
    cases h
    exact ⟨fun l kv hl => hl, fun l kv hl => hl⟩
  | putQueryK =>
    obtain ⟨queryKBuffer, -, h⟩ := bind_ok h
    cases h
    exact ⟨fun l kv hl => hl, fun l kv hl => hl⟩
  | _ =>
    cases h
    exact ⟨fun l kv hl => hl, fun l kv hl => hl⟩

theorem stmt_sampleDirs {stmt : Stmt} {rt rt' : Runtime}
    (hkeeps : KeepsHeld cfg.disk o (.run stmt)) (h : stmt.run cfg.numLayers rt = .ok rt')
    (hchunk : rt.sampleDirChunk = o.chunkDir) (hquery : rt.sampleDirQuery = o.queryDir) :
    rt'.sampleDirChunk = o.chunkDir ∧ rt'.sampleDirQuery = o.queryDir := by
  cases stmt with
  | setSampleDirs chunk query =>
    cases h
    exact hkeeps
  | putKv => exact hkeeps.elim
  | putQ =>
    obtain ⟨qBuffer, -, h⟩ := bind_ok h
    cases h
    exact ⟨hchunk, hquery⟩
  | putQueryK =>
    obtain ⟨queryKBuffer, -, h⟩ := bind_ok h
    cases h
    exact ⟨hchunk, hquery⟩
  | _ =>
    cases h
    exact ⟨hchunk, hquery⟩

theorem held_exec {req : BlendRequest} {op : MainOp} {s s' : Shared}
    (hkeeps : KeepsHeld cfg.disk o op) (hs : Held cfg.disk o rotated blended s)
    (hstep : Exec cfg req op s s') :
    Held cfg.disk o (fun l => rotated l ∨ op = .loadedContext l)
      (fun l => blended l ∨ op = .blendLayer l true) s' := by
  have hsame : Held cfg.disk o (fun l => rotated l ∨ op = .loadedContext l)
      (fun l => blended l ∨ op = .blendLayer l true) s :=
    hs.weaken (fun _ => Or.inl) fun _ => Or.inl
  cases exec_effect hstep with
  | run stmt rt hrt =>
    obtain ⟨hcontext, hhack⟩ := stmt_pools (fun l kv h => by subst h; exact hkeeps) hrt
    obtain ⟨hchunk, hquery⟩ := stmt_sampleDirs hkeeps hrt hs.chunkDir hs.queryDir
    exact ⟨hchunk, hquery, fun l kv hl => hsame.context l kv (hcontext l kv hl),
      fun l kv hl => hsame.hack l kv (hhack l kv hl), hs.threads⟩
  | start t =>
    refine ⟨hs.chunkDir, hs.queryDir, hsame.context, hsame.hack, fun u hu => ?_⟩
    rcases List.mem_append.mp hu with hu | hu
    · exact hs.threads u hu
    · rw [List.mem_singleton.mp hu]
      exact hkeeps
  | restoreQueryMetadata context hsameContext =>
    exact ⟨hs.chunkDir, hs.queryDir,
      fun l kv hl => hsame.context l kv ((ContextPool.kvOf_congr hsameContext l).symm.trans hl),
      hsame.hack, hs.threads⟩
  | wait => exact hsame
  | raiseLoaderError => exact hsame
  | loadedContext l kv read context hkv hread hassign =>
    refine ⟨hs.chunkDir, hs.queryDir, fun i kv' hi => ?_, hsame.hack, hs.threads⟩
    rw [ContextPool.kvOf_assign hassign, ContextPool.kvOf_congr hread] at hi
    split at hi
    next heq => exact Or.inl (Or.inr (heq ▸ rfl))
    next => exact hsame.context i kv' hi
  | pooledContext l context hsameContext =>
    exact ⟨hs.chunkDir, hs.queryDir,
      fun l kv hl => hsame.context l kv ((ContextPool.kvOf_congr hsameContext l).symm.trans hl),
      hsame.hack, hs.threads⟩
  | select => exact hsame
  | blendCopy => exact hsame
  | blendInPlace l kv hack hassign =>
    refine ⟨hs.chunkDir, hs.queryDir, hsame.context, fun i kv' hi => ?_, hs.threads⟩
    rw [HackPool.kvOf_assign hassign] at hi
    split at hi
    next heq => exact Or.inl (Or.inr (heq ▸ rfl))
    next => exact hsame.hack i kv' hi
  | finishKvCompute => exact hkeeps.elim

end Forward

end QCFuse.Guarantees
