import QCFuse.Guarantees.LoaderProvenance

/-!
# What an event of the loaders stands for

A thread sets an event after it has put into the pools what the event stands for, or after it
has recorded an error, and then every wait raises.
-/

set_option autoImplicit false

namespace QCFuse.Guarantees

open QCFuse.Library QCFuse.Source

/-- A layer of `ContextBlendPool` or of `HackBlendKVPool`. -/
inductive Cell where
  | context (layerId : Nat)
  | hack (layerId : Nat)
  deriving DecidableEq

/-- Both tensors of the layer are there. -/
def Present (rt : Runtime) : Cell → Prop
  | .context layerId => (rt.context.kvOf layerId).isSome
  | .hack layerId => (rt.hack.kvOf layerId).isSome

/-- What has to be in the pools once the event of a wait is set without an error. -/
abbrev Needs := Wait → Cell → Prop

/-- No layer has K without V; `has_kv` looks at K alone. -/
def Whole (rt : Runtime) : Prop :=
  ∀ layerId, (layerOf rt.hack.kBuffer layerId).isSome → (layerOf rt.hack.vBuffer layerId).isSome

/-! ## Threads that keep the protocol -/

section Threads

variable (n : Needs)

/-- What a statement, or the statements it turns into, puts into the pools. -/
def loadPuts : LoadOp → Cell → Prop
  | .readDigest layerId, c | .putDigest layerId _, c => c = .context layerId
  | .readChunk layerId, c | .putHack layerId _, c | .prefetchLayer layerId, c => c = .hack layerId
  | .readCritical layerIds, c => ∃ layerId ∈ layerIds, c = .hack layerId
  | _, _ => False

/-- What has to be there already when the statement runs. -/
def loadNeeds : LoadOp → Cell → Prop
  | .setLayerReady layerId, c => n (.layer layerId) c
  | .prefetchLayer layerId, c => n (.layer layerId) c ∧ c ≠ .hack layerId
  | _, _ => False

/-- The same after the `try`, counting what the started threads put first; only a handler sets a
layer's event there. -/
def LeaveMeets (there : Cell → Prop) : LeaveOp → Prop
  | .recordLoaderError => True
  | .setLayerReady _ => False
  | .setTaskB => ∀ c, n .taskB c → there c
  | .startDigest _ layerIds =>
    ∀ layerId ∈ layerIds, ∀ c, n (.layer layerId) c → there c ∨ c = .context layerId
  | .startCritical _ _ layerIds =>
    ∀ c, n .taskB c → there c ∨ ∃ layerId ∈ layerIds, c = .hack layerId

/-- Every event that the rest of a `try` and its return path set is earned. -/
def BodyMeets (onReturn : List LeaveOp) : (Cell → Prop) → List LoadOp → Prop
  | there, [] => ∀ op ∈ onReturn, LeaveMeets n there op
  | there, op :: body => (∀ c, loadNeeds n op c → there c) ∧
      BodyMeets onReturn (fun c => there c ∨ loadPuts op c) body

/-- Statements of an exception handler behind the record. -/
def ReleaseOnly : LeaveOp → Prop
  | .setLayerReady _ | .setTaskB => True
  | _ => False

/-- An exception handler: the error is recorded before an event is set. -/
def ErrorPath (rest : List LeaveOp) : Prop :=
  ∃ tail, rest = .recordLoaderError :: tail ∧ ∀ op ∈ tail, ReleaseOnly op

def ThreadMeets (there : Cell → Prop) (recorded : Prop) (t : Loader) : Prop :=
  match t.phase with
  | .trying body => BodyMeets n t.onReturn there body ∧ ErrorPath t.onError
  | .leaving rest => (recorded ∧ ∀ op ∈ rest, ReleaseOnly op) ∨ ErrorPath rest ∨
      ∀ op ∈ rest, LeaveMeets n there op

variable {n}

theorem LeaveMeets.mono {there there' : Cell → Prop} {op : LeaveOp} (h : LeaveMeets n there op)
    (hmore : ∀ c, there c → there' c) : LeaveMeets n there' op := by
  cases op with
  | recordLoaderError => trivial
  | setLayerReady l => exact h.elim
  | setTaskB => exact fun c hc => hmore c (h c hc)
  | startDigest dir ids => exact fun l hl c hc => (h l hl c hc).imp_left (hmore c)
  | startCritical dir digestIds ids => exact fun c hc => (h c hc).imp_left (hmore c)

theorem BodyMeets.mono {onReturn : List LeaveOp} {body : List LoadOp} {there there' : Cell → Prop}
    (h : BodyMeets n onReturn there body) (hmore : ∀ c, there c → there' c) :
    BodyMeets n onReturn there' body := by
  induction body generalizing there there' with
  | nil => exact fun op hop => (h op hop).mono hmore
  | cons op body ih =>
    exact ⟨fun c hc => hmore c (h.1 c hc), ih h.2 fun c hc => hc.imp_left (hmore c)⟩

theorem ThreadMeets.mono {there there' : Cell → Prop} {recorded recorded' : Prop} {t : Loader}
    (h : ThreadMeets n there recorded t) (hmore : ∀ c, there c → there' c)
    (hrecorded : recorded → recorded') : ThreadMeets n there' recorded' t := by
  unfold ThreadMeets at h ⊢
  cases hphase : t.phase with
  | trying body =>
    rw [hphase] at h
    exact ⟨h.1.mono hmore, h.2⟩
  | leaving rest =>
    rw [hphase] at h
    rcases h with ⟨hrec, hrest⟩ | herror | hmeets
    · exact Or.inl ⟨hrecorded hrec, hrest⟩
    · exact Or.inr (Or.inl herror)
    · exact Or.inr (Or.inr fun op hop => (hmeets op hop).mono hmore)

theorem threadMeets_continueWith {there : Cell → Prop} {recorded : Prop} {t : Loader}
    {body : List LoadOp} (hbody : BodyMeets n t.onReturn there body) (herror : ErrorPath t.onError) :
    ThreadMeets n there recorded (t.continueWith body) := by
  unfold ThreadMeets Loader.continueWith
  cases body with
  | nil => exact Or.inr (Or.inr hbody)
  | cons op body => exact ⟨hbody, herror⟩

theorem threadMeets_ended {there : Cell → Prop} {recorded : Prop} {t : Loader} (h : t.Ended) :
    ThreadMeets n there recorded t := by
  unfold Loader.Ended at h
  unfold ThreadMeets
  split at h
  next hphase =>
    rw [hphase]
    exact Or.inr (Or.inr fun op hop => absurd hop List.not_mem_nil)
  next => cases h

theorem ThreadMeets.wake {there : Cell → Prop} {recorded : Prop} {t : Loader}
    (h : ThreadMeets n there recorded t) (generation layerId : Nat) :
    ThreadMeets n there recorded (t.wake generation layerId) := by
  unfold Loader.wake
  split
  next hphase =>
    split
    next =>
      unfold ThreadMeets at h
      rw [hphase] at h
      refine threadMeets_continueWith (h.1.2.mono fun c hc => ?_) h.2
      exact hc.resolve_right id
    next => exact h
  next => exact h

theorem errorPath_releaseOps (layerIds : List Nat) (releaseTaskB : Bool) :
    ErrorPath (Loader.releaseOps layerIds releaseTaskB) := by
  refine ⟨_, rfl, fun op hop => ?_⟩
  rcases List.mem_append.mp hop with hop | hop
  · obtain ⟨l, -, rfl⟩ := List.mem_map.mp hop
    trivial
  · split at hop
    next =>
      rw [List.mem_singleton.mp hop]
      trivial
    next => cases hop

/-! ## The threads of the manager -/

theorem threadMeets_digest {there : Cell → Prop} {recorded : Prop} {client : Nat} {metaDir : Dir}
    {layerIds : List Nat} (h : ∀ l ∈ layerIds, ∀ c, n (.layer l) c → there c ∨ c = .context l) :
    ThreadMeets n there recorded (Loader.digest client metaDir layerIds) := by
  have hbody : BodyMeets n [] there (layerIds.flatMap fun l => [.readDigest l, .setLayerReady l]) := by
    induction layerIds generalizing there with
    | nil => exact fun op hop => absurd hop List.not_mem_nil
    | cons l ids ih =>
      refine ⟨fun c hc => hc.elim, fun c hc => h l List.mem_cons_self c hc, ?_⟩
      refine ih fun l' hl' c hc => ?_
      exact (h l' (List.mem_cons_of_mem _ hl') c hc).imp_left fun hthere => Or.inl (Or.inl hthere)
  refine threadMeets_continueWith ?_ (errorPath_releaseOps _ _)
  split
  next => exact fun op hop => absurd hop List.not_mem_nil
  next => exact ⟨fun c hc => hc.elim, hbody.mono fun c hc => Or.inl hc⟩

theorem threadMeets_critical {there : Cell → Prop} {recorded : Prop} {client : Nat} {metaDir : Dir}
    {digestIds criticalIds : List Nat}
    (h : ∀ c, n .taskB c → there c ∨ ∃ l ∈ criticalIds, c = .hack l) :
    ThreadMeets n there recorded (Loader.critical client metaDir digestIds criticalIds) := by
  have hread : BodyMeets n [.setTaskB] there [.readCritical criticalIds] := by
    refine ⟨fun c hc => hc.elim, fun op hop => ?_⟩
    rw [List.mem_singleton.mp hop]
    exact h
  refine threadMeets_continueWith ?_ (errorPath_releaseOps _ _)
  cases digestIds with
  | nil => exact hread
  | cons first rest =>
    refine ⟨fun c hc => hc.elim, fun c hc => hc.elim, hread.mono fun c hc => ?_⟩
    exact Or.inl (Or.inl hc)

theorem threadMeets_queryCache {there : Cell → Prop} {recorded : Prop} {client numDigestLayers : Nat}
    {criticalLayers : List Nat} {queryDir : Dir}
    (hdigest : ∀ l < numDigestLayers, ∀ c, n (.layer l) c → there c ∨ c = .context l)
    (hcritical : ∀ c, n .taskB c → there c ∨ ∃ l ∈ criticalLayers, c = .hack l) :
    ThreadMeets n there recorded
      (Loader.queryCache client numDigestLayers criticalLayers queryDir) := by
  refine ⟨⟨fun c hc => hc.elim, fun op hop => ?_⟩, errorPath_releaseOps _ _⟩
  simp only [Loader.queryCache, List.mem_cons, List.not_mem_nil, or_false] at hop
  rcases hop with rfl | rfl
  · exact fun l hl c hc => (hdigest l (List.mem_range.mp hl) c hc).imp_left Or.inl
  · exact fun c hc => (hcritical c hc).imp_left Or.inl

theorem threadMeets_taskB {there : Cell → Prop} {recorded : Prop} {client : Nat} {layerIds : List Nat}
    (h : ∀ c, n .taskB c → there c ∨ ∃ l ∈ layerIds, c = .hack l) :
    ThreadMeets n there recorded (Loader.taskB client layerIds) := by
  have hbody : BodyMeets n [.setTaskB] there (layerIds.map .readChunk) := by
    induction layerIds generalizing there with
    | nil =>
      intro op hop
      rw [List.mem_singleton.mp hop]
      intro c hc
      rcases h c hc with hthere | ⟨l, hl, -⟩
      · exact hthere
      · exact absurd hl List.not_mem_nil
    | cons l ids ih =>
      refine ⟨fun c hc => hc.elim, ih fun c hc => ?_⟩
      rcases h c hc with hthere | ⟨l', hl', rfl⟩
      · exact Or.inl (Or.inl hthere)
      · rcases List.mem_cons.mp hl' with rfl | hl'
        · exact Or.inl (Or.inr rfl)
        · exact Or.inr ⟨l', hl', rfl⟩
  exact ⟨⟨fun c hc => hc.elim, hbody.mono fun c hc => Or.inl hc⟩, errorPath_releaseOps _ _⟩

theorem threadMeets_doBlendPrefetch {there : Cell → Prop} {recorded : Prop}
    {client prefetchFrom numLayers : Nat}
    (h : ∀ l, prefetchFrom ≤ l → ∀ c, n (.layer l) c → there c ∨ c = .hack l) :
    ThreadMeets n there recorded (Loader.doBlendPrefetch client prefetchFrom numLayers) := by
  have hbody : ∀ (ids : List Nat) (there' : Cell → Prop), (∀ l ∈ ids, prefetchFrom ≤ l) →
      (∀ c, there c → there' c) → BodyMeets n [] there' (ids.map .prefetchLayer) := by
    intro ids
    induction ids with
    | nil => exact fun there' _ _ op hop => absurd hop List.not_mem_nil
    | cons l ids ih =>
      intro there' hids hmore
      refine ⟨fun c hc => ?_, ih _ (fun l hl => hids l (List.mem_cons_of_mem _ hl))
        fun c hc => Or.inl (hmore c hc)⟩
      exact hmore c ((h l (hids l List.mem_cons_self) c hc.1).resolve_right hc.2)
  refine ⟨⟨fun c hc => hc.elim, hbody _ _ (fun l hl => ?_) fun c hc => Or.inl hc⟩,
    errorPath_releaseOps _ _⟩
  exact (List.mem_range'_1.mp hl).1

/-! ## One step of a thread -/

theorem LoaderEffect.present {rt rt' : Runtime} {set : Option Nat} (h : LoaderEffect rt rt' set)
    {c : Cell} (hc : Present rt c) : Present rt' c := by
  cases h with
  | context l kv context hassign =>
    cases c with
    | context i =>
      show (context.kvOf i).isSome
      rw [ContextPool.kvOf_assign hassign]
      split
      next => rfl
      next => exact hc
    | hack i => exact hc
  | hack l kv hack hassign =>
    cases c with
    | context i => exact hc
    | hack i =>
      show (hack.kvOf i).isSome
      rw [HackPool.kvOf_assign hassign]
      split
      next => rfl
      next => exact hc
  | _ => cases c <;> exact hc

theorem LoaderEffect.whole {rt rt' : Runtime} {set : Option Nat} (h : LoaderEffect rt rt' set)
    (hwhole : Whole rt) : Whole rt' := by
  cases h with
  | hack l kv hack hassign =>
    intro i hi
    obtain ⟨hk, hv⟩ := HackPool.assign_ok hassign i
    show (layerOf hack.vBuffer i).isSome
    rw [hv]
    split
    next => rfl
    next hne =>
      have hi' : (layerOf hack.kBuffer i).isSome := hi
      rw [hk, if_neg hne] at hi'
      exact hwhole i hi'
  | _ => exact hwhole

theorem LoaderEffect.error_kept {rt rt' : Runtime} {set : Option Nat} (h : LoaderEffect rt rt' set)
    (herror : rt.loaderError = true) : rt'.loaderError = true := by
  cases h with
  | loaderError => rfl
  | _ => exact herror

/-- Loaders never clear an event. -/
theorem LoaderEffect.event_kept {rt rt' : Runtime} {set : Option Nat} (h : LoaderEffect rt rt' set)
    {w : Wait} (hset : rt.eventOf w = some true) : rt'.eventOf w = some true := by
  cases h with
  | layerReady l hlt =>
    cases w with
    | taskB => exact hset
    | layer i =>
      simp only [Runtime.eventOf] at hset ⊢
      by_cases heq : l = i
      · subst heq
        exact List.getElem?_set_self hlt
      · rwa [List.getElem?_set_ne heq]
  | taskB =>
    cases w with
    | taskB => rfl
    | layer i => exact hset
  | _ => cases w <;> exact hset

/-- Where `has_kv` holds in a whole pool, both tensors are there. -/
theorem Whole.present {rt : Runtime} (h : Whole rt) {layerId : Nat}
    (hkv : rt.hack.hasKv layerId = true) : Present rt (.hack layerId) := by
  show (rt.hack.kvOf layerId).isSome
  unfold HackPool.hasKv at hkv
  unfold HackPool.kvOf
  have hv := h layerId
  split at hkv
  next k hk =>
    rw [hk] at hv ⊢
    obtain ⟨v, hv⟩ := Option.isSome_iff_exists.mp (hv rfl)
    rw [hv]
    rfl
  next => cases hkv

/-- Setting an event that was earned. -/
def Earned (n : Needs) (rt rt' : Runtime) : Prop :=
  ∀ w, rt'.eventOf w = some true →
    rt.eventOf w = some true ∨ rt'.loaderError = true ∨ ∀ c, n w c → Present rt' c

theorem earned_same {rt rt' : Runtime} (h : ∀ w, rt'.eventOf w = rt.eventOf w) : Earned n rt rt' :=
  fun w hw => Or.inl (h w ▸ hw)

theorem earned_layer {rt : Runtime} {layerId : Nat}
    (h : rt.loaderError = true ∨ ∀ c, n (.layer layerId) c → Present rt c) :
    Earned n rt { rt with layerReady := rt.layerReady.set layerId true } := by
  have hpresent : ∀ c, Present { rt with layerReady := rt.layerReady.set layerId true } c ↔ Present rt c :=
    fun c => by cases c <;> exact Iff.rfl
  intro w hw
  cases w with
  | taskB => exact Or.inl hw
  | layer l =>
    by_cases heq : layerId = l
    · subst heq
      exact Or.inr (h.imp_right fun hc c hn => (hpresent c).mpr (hc c hn))
    · simp only [Runtime.eventOf] at hw ⊢
      rw [List.getElem?_set_ne heq] at hw
      exact Or.inl hw

theorem ThreadMeets.step {disk : Disk} {fails : Bool} {rt : Runtime} {t : Loader}
    {r : Loader.StepResult} (h : ThreadMeets n (Present rt) (rt.loaderError = true) t)
    (hwhole : Whole rt) (hstep : t.step disk fails rt = some r) :
    Earned n rt r.rt ∧ ThreadMeets n (Present r.rt) (r.rt.loaderError = true) r.loader ∧
      ∀ u ∈ r.started, ThreadMeets n (Present r.rt) (r.rt.loaderError = true) u := by
  have hnone : ∀ rt' : Runtime, ∀ u ∈ ([] : List Loader),
      ThreadMeets n (Present rt') (rt'.loaderError = true) u := fun _ u hu => absurd hu List.not_mem_nil
  have hsame : Earned n rt rt := earned_same fun _ => rfl
  rcases loader_step_cases hstep with ⟨op, body, hphase, hstep⟩ | ⟨op, rest, hphase, rfl⟩
  · unfold ThreadMeets at h
    rw [hphase] at h
    obtain ⟨⟨hneeds, hbody⟩, herror⟩ := h
    have hraised : Earned n rt (t.raised rt).rt ∧
        ThreadMeets n (Present (t.raised rt).rt) ((t.raised rt).rt.loaderError = true) (t.raised rt).loader ∧
        ∀ u ∈ (t.raised rt).started, ThreadMeets n (Present (t.raised rt).rt)
          ((t.raised rt).rt.loaderError = true) u := ⟨hsame, Or.inr (Or.inl herror), hnone _⟩
    -- a statement that puts nothing
    have hcontinue : (∀ c, ¬ loadPuts op c) → ∀ rt', (∀ c, Present rt c → Present rt' c) →
        ThreadMeets n (Present rt') (rt'.loaderError = true) (t.continueWith body) :=
      fun hputs rt' hmore => threadMeets_continueWith
        (hbody.mono fun c hc => hmore c (hc.resolve_right (hputs c))) herror
    rcases hstep with rfl | hstep
    · exact hraised
    · cases op <;> simp only [Loader.tryStep] at hstep
      case blockedOn => cases hstep
      case waitLayer l =>
        split at hstep
        next =>
          cases hstep
          exact hraised
        next =>
          split at hstep <;> cases hstep
          next => exact ⟨hsame, hcontinue (fun _ => id) rt fun _ => id, hnone rt⟩
          next => exact ⟨hsame, ⟨⟨fun c hc => hc.elim, hbody⟩, herror⟩, hnone rt⟩
      case raiseLoaderError =>
        split at hstep <;> cases hstep
        next => exact hraised
        next => exact ⟨hsame, hcontinue (fun _ => id) rt fun _ => id, hnone rt⟩
      case checkQueryMeta =>
        cases hstep
        exact ⟨hsame, hcontinue (fun _ => id) rt fun _ => id, hnone rt⟩
      case openQuery =>
        cases hstep
        exact ⟨hsame, threadMeets_continueWith
          (hbody.mono fun c hc => hc.resolve_right id) herror, hnone rt⟩
      case loadPackedMeta =>
        cases hstep
        exact ⟨hsame, threadMeets_continueWith
          (hbody.mono fun c hc => hc.resolve_right id) herror, hnone rt⟩
      case readDigest l =>
        cases hstep
        exact ⟨hsame, threadMeets_continueWith ⟨fun c hc => hc.elim, hbody⟩ herror, hnone rt⟩
      case readChunk l =>
        cases hstep
        exact ⟨hsame, threadMeets_continueWith ⟨fun c hc => hc.elim, hbody⟩ herror, hnone rt⟩
      case readCritical ids =>
        cases hstep
        refine ⟨hsame, threadMeets_continueWith ?_ herror, hnone rt⟩
        -- the block turns into one put for each of its layers
        have hputs : ∀ (ids' : List Nat) (there : Cell → Prop),
            (∀ c, (Present rt c ∨ ∃ l ∈ ids, c = .hack l) → there c ∨ ∃ l ∈ ids', c = .hack l) →
            BodyMeets n t.onReturn there ((ids'.map fun layerId =>
              .putHack layerId (disk.critical t.metaDir rt.sampleDirQuery layerId)) ++ body) := by
          intro ids'
          induction ids' with
          | nil =>
            intro there hthere
            refine hbody.mono fun c hc => (hthere c hc).resolve_right ?_
            rintro ⟨l, hl, -⟩
            exact absurd hl List.not_mem_nil
          | cons l ids' ih =>
            intro there hthere
            refine ⟨fun c hc => hc.elim, ih _ fun c hc => ?_⟩
            rcases hthere c hc with hc | ⟨l', hl', rfl⟩
            · exact Or.inl (Or.inl hc)
            · rcases List.mem_cons.mp hl' with rfl | hl'
              · exact Or.inl (Or.inr rfl)
              · exact Or.inr ⟨l', hl', rfl⟩
        exact hputs ids _ fun c hc => hc
      case putDigest l kv =>
        split at hstep <;> cases hstep
        next context hcontext =>
          have heffect : LoaderEffect rt { rt with context := context } none :=
            .context l kv context hcontext
          refine ⟨earned_same fun w => by cases w <;> rfl,
            threadMeets_continueWith (hbody.mono fun c hc => ?_) herror, hnone _⟩
          rcases hc with hc | rfl
          · exact heffect.present hc
          · show (context.kvOf l).isSome
            rw [ContextPool.kvOf_assign hcontext, if_pos rfl]
            rfl
        next => exact hraised
      case putHack l kv =>
        split at hstep <;> cases hstep
        next hack hhack =>
          have heffect : LoaderEffect rt { rt with hack := hack } none := .hack l kv hack hhack
          refine ⟨earned_same fun w => by cases w <;> rfl,
            threadMeets_continueWith (hbody.mono fun c hc => ?_) herror, hnone _⟩
          rcases hc with hc | rfl
          · exact heffect.present hc
          · show (hack.kvOf l).isSome
            rw [HackPool.kvOf_assign hhack, if_pos rfl]
            rfl
        next => exact hraised
      case setLayerReady l =>
        split at hstep <;> cases hstep
        next => exact hraised
        next hlt =>
          refine ⟨earned_layer (Or.inr hneeds), hcontinue (fun _ => id) _ fun c hc => ?_, hnone _⟩
          exact (LoaderEffect.layerReady l (Nat.lt_of_not_le hlt)).present hc
      case prefetchLayer l =>
        split at hstep
        next hkv =>
          have hhack := hwhole.present hkv
          split at hstep <;> cases hstep
          next => exact hraised
          next hlt =>
            have hmore : ∀ c, Present rt c →
                Present { rt with layerReady := rt.layerReady.set l true } c :=
              fun c hc => (LoaderEffect.layerReady l (Nat.lt_of_not_le hlt)).present hc
            refine ⟨earned_layer (Or.inr fun c hc => ?_),
              threadMeets_continueWith (hbody.mono fun c hc => ?_) herror, hnone _⟩
            · by_cases heq : c = .hack l
              · exact heq ▸ hhack
              · exact hneeds c ⟨hc, heq⟩
            · rcases hc with hc | rfl
              · exact hmore c hc
              · exact hmore _ hhack
        next =>
          cases hstep
          refine ⟨hsame, threadMeets_continueWith ⟨fun c hc => hc.elim, fun c hc => ?_, ?_⟩ herror,
            hnone rt⟩
          · by_cases heq : c = .hack l
            · exact Or.inr heq
            · exact Or.inl (hneeds c ⟨hc, heq⟩)
          · exact hbody.mono fun c hc => Or.inl hc
  · have hrecorded : ∀ {rest'}, (∀ op ∈ rest', ReleaseOnly op) →
        ThreadMeets n (Present rt) True { t with phase := .leaving rest' } :=
      fun hrest => Or.inl ⟨trivial, hrest⟩
    unfold ThreadMeets at h
    rw [hphase] at h
    rcases h with ⟨hrec, hrest⟩ | ⟨tail, htail, hrest⟩ | hmeets
    · -- the error has been recorded
      have htail : ∀ op' ∈ rest, ReleaseOnly op' := fun op' hop' => hrest op' (List.mem_cons_of_mem _ hop')
      have hop := hrest op List.mem_cons_self
      cases op with
      | setLayerReady l =>
        simp only [Loader.leaveStep]
        split
        next => exact ⟨hsame, Or.inl ⟨hrec, htail⟩, hnone rt⟩
        next => exact ⟨earned_layer (Or.inl hrec), Or.inl ⟨hrec, htail⟩, hnone _⟩
      | setTaskB =>
        refine ⟨fun w hw => ?_, Or.inl ⟨hrec, htail⟩, hnone _⟩
        cases w with
        | taskB => exact Or.inr (Or.inl hrec)
        | layer l => exact Or.inl hw
      | _ => exact hop.elim
    · cases htail
      exact ⟨earned_same fun w => by cases w <;> rfl, Or.inl ⟨rfl, hrest⟩, hnone _⟩
    · have htail : ∀ op' ∈ rest, LeaveMeets n (Present rt) op' :=
        fun op' hop' => hmeets op' (List.mem_cons_of_mem _ hop')
      have hop := hmeets op List.mem_cons_self
      have hkeep : ∀ {rt' : Runtime}, (∀ c, Present rt c → Present rt' c) →
          ThreadMeets n (Present rt') (rt'.loaderError = true) { t with phase := .leaving rest } :=
        fun hmore => Or.inr (Or.inr fun op' hop' => (htail op' hop').mono hmore)
      cases op with
      | recordLoaderError => exact ⟨earned_same fun w => by cases w <;> rfl, hkeep fun c hc => by
          cases c <;> exact hc, hnone _⟩
      | setLayerReady l => exact hop.elim
      | setTaskB =>
        have hmore : ∀ c, Present rt c → Present { rt with taskB := true } c :=
          fun c hc => by cases c <;> exact hc
        refine ⟨fun w hw => ?_, hkeep hmore, hnone _⟩
        cases w with
        | taskB => exact Or.inr (Or.inr fun c hc => hmore c (hop c hc))
        | layer l => exact Or.inl hw
      | startDigest dir ids =>
        refine ⟨hsame, hkeep fun _ => id, fun u hu => ?_⟩
        rw [List.mem_singleton.mp hu]
        exact threadMeets_digest hop
      | startCritical dir digestIds criticalIds =>
        refine ⟨hsame, hkeep fun _ => id, fun u hu => ?_⟩
        rw [List.mem_singleton.mp hu]
        exact threadMeets_critical hop

end Threads

/-! ## All threads -/

/-- Every event that is set was earned, and every other will be. -/
structure Protocol (n : Needs) (s : Shared) : Prop where
  whole : Whole s.rt
  earned : ∀ w, s.rt.eventOf w = some true →
    s.rt.loaderError = true ∨ ∀ c, n w c → Present s.rt c
  threads : ∀ t ∈ s.loaders, ThreadMeets n (Present s.rt) (s.rt.loaderError = true) t

variable {cfg : Config} {n : Needs}

theorem protocol_stable (n : Needs) : Stable (Rely cfg) (Protocol n) := by
  rintro s s' hs ⟨index, fails, hstep⟩
  obtain ⟨t, r, ht, hr, hrt, hthreads⟩ := loaderStep_cases hstep
  have heffect := loader_step_effect hr
  obtain ⟨hearned, hloader, hstarted⟩ := (hs.threads t ht).step hs.whole hr
  constructor
  · exact hrt ▸ heffect.whole hs.whole
  · rw [hrt]
    intro w hw
    rcases hearned w hw with hbefore | hdone
    · rcases hs.earned w hbefore with herror | hpresent
      · exact Or.inl (heffect.error_kept herror)
      · exact Or.inr fun c hc => heffect.present (hpresent c hc)
    · exact hdone
  · rw [hrt]
    intro u hu
    rcases hthreads u hu with hu | ⟨v, hv, hu⟩
    · exact hstarted u hu
    · have hmeets : ThreadMeets n (Present r.rt) (r.rt.loaderError = true) v := by
        rcases hv with rfl | hv
        · exact hloader
        · exact (hs.threads v hv).mono (fun c hc => heffect.present hc) heffect.error_kept
      rcases hu with rfl | ⟨l, -, rfl⟩
      · exact hmeets
      · exact hmeets.wake _ _

theorem event_stable (w : Wait) : Stable (Rely cfg) fun s => s.rt.eventOf w = some true := by
  rintro s s' hs ⟨index, fails, hstep⟩
  obtain ⟨t, r, ht, hr, hrt, hthreads⟩ := loaderStep_cases hstep
  rw [hrt]
  exact (loader_step_effect hr).event_kept hs

/-- A statement that leaves the events and the error alone, and takes no tensor out of the pools. -/
def KeepsProtocol : MainOp → Prop
  | .run (.putQ _ _) | .run (.putQueryK _ _) => True
  | .run _ | .start _ | .finishKvCompute _ => False
  | _ => True

theorem Protocol.of_more {s s' : Shared} (hs : Protocol n s) (hloaders : s'.loaders = s.loaders)
    (hevents : ∀ w, s'.rt.eventOf w = s.rt.eventOf w) (herror : s'.rt.loaderError = s.rt.loaderError)
    (hwhole : Whole s'.rt) (hmore : ∀ c, Present s.rt c → Present s'.rt c) : Protocol n s' where
  whole := hwhole
  earned w hw := by
    rw [herror]
    rw [hevents] at hw
    exact (hs.earned w hw).imp_right fun hc c hn => hmore c (hc c hn)
  threads t ht := by
    rw [herror]
    exact (hs.threads t (hloaders ▸ ht)).mono hmore id

theorem present_congr {rt rt' : Runtime} (hcontext : rt'.context = rt.context)
    (hk : rt'.hack.kBuffer = rt.hack.kBuffer) (hv : rt'.hack.vBuffer = rt.hack.vBuffer) (c : Cell)
    (h : Present rt c) : Present rt' c := by
  cases c with
  | context l =>
    show (rt'.context.kvOf l).isSome
    rw [hcontext]
    exact h
  | hack l =>
    show (rt'.hack.kvOf l).isSome
    unfold HackPool.kvOf
    rw [hk, hv]
    exact h

theorem protocol_exec {req : BlendRequest} {op : MainOp} {s s' : Shared} (hkeeps : KeepsProtocol op)
    (hs : Protocol n s) (hstep : Exec cfg req op s s') : Protocol n s' := by
  cases exec_effect hstep with
  | run stmt rt hrt =>
    cases stmt with
    | putQ l q =>
      obtain ⟨qBuffer, -, hrt⟩ := bind_ok hrt
      cases hrt
      exact hs.of_more rfl (fun w => by cases w <;> rfl) rfl hs.whole
        (present_congr rfl rfl rfl)
    | putQueryK l k =>
      obtain ⟨queryKBuffer, -, hrt⟩ := bind_ok hrt
      cases hrt
      exact hs.of_more rfl (fun w => by cases w <;> rfl) rfl hs.whole
        (present_congr rfl rfl rfl)
    | _ => exact hkeeps.elim
  | start t => exact hkeeps.elim
  | restoreQueryMetadata context hsame =>
    refine hs.of_more rfl (fun w => by cases w <;> rfl) rfl hs.whole fun c hc => ?_
    cases c with
    | context l =>
      show (context.kvOf l).isSome
      rw [ContextPool.kvOf_congr hsame]
      exact hc
    | hack l => exact hc
  | wait => exact hs
  | raiseLoaderError => exact hs
  | loadedContext l kv read context hkv hread hassign =>
    refine hs.of_more rfl (fun w => by cases w <;> rfl) rfl hs.whole fun c hc => ?_
    cases c with
    | context i =>
      show (context.kvOf i).isSome
      rw [ContextPool.kvOf_assign hassign, ContextPool.kvOf_congr hread]
      split
      next => rfl
      next => exact hc
    | hack i => exact hc
  | pooledContext l context hsame =>
    refine hs.of_more rfl (fun w => by cases w <;> rfl) rfl hs.whole fun c hc => ?_
    cases c with
    | context l =>
      show (context.kvOf l).isSome
      rw [ContextPool.kvOf_congr hsame]
      exact hc
    | hack l => exact hc
  | select => exact hs
  | blendCopy => exact hs
  | blendInPlace l kv hack hassign =>
    have heffect : LoaderEffect s.rt { s.rt with hack := hack } none := .hack l kv hack hassign
    exact hs.of_more rfl (fun w => by cases w <;> rfl) rfl (heffect.whole hs.whole)
      fun c hc => heffect.present hc
  | finishKvCompute => exact hkeeps.elim

theorem keepsProtocol_frame {req : BlendRequest} {op : MainOp} {s s' : Shared}
    (hkeeps : KeepsProtocol op) (hstep : Exec cfg req op s s') :
    s'.loaders = s.loaders ∧ (∀ w, s'.rt.eventOf w = s.rt.eventOf w) ∧
      s'.rt.loaderError = s.rt.loaderError := by
  cases exec_effect hstep with
  | run stmt rt hrt =>
    cases stmt with
    | putQ l q =>
      obtain ⟨qBuffer, -, hrt⟩ := bind_ok hrt
      cases hrt
      exact ⟨rfl, fun w => by cases w <;> rfl, rfl⟩
    | putQueryK l k =>
      obtain ⟨queryKBuffer, -, hrt⟩ := bind_ok hrt
      cases hrt
      exact ⟨rfl, fun w => by cases w <;> rfl, rfl⟩
    | _ => exact hkeeps.elim
  | start t => exact hkeeps.elim
  | finishKvCompute => exact hkeeps.elim
  | _ => exact ⟨rfl, fun w => by cases w <;> rfl, rfl⟩

/-! ## Recorded failures -/

/-- Where a thread of the client has recorded an error, every wait raises. -/
def FailuresRecorded (client : Nat) (s : Shared) : Prop :=
  ∀ t ∈ s.loaders, t.client = client → t.failed = true → s.rt.loaderError = true

theorem continueWith_failed (t : Loader) (body : List LoadOp) :
    (t.continueWith body).client = t.client ∧ (t.continueWith body).failed = t.failed := ⟨rfl, rfl⟩

theorem loader_step_failed {disk : Disk} {fails : Bool} {rt : Runtime} {t : Loader}
    {r : Loader.StepResult} (h : t.step disk fails rt = some r) :
    r.loader.client = t.client ∧ (r.loader.failed = true → t.failed = true ∨ r.rt.loaderError = true) ∧
      ∀ u ∈ r.started, u.client = t.client ∧ u.failed = false := by
  have hnone : ∀ u ∈ ([] : List Loader), u.client = t.client ∧ u.failed = false :=
    fun u hu => absurd hu List.not_mem_nil
  rcases loader_step_cases h with ⟨op, body, -, rfl | hstep⟩ | ⟨op, rest, -, rfl⟩
  · exact ⟨rfl, Or.inl, hnone⟩
  · cases op <;> simp only [Loader.tryStep] at hstep
    case blockedOn => cases hstep
    case waitLayer =>
      split at hstep
      next =>
        cases hstep
        exact ⟨rfl, Or.inl, hnone⟩
      next => split at hstep <;> cases hstep <;> exact ⟨rfl, Or.inl, hnone⟩
    case raiseLoaderError => split at hstep <;> cases hstep <;> exact ⟨rfl, Or.inl, hnone⟩
    case putDigest => split at hstep <;> cases hstep <;> exact ⟨rfl, Or.inl, hnone⟩
    case putHack => split at hstep <;> cases hstep <;> exact ⟨rfl, Or.inl, hnone⟩
    case setLayerReady => split at hstep <;> cases hstep <;> exact ⟨rfl, Or.inl, hnone⟩
    case prefetchLayer =>
      split at hstep
      next => split at hstep <;> cases hstep <;> exact ⟨rfl, Or.inl, hnone⟩
      next =>
        cases hstep
        exact ⟨rfl, Or.inl, hnone⟩
    all_goals
      cases hstep
      exact ⟨rfl, Or.inl, hnone⟩
  · cases op with
    | recordLoaderError => exact ⟨rfl, fun _ => Or.inr rfl, hnone⟩
    | setLayerReady l =>
      simp only [Loader.leaveStep]
      split <;> exact ⟨rfl, Or.inl, hnone⟩
    | setTaskB => exact ⟨rfl, Or.inl, hnone⟩
    | startDigest dir ids =>
      refine ⟨rfl, Or.inl, fun u hu => ?_⟩
      rw [List.mem_singleton.mp hu]
      exact ⟨rfl, rfl⟩
    | startCritical dir digestIds criticalIds =>
      refine ⟨rfl, Or.inl, fun u hu => ?_⟩
      rw [List.mem_singleton.mp hu]
      exact ⟨rfl, rfl⟩

theorem wake_failed (t : Loader) (generation layerId : Nat) :
    (t.wake generation layerId).client = t.client ∧ (t.wake generation layerId).failed = t.failed := by
  unfold Loader.wake
  split
  next => split <;> exact ⟨rfl, rfl⟩
  next => exact ⟨rfl, rfl⟩

theorem failuresRecorded_stable (client : Nat) : Stable (Rely cfg) (FailuresRecorded client) := by
  rintro s s' hs ⟨index, fails, hstep⟩ u hu hclient hfailed
  obtain ⟨t, r, ht, hr, hrt, hthreads⟩ := loaderStep_cases hstep
  have heffect := loader_step_effect hr
  obtain ⟨hsame, hmoved, hstarted⟩ := loader_step_failed hr
  rw [hrt]
  rcases hthreads u hu with hu | ⟨v, hv, hu⟩
  · rw [(hstarted u hu).2] at hfailed
    cases hfailed
  · have hv' : v.client = client ∧ v.failed = true := by
      rcases hu with rfl | ⟨l, -, rfl⟩
      · exact ⟨hclient, hfailed⟩
      · rw [(wake_failed v _ _).1] at hclient
        rw [(wake_failed v _ _).2] at hfailed
        exact ⟨hclient, hfailed⟩
    rcases hv with rfl | hv
    · rcases hmoved hv'.2 with hbefore | herror
      · exact heffect.error_kept (hs t ht (hsame.symm.trans hv'.1) hbefore)
      · exact herror
    · exact heffect.error_kept (hs v hv hv'.1 hv'.2)

end QCFuse.Guarantees
