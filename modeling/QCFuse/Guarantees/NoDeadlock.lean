import QCFuse.Guarantees.ForwardOutlines

/-!
# The forward thread is never blocked for good

Every wait of a request is answered by a thread started for it that sets the event on return
and on an exception, once the requests ask only for what some thread will load.
-/

set_option autoImplicit false

namespace QCFuse.Guarantees

open QCFuse.Library QCFuse.Source

/-! ## Threads that will set an event -/

/-- The statement ends in the event of the wait being set. -/
def loadSets (w : Wait) : LoadOp → Prop
  | .setLayerReady layerId | .prefetchLayer layerId => w = .layer layerId
  | _ => False

/-- The same after the `try`; the digest thread sets the events of its layers. -/
def leaveSets (w : Wait) : LeaveOp → Prop
  | .setLayerReady layerId => w = .layer layerId
  | .setTaskB => w = .taskB
  | .startDigest _ layerIds => ∃ layerId ∈ layerIds, w = .layer layerId
  | _ => False

def mayBlock : LoadOp → Prop
  | .waitLayer _ | .blockedOn _ _ => True
  | _ => False

/-- A live thread that sets the event on every exit, and waits for nothing on the way. -/
def Releases (w : Wait) (t : Loader) : Prop :=
  match t.phase with
  | .trying body => body ≠ [] ∧ (∀ op ∈ body, ¬ mayBlock op) ∧
      ((∃ op ∈ body, loadSets w op) ∨ ∃ op ∈ t.onReturn, leaveSets w op) ∧
      ∃ op ∈ t.onError, leaveSets w op
  | .leaving rest => ∃ op ∈ rest, leaveSets w op

/-- The rest of a `try` keeps the promise of its thread. -/
theorem releases_continueWith {w : Wait} {t : Loader} {body : List LoadOp}
    (hfree : ∀ op ∈ body, ¬ mayBlock op)
    (hsets : (∃ op ∈ body, loadSets w op) ∨ ∃ op ∈ t.onReturn, leaveSets w op)
    (herror : ∃ op ∈ t.onError, leaveSets w op) : Releases w (t.continueWith body) := by
  unfold Releases Loader.continueWith
  cases body with
  | nil =>
    rcases hsets with ⟨op, hop, -⟩ | hreturn
    · exact absurd hop List.not_mem_nil
    · exact hreturn
  | cons op body => exact ⟨List.cons_ne_nil _ _, hfree, hsets, herror⟩

theorem Releases.wake {w : Wait} {t : Loader} (h : Releases w t) (generation layerId : Nat) :
    t.wake generation layerId = t := by
  unfold Loader.wake
  split
  next g l body hphase =>
    unfold Releases at h
    rw [hphase] at h
    exact absurd trivial (h.2.1 (.blockedOn g l) List.mem_cons_self)
  next => rfl

/-- Such a thread can always go on. -/
theorem Releases.can_step {w : Wait} {t : Loader} (h : Releases w t) (disk : Disk)
    (rt : Runtime) : (t.step disk false rt).isSome := by
  unfold Releases at h
  unfold Loader.step
  cases hphase : t.phase with
  | trying body =>
    rw [hphase] at h
    cases body with
    | nil => exact absurd rfl h.1
    | cons op body =>
      have hfree := h.2.1 op List.mem_cons_self
      cases op <;> simp only [Loader.tryStep, Bool.false_eq_true, if_false]
      case waitLayer => exact absurd trivial hfree
      case blockedOn => exact absurd trivial hfree
      case prefetchLayer =>
        split
        next => split <;> rfl
        next => rfl
      all_goals first | rfl | (split <;> rfl)
  | leaving rest =>
    rw [hphase] at h
    cases rest with
    | nil =>
      obtain ⟨op, hop, -⟩ := h
      exact absurd hop List.not_mem_nil
    | cons op rest => rfl

theorem eventOf_set {rt : Runtime} {layerId : Nat} (h : layerId < rt.layerReady.length) :
    ({ rt with layerReady := rt.layerReady.set layerId true } : Runtime).eventOf
      (.layer layerId) = some true := by
  simp only [Runtime.eventOf]
  exact List.getElem?_set_self h

theorem mem_releaseOps_layer {layerIds : List Nat} {releaseTaskB : Bool} {layerId : Nat}
    (h : layerId ∈ layerIds) :
    ∃ op ∈ Loader.releaseOps layerIds releaseTaskB, leaveSets (.layer layerId) op :=
  ⟨.setLayerReady layerId,
    List.mem_cons_of_mem _ (List.mem_append_left _ (List.mem_map_of_mem h)), rfl⟩

/-- The digest thread releases each of its layers. -/
theorem releases_digest (client : Nat) (queryDir : Dir) {layerIds : List Nat} {layerId : Nat}
    (h : layerId ∈ layerIds) : Releases (.layer layerId) (Loader.digest client queryDir layerIds) := by
  have hne : layerIds ≠ [] := List.ne_nil_of_mem h
  unfold Loader.digest
  rw [if_neg hne]
  refine releases_continueWith ?_ (Or.inl ⟨.setLayerReady layerId, ?_, rfl⟩)
    (mem_releaseOps_layer h)
  · intro op hop
    rcases List.mem_cons.mp hop with rfl | hop
    · exact id
    · obtain ⟨l, -, hl⟩ := List.mem_flatMap.mp hop
      rcases List.mem_cons.mp hl with rfl | hl
      · exact id
      · rw [List.mem_singleton.mp hl]
        exact id
  · refine List.mem_cons_of_mem _ (List.mem_flatMap.mpr ⟨layerId, h, ?_⟩)
    exact List.mem_cons_of_mem _ List.mem_cons_self

/-- A step of a releasing thread sets the event or leaves the promise with a live thread. -/
theorem Releases.step {disk : Disk} {fails : Bool} {w : Wait} {rt : Runtime} {t : Loader}
    {r : Loader.StepResult} (h : Releases w t) (hevent : rt.eventOf w ≠ none)
    (hstep : t.step disk fails rt = some r) :
    r.rt.eventOf w = some true ∨ Releases w r.loader ∨ ∃ u ∈ r.started, Releases w u := by
  have hlayer : ∀ layerId, w = .layer layerId → layerId < rt.layerReady.length := by
    rintro layerId rfl
    by_contra hge
    exact hevent (List.getElem?_eq_none (Nat.le_of_not_lt hge))
  unfold Releases at h
  rcases loader_step_cases hstep with ⟨op, body, hphase, hstep⟩ | ⟨op, rest, hphase, rfl⟩
  · rw [hphase] at h
    obtain ⟨-, hfree, hsets, herror⟩ := h
    have hraised : Releases w (t.raised rt).loader := herror
    have hbody : ∀ op ∈ body, ¬ mayBlock op := fun op hop => hfree op (List.mem_cons_of_mem _ hop)
    -- what is left when the statement itself does not set the event
    have hrest : ¬ loadSets w op →
        (∃ op ∈ body, loadSets w op) ∨ ∃ op ∈ t.onReturn, leaveSets w op := by
      intro hop
      refine hsets.imp_left ?_
      rintro ⟨op', hmem, hset⟩
      rcases List.mem_cons.mp hmem with rfl | hmem
      · exact absurd hset hop
      · exact ⟨op', hmem, hset⟩
    have hcontinue : ∀ body', (∀ op ∈ body', ¬ mayBlock op) → ¬ loadSets w op →
        Releases w (t.continueWith (body' ++ body)) := by
      intro body' hfree' hop
      refine releases_continueWith ?_ ?_ herror
      · intro op hop
        rcases List.mem_append.mp hop with hop | hop
        · exact hfree' op hop
        · exact hbody op hop
      · exact (hrest hop).imp_left fun ⟨op', hmem, hset⟩ =>
          ⟨op', List.mem_append_right _ hmem, hset⟩
    have hset : ∀ layerId, loadSets w op → (loadSets w op ↔ w = .layer layerId) →
        ({ rt with layerReady := rt.layerReady.set layerId true } : Runtime).eventOf w =
          some true := by
      intro layerId hop hiff
      obtain rfl := hiff.mp hop
      exact eventOf_set (hlayer layerId rfl)
    have hnone : ∀ op ∈ ([] : List LoadOp), ¬ mayBlock op :=
      fun op hop => absurd hop List.not_mem_nil
    rcases hstep with rfl | hstep
    · exact Or.inr (Or.inl hraised)
    · cases op <;> simp only [Loader.tryStep] at hstep
      case waitLayer l => exact absurd trivial (hfree (.waitLayer l) List.mem_cons_self)
      case blockedOn => cases hstep
      case setLayerReady l =>
        split at hstep <;> cases hstep
        next => exact Or.inr (Or.inl hraised)
        next =>
          by_cases hw : loadSets w (.setLayerReady l)
          · exact Or.inl (hset l hw Iff.rfl)
          · exact Or.inr (Or.inl (hcontinue [] hnone hw))
      case prefetchLayer l =>
        split at hstep
        next =>
          split at hstep <;> cases hstep
          next => exact Or.inr (Or.inl hraised)
          next =>
            by_cases hw : loadSets w (.prefetchLayer l)
            · exact Or.inl (hset l hw Iff.rfl)
            · exact Or.inr (Or.inl (hcontinue [] hnone hw))
        next =>
          cases hstep
          refine Or.inr (Or.inl (releases_continueWith ?_ ?_ herror))
          · intro op hop
            rcases List.mem_cons.mp hop with rfl | hop
            · exact id
            · rcases List.mem_cons.mp hop with rfl | hop
              · exact id
              · exact hbody op hop
          · by_cases hw : loadSets w (.prefetchLayer l)
            · exact Or.inl ⟨.setLayerReady l, List.mem_cons_of_mem _ List.mem_cons_self, hw⟩
            · exact (hrest hw).imp_left fun ⟨op', hmem, hset⟩ =>
                ⟨op', List.mem_cons_of_mem _ (List.mem_cons_of_mem _ hmem), hset⟩
      case raiseLoaderError =>
        split at hstep <;> cases hstep
        next => exact Or.inr (Or.inl hraised)
        next => exact Or.inr (Or.inl (hcontinue [] hnone id))
      case putDigest =>
        split at hstep <;> cases hstep
        next => exact Or.inr (Or.inl (hcontinue [] hnone id))
        next => exact Or.inr (Or.inl hraised)
      case putHack =>
        split at hstep <;> cases hstep
        next => exact Or.inr (Or.inl (hcontinue [] hnone id))
        next => exact Or.inr (Or.inl hraised)
      case readDigest l =>
        cases hstep
        exact Or.inr (Or.inl (hcontinue [_] (fun op hop => by
          rw [List.mem_singleton.mp hop]
          exact id) id))
      case readChunk l =>
        cases hstep
        exact Or.inr (Or.inl (hcontinue [_] (fun op hop => by
          rw [List.mem_singleton.mp hop]
          exact id) id))
      case readCritical ids =>
        cases hstep
        refine Or.inr (Or.inl (hcontinue _ (fun op hop => ?_) id))
        obtain ⟨l, -, rfl⟩ := List.mem_map.mp hop
        exact id
      case checkQueryMeta =>
        cases hstep
        exact Or.inr (Or.inl (hcontinue [] hnone id))
      case openQuery =>
        cases hstep
        exact Or.inr (Or.inl (releases_continueWith hbody (hrest id) herror))
      case loadPackedMeta =>
        cases hstep
        exact Or.inr (Or.inl (releases_continueWith hbody (hrest id) herror))
  · rw [hphase] at h
    obtain ⟨op', hmem, hset⟩ := h
    have hrest : ¬ leaveSets w op → ∃ op ∈ rest, leaveSets w op := by
      intro hop
      rcases List.mem_cons.mp hmem with rfl | hmem
      · exact absurd hset hop
      · exact ⟨op', hmem, hset⟩
    cases op with
    | recordLoaderError => exact Or.inr (Or.inl (hrest id))
    | setLayerReady l =>
      simp only [Loader.leaveStep]
      by_cases hw : w = .layer l
      · subst hw
        rw [if_neg (Nat.not_le.mpr (hlayer l rfl))]
        exact Or.inl (eventOf_set (hlayer l rfl))
      · refine Or.inr (Or.inl ?_)
        split <;> exact hrest hw
    | setTaskB =>
      by_cases hw : w = .taskB
      · subst hw
        exact Or.inl rfl
      · exact Or.inr (Or.inl (hrest hw))
    | startDigest queryDir ids =>
      by_cases hw : ∃ l ∈ ids, w = .layer l
      · obtain ⟨l, hl, rfl⟩ := hw
        exact Or.inr (Or.inr ⟨_, List.mem_singleton_self _, releases_digest _ _ hl⟩)
      · exact Or.inr (Or.inl (hrest hw))
    | startCritical => exact Or.inr (Or.inl (hrest id))

/-! ## What the forward thread waits for -/

/-- The event is set, or some live thread will set it. -/
def Assured (w : Wait) (s : Shared) : Prop :=
  s.rt.eventOf w = some false → ∃ t ∈ s.loaders, Releases w t

/-- Loaders never clear an event. -/
theorem LoaderEffect.eventOf {rt rt' : Runtime} {set : Option Nat} (h : LoaderEffect rt rt' set)
    {w : Wait} (hclear : rt'.eventOf w = some false) : rt.eventOf w = some false := by
  cases h with
  | layerReady layerId hlt =>
    cases w with
    | taskB => exact hclear
    | layer l =>
      simp only [Runtime.eventOf] at hclear ⊢
      by_cases heq : layerId = l
      · subst heq
        rw [List.getElem?_set_self hlt] at hclear
        cases hclear
      · rwa [List.getElem?_set_ne heq] at hclear
  | taskB =>
    cases w with
    | taskB => cases hclear
    | layer l => exact hclear
  | nothing => exact hclear
  | loaderError => cases w <;> exact hclear
  | context => cases w <;> exact hclear
  | hack => cases w <;> exact hclear

variable {cfg : Config}

theorem assured_stable (w : Wait) : Stable (Rely cfg) (Assured w) := by
  rintro s s' hs ⟨index, fails, hstep⟩ hclear
  obtain ⟨t, r, ht, hr, hrt, hstarted, hkept⟩ := loaderStep_keeps hstep
  have heffect := loader_step_effect hr
  rw [hrt] at hclear
  have hbefore := heffect.eventOf hclear
  obtain ⟨u, hu, hreleases⟩ := hs hbefore
  have hpresent : ∀ v, Releases w v → (v = r.loader ∨ ∃ i, i ≠ index ∧ s.loaders[i]? = some v) →
      ∃ v ∈ s'.loaders, Releases w v := by
    intro v hv hor
    rcases hkept v hor with hmem | ⟨layerId, hmem⟩
    · exact ⟨v, hmem, hv⟩
    · rw [hv.wake] at hmem
      exact ⟨v, hmem, hv⟩
  obtain ⟨i, hi⟩ := List.mem_iff_getElem?.mp hu
  by_cases hindex : i = index
  · subst hindex
    obtain rfl : u = t := Option.some.inj (hi.symm.trans ht)
    rcases hreleases.step (by rw [hbefore]; exact Option.some_ne_none _) hr with hset | hr' | hnew
    · rw [hset] at hclear
      cases hclear
    · exact hpresent _ hr' (Or.inl rfl)
    · obtain ⟨v, hv, hv'⟩ := hnew
      exact ⟨v, hstarted v hv, hv'⟩
  · exact hpresent u hreleases (Or.inr ⟨i, hindex, hi⟩)

/-- A wait finds its event set or promised. -/
def AssuredAt : MainOp → Shared → Prop
  | .wait w, s => Assured w s
  | _, _ => True

/-- The statement clears no event of the waits. -/
def KeepsEvents (waits : Wait → Prop) : MainOp → Prop
  | .run .newLayerEvents => ∀ w, ¬ waits w
  | .run .clearTaskB => ¬ waits .taskB
  | .run (.clearLayerEvent layerId) => ¬ waits (.layer layerId)
  | _ => True

def AllAssured (waits : Wait → Prop) (s : Shared) : Prop := ∀ w, waits w → Assured w s

theorem allAssured_stable (waits : Wait → Prop) : Stable (Rely cfg) (AllAssured waits) :=
  fun s s' hs hrely w hw => assured_stable w s s' (hs w hw) hrely

theorem stmt_eventOf {numLayers : Nat} {waits : Wait → Prop} {stmt : Stmt} {rt rt' : Runtime}
    (hkeeps : KeepsEvents waits (.run stmt)) (h : stmt.run numLayers rt = .ok rt') {w : Wait}
    (hw : waits w) : rt'.eventOf w = rt.eventOf w := by
  cases stmt with
  | newLayerEvents => exact absurd hw (hkeeps w)
  | clearTaskB =>
    cases h
    cases w with
    | taskB => exact absurd hw hkeeps
    | layer l => rfl
  | clearLayerEvent layerId =>
    cases h
    cases w with
    | taskB => rfl
    | layer l =>
      have hne : layerId ≠ l := by
        rintro rfl
        exact hkeeps hw
      exact List.getElem?_set_ne hne
  | putQ =>
    obtain ⟨qBuffer, -, h⟩ := bind_ok h
    cases h
    cases w <;> rfl
  | putQueryK =>
    obtain ⟨queryKBuffer, -, h⟩ := bind_ok h
    cases h
    cases w <;> rfl
  | putKv =>
    obtain ⟨hack, -, h⟩ := bind_ok h
    cases h
    cases w <;> rfl
  | _ =>
    cases h
    cases w <;> rfl

theorem exec_assured {waits : Wait → Prop} {req : BlendRequest} {op : MainOp} {s s' : Shared}
    (hkeeps : KeepsEvents waits op) (hs : AllAssured waits s) (hstep : Exec cfg req op s s') :
    AllAssured waits s' := by
  cases exec_effect hstep with
  | run stmt rt hrt =>
    intro w hw hclear
    rw [stmt_eventOf hkeeps hrt hw] at hclear
    exact hs w hw hclear
  | start t =>
    intro w hw hclear
    obtain ⟨u, hu, hreleases⟩ := hs w hw hclear
    exact ⟨u, List.mem_append_left _ hu, hreleases⟩
  | _ => intro w hw hclear; cases w <;> exact hs _ hw hclear

theorem outline_keep {waits : Wait → Prop} {req : BlendRequest} {ops : List MainOp}
    (hkeeps : ∀ op ∈ ops, KeepsEvents waits op) (hwaits : ∀ w, .wait w ∈ ops → waits w) :
    Outline (Exec cfg req) (Rely cfg) AssuredAt (AllAssured waits) ops (AllAssured waits) := by
  refine .keep (allAssured_stable waits) ?_ fun op hop s s' hs hstep =>
    exec_assured (hkeeps op hop) hs hstep
  intro op hop s hs
  cases op with
  | wait w => exact hs w (hwaits w hop)
  | _ => trivial

/-- Statements without a wait need no event. -/
theorem outline_noWait {req : BlendRequest} {ops : List MainOp} {P : Shared → Prop}
    (hstable : Stable (Rely cfg) P) (hwaits : ∀ w, .wait w ∉ ops) :
    Outline (Exec cfg req) (Rely cfg) AssuredAt P ops fun _ => True := by
  refine .strengthen hstable (fun _ _ => trivial) (.keep stable_true ?_ fun _ _ _ _ _ _ => trivial)
  intro op hop s _
  cases op with
  | wait w => exact absurd hop (hwaits w)
  | _ => trivial

/-! ## Outlines of the requests -/

/-- The events the forward pass of a request waits for while online. -/
def waitsOf (numLayers : Nat) (req : BlendRequest) (w : Wait) : Prop :=
  match req.blendStyle, w with
  | .kvCompute, _ => False
  | .qCompute, .layer layerId => req.isContextblend ∧ layerId < req.endLayer numLayers
  | .qCompute, .taskB => False
  | .doBlend, .layer layerId | .doBlendFinish, .layer layerId =>
    req.start < layerId ∧ layerId < numLayers
  | .doBlend, .taskB | .doBlendFinish, .taskB => 0 < req.ratio

theorem releases_queryCache {client numDigestLayers : Nat} {criticalLayers : List Nat}
    {queryDir : Dir} {layerId : Nat} (h : layerId < numDigestLayers) :
    Releases (.layer layerId) (.queryCache client numDigestLayers criticalLayers queryDir) := by
  have hmem : layerId ∈ List.range numDigestLayers := List.mem_range.mpr h
  refine ⟨List.cons_ne_nil _ _, fun op hop => ?_, Or.inr ⟨_, List.mem_cons_self, layerId, hmem, rfl⟩,
    mem_releaseOps_layer (List.mem_append_left _ hmem)⟩
  rw [List.mem_singleton.mp hop]
  exact id

theorem releases_doBlendPrefetch {client prefetchFrom numLayers layerId : Nat}
    (hfrom : prefetchFrom ≤ layerId) (hto : layerId < numLayers) :
    Releases (.layer layerId) (.doBlendPrefetch client prefetchFrom numLayers) := by
  have hmem : layerId ∈ List.range' prefetchFrom (numLayers - prefetchFrom) :=
    List.mem_range'_1.mpr ⟨hfrom, by omega⟩
  refine ⟨List.cons_ne_nil _ _, fun op hop => ?_,
    Or.inl ⟨.prefetchLayer layerId, List.mem_cons_of_mem _ (List.mem_map_of_mem hmem), rfl⟩,
    mem_releaseOps_layer hmem⟩
  rcases List.mem_cons.mp hop with rfl | hop
  · exact id
  · obtain ⟨l, -, rfl⟩ := List.mem_map.mp hop
    exact id

theorem wait_not_mem_resetLayerEvents (numLayers : Nat) (w : Wait) :
    .wait w ∉ resetLayerEvents numLayers := by
  intro h
  obtain ⟨l, -, hl⟩ := List.mem_map.mp h
  cases hl

theorem wait_not_mem_configure (online offline : Bool) (chunk query : Dir) (w : Wait) :
    .wait w ∉ configure online offline chunk query := by
  cases offline <;> simp [configure]

theorem wait_not_mem_cleanupRuntimeState (numLayers : Nat) (w : Wait) :
    .wait w ∉ cleanupRuntimeState numLayers := by
  have h := wait_not_mem_resetLayerEvents numLayers w
  simp [cleanupRuntimeState, reset, h]

theorem wait_not_mem_postForwardBlendCleanup (numLayers : Nat) (online offline : Bool)
    (req : BlendRequest) (w : Wait) :
    .wait w ∉ postForwardBlendCleanup numLayers online offline req := by
  have hreset := wait_not_mem_resetLayerEvents numLayers w
  have hcleanup := wait_not_mem_cleanupRuntimeState numLayers w
  unfold postForwardBlendCleanup
  cases req.blendStyle with
  | kvCompute => cases offline <;> simp
  | qCompute => simp
  | doBlend =>
    cases online
    · simp
    · simp only [if_true, clearDoBlendLayers, List.mem_append, List.mem_flatMap, not_or]
      refine ⟨?_, hreset⟩
      rintro ⟨l, -, hl⟩
      split at hl <;> simp at hl
  | doBlendFinish => exact hcleanup

/-- The waits of the forward pass. -/
theorem waitsOf_forwardOps {numLayers : Nat} {online offline : Bool} {req : BlendRequest}
    {w : Wait} (h : .wait w ∈ forwardOps numLayers online offline req) :
    waitsOf numLayers req w := by
  unfold forwardOps at h
  unfold waitsOf
  cases hstyle : req.blendStyle <;> rw [hstyle] at h <;> simp only at h
  case kvCompute =>
    obtain ⟨l, -, hl⟩ := List.mem_flatMap.mp h
    simp only [kvComputeLayer, List.mem_append, List.mem_singleton, reduceCtorEq, false_or] at hl
    rcases hl with hl | hl <;> split at hl <;> simp at hl
  case qCompute =>
    obtain ⟨l, hlt, hl⟩ := List.mem_flatMap.mp h
    simp only [qComputeLayer, waitFor, List.mem_append] at hl
    rcases hl with (hl | hl) | hl
    · split at hl <;> simp at hl
    · split at hl <;> simp at hl
    · split at hl
      next hcontext =>
        split at hl
        next =>
          simp only [List.mem_append, List.mem_cons, MainOp.wait.injEq, reduceCtorEq,
            List.not_mem_nil, or_false] at hl
          subst hl
          exact ⟨hcontext, List.mem_range.mp hlt⟩
        next => simp at hl
      next => simp at hl
  all_goals
    obtain ⟨l, hlt, hl⟩ := List.mem_flatMap.mp h
    unfold doBlendLayer at hl
    split at hl
    next => simp at hl
    next hge =>
      split at hl
      next =>
        split at hl
        next => simp at hl
        next hratio =>
          cases online
          · simp at hl
          · simp only [if_true, waitFor, List.mem_append, List.mem_cons, MainOp.wait.injEq,
              reduceCtorEq, List.not_mem_nil, or_false] at hl
            subst hl
            exact not_le.mp hratio
      next hne =>
        cases online
        · simp at hl
        · simp only [if_true, waitFor, List.mem_append, List.mem_cons, MainOp.wait.injEq,
            reduceCtorEq, List.not_mem_nil, or_false] at hl
          subst hl
          have := List.mem_range.mp hlt
          exact ⟨by omega, this⟩

/-- The forward pass clears no event. -/
theorem keepsEvents_forwardOps {numLayers : Nat} {online offline : Bool} {req : BlendRequest}
    (waits : Wait → Prop) :
    ∀ op ∈ forwardOps numLayers online offline req, KeepsEvents waits op := by
  intro op h
  have hforward := isForwardOp_of_mem h
  cases op with
  | run stmt => cases stmt <;> trivial
  | _ => trivial

/-- A request some loader thread will answer: a contextblend QCOMPUTE loads its context from the
query cache, and a selection finds task B's event set, or a thread that will set it without
waiting any more. -/
structure Answerable (req : BlendRequest) (s : Shared) : Prop where
  paths : req.hasSsdPaths = true
  source : req.blendStyle = .qCompute → req.isContextblend = true →
    req.contextSource = .ok .query
  selection : req.blendStyle = .doBlend ∨ req.blendStyle = .doBlendFinish → 0 < req.ratio →
    s.rt.online = true ∧ (s.rt.taskB = true ∨ ∃ t ∈ s.loaders, Releases .taskB t)

theorem outline_raised {req : BlendRequest} {P Q : Shared → Prop}
    (hstable : Stable (Rely cfg) P) :
    Outline (Exec cfg req) (Rely cfg) AssuredAt P [.raiseError] Q :=
  outline_raise hstable (fun _ => trivial) (outline_false [])

theorem outline_prepareQCompute {req : BlendRequest} {source : ContextSource}
    (hstyle : req.blendStyle = .qCompute) (hsource : req.isContextblend = true → source = .query) :
    Outline (Exec cfg req) (Rely cfg) AssuredAt (fun _ => True)
      (prepareQCompute cfg.numLayers req source) (AllAssured (waitsOf cfg.numLayers req)) := by
  have hpools : ∀ w, .wait w ∉ [MainOp.run .initHackBuffers, .run .initContextBuffers] ++
      configure true false req.ssdCachePathChunk req.ssdCachePathQuery := by
    intro w
    have h := wait_not_mem_configure true false req.ssdCachePathChunk req.ssdCachePathQuery w
    simp [h]
  unfold prepareQCompute
  refine (outline_noWait stable_true hpools).append ?_
  split
  next =>
    split
    next => exact outline_raised stable_true
    next =>
      refine .next stable_true (fun _ _ => trivial) (fun _ _ _ _ => trivial)
        (.next (R := AllAssured (waitsOf cfg.numLayers req)) stable_true (fun _ _ => trivial) ?_
          (.done (allAssured_stable _) fun _ hs => hs))
      intro s s' _ hstep w hw _
      cases exec_effect hstep
      simp only [waitsOf, hstyle] at hw
      cases w with
      | taskB => exact hw.elim
      | layer l =>
        exact ⟨_, List.mem_append_right _ (List.mem_singleton_self _), releases_queryCache hw.2⟩
  next hnot =>
    have hplain : ∀ w, ¬ waitsOf cfg.numLayers req w := by
      intro w hw
      simp only [waitsOf, hstyle] at hw
      cases w with
      | taskB => exact hw.elim
      | layer l => exact hnot ⟨hw.1, hsource hw.1⟩
    exact (outline_noWait stable_true (by simp)).weaken fun s _ w hw => absurd hw (hplain w)

theorem outline_prepareDoBlend {req : BlendRequest} {online : Bool}
    (hstyle : req.blendStyle = .doBlend ∨ req.blendStyle = .doBlendFinish)
    (honline : 0 < req.ratio → online = true) :
    Outline (Exec cfg req) (Rely cfg) AssuredAt (AllAssured fun w => w = .taskB ∧ 0 < req.ratio)
      (prepareDoBlend cfg.numLayers online req) (AllAssured (waitsOf cfg.numLayers req)) := by
  have hreset : ∀ op ∈ resetLayerEvents cfg.numLayers,
      KeepsEvents (fun w => w = .taskB ∧ 0 < req.ratio) op := by
    intro op hop
    obtain ⟨l, -, rfl⟩ := List.mem_map.mp hop
    rintro ⟨hlayer, -⟩
    cases hlayer
  have hinit : ∀ op ∈ (if online = true then [] else MainOp.run .initHackBuffers ::
      configure true false req.ssdCachePathChunk req.ssdCachePathQuery),
      KeepsEvents (fun w => w = .taskB ∧ 0 < req.ratio) op := by
    intro op hop
    split at hop
    next => cases hop
    next hoffline =>
      have hnone : ∀ w : Wait, ¬ (w = .taskB ∧ 0 < req.ratio) :=
        fun w hw => hoffline (honline hw.2)
      simp only [configure, Bool.false_eq_true, if_false, List.append_nil, List.mem_cons,
        List.not_mem_nil, or_false] at hop
      rcases hop with rfl | rfl | rfl | rfl | rfl | rfl
      case inr.inr.inr.inl => exact hnone
      case inr.inr.inr.inr.inl => exact hnone _
      all_goals trivial
  unfold prepareDoBlend
  refine Outline.append (outline_keep ?_ ?_) ?_ (R := AllAssured fun w => w = .taskB ∧ 0 < req.ratio)
  · intro op hop
    rcases List.mem_append.mp hop with hop | hop
    · exact hinit op hop
    · exact hreset op hop
  · intro w hop
    rcases List.mem_append.mp hop with hop | hop
    · split at hop
      next => cases hop
      next =>
        have h := wait_not_mem_configure true false req.ssdCachePathChunk req.ssdCachePathQuery w
        rcases List.mem_cons.mp hop with hop | hop
        · cases hop
        · exact absurd hop h
    · exact absurd hop (wait_not_mem_resetLayerEvents _ w)
  · refine .next (allAssured_stable _) (fun _ _ => trivial) ?_
      (.done (allAssured_stable _) fun _ hs => hs)
    intro s s' hs hstep w hw hclear
    cases exec_effect hstep
    cases w with
    | taskB =>
      have hratio : 0 < req.ratio := by
        rcases hstyle with h | h <;> simp only [waitsOf, h] at hw <;> exact hw
      obtain ⟨t, ht, hreleases⟩ := hs .taskB ⟨rfl, hratio⟩ hclear
      exact ⟨t, List.mem_append_left _ ht, hreleases⟩
    | layer l =>
      have hlayer : req.start < l ∧ l < cfg.numLayers := by
        rcases hstyle with h | h <;> simp only [waitsOf, h] at hw <;> exact hw
      exact ⟨_, List.mem_append_right _ (List.mem_singleton_self _),
        releases_doBlendPrefetch hlayer.1 hlayer.2⟩

/-- An answerable request finds every event it waits for set or promised. -/
theorem covered_prefill {req : BlendRequest} {s : Shared} (h : Answerable req s) :
    Covered (Exec cfg req) (Rely cfg) AssuredAt (prefillOps cfg.numLayers s.rt req)
      (fun _ => True) s := by
  have hprepare : ∃ P, Outline (Exec cfg req) (Rely cfg) AssuredAt P
      (prepareForExtend cfg.numLayers s.rt.online req)
      (AllAssured (waitsOf cfg.numLayers req)) ∧ P s := by
    unfold prepareForExtend
    split
    next => exact ⟨fun _ => True, outline_raised stable_true, trivial⟩
    next =>
      split
      next => exact ⟨fun _ => True, outline_raised stable_true, trivial⟩
      next source hsource =>
        rw [if_pos h.paths]
        cases hstyle : req.blendStyle with
        | kvCompute =>
          refine ⟨fun _ => True, (outline_noWait stable_true
            (wait_not_mem_configure false true _ _)).weaken fun _ _ w hw => ?_, trivial⟩
          simp only [waitsOf, hstyle] at hw
        | qCompute =>
          refine ⟨fun _ => True, outline_prepareQCompute hstyle fun hcontext => ?_, trivial⟩
          have hquery := h.source hstyle hcontext
          rw [hsource] at hquery
          exact Except.ok.inj hquery
        | doBlend =>
          refine ⟨_, outline_prepareDoBlend (Or.inl hstyle)
            fun hratio => (h.selection (Or.inl hstyle) hratio).1, ?_⟩
          rintro w ⟨rfl, hratio⟩ hclear
          rcases (h.selection (Or.inl hstyle) hratio).2 with hset | hpromised
          · simp only [Runtime.eventOf, hset, Option.some.injEq, Bool.true_eq_false] at hclear
          · exact hpromised
        | doBlendFinish =>
          refine ⟨_, outline_prepareDoBlend (Or.inr hstyle)
            fun hratio => (h.selection (Or.inr hstyle) hratio).1, ?_⟩
          rintro w ⟨rfl, hratio⟩ hclear
          rcases (h.selection (Or.inr hstyle) hratio).2 with hset | hpromised
          · simp only [Runtime.eventOf, hset, Option.some.injEq, Bool.true_eq_false] at hclear
          · exact hpromised
  obtain ⟨P, hP, hs⟩ := hprepare
  refine ⟨P, ?_, hs⟩
  exact (hP.append (outline_keep (keepsEvents_forwardOps _) fun w => waitsOf_forwardOps)).append
    (outline_noWait (allAssured_stable _) (wait_not_mem_postForwardBlendCleanup _ _ _ _))

/-! ## Runs -/

/-- The forward thread sits in `wait_layer_ready` or `wait_task_b`. -/
def BlockedOn (p : Process) (w : Wait) : Prop :=
  ∃ req ops, p.main = .running req (.wait w :: ops) ∧ p.shared.rt.eventOf w = some false

/-- Some thread that has been started and has not ended sets the event on every exit, and can
go on. -/
def WillBeReleased (cfg : Config) (p : Process) (w : Wait) : Prop :=
  ∃ t ∈ p.shared.loaders, Releases w t ∧ (t.step cfg.disk false p.shared.rt).isSome

/-- Only answerable requests are prepared. -/
def answerableBegins (p : Process) : Label → Prop
  | .begin req => Answerable req p.shared
  | _ => True

/-- In every run of answerable requests, a blocked forward pass is released. -/
theorem blocked_willBeReleased (cfg : Config) (p : Process)
    (h : (blendMachine cfg).Reach answerableBegins (· = .initial) p) (w : Wait)
    (hblocked : BlockedOn p w) : WillBeReleased cfg p w := by
  obtain ⟨req, ops, hmain, hclear⟩ := hblocked
  have hinv : RunInvariant cfg (fun _ => AssuredAt) (fun _ => True) p := by
    refine runInvariant stable_true ?_ (fun s req _ hguard => covered_prefill hguard) ?_ h
    · rintro p rfl
      trivial
    · intro s req _ _
      refine ⟨fun _ => True, outline_noWait stable_true fun w hw => ?_, trivial⟩
      unfold cacheFinishedReq at hw
      split at hw
      next => exact wait_not_mem_cleanupRuntimeState _ w hw
      next => cases hw
  obtain ⟨shared, main⟩ := p
  simp only at hmain
  subst hmain
  obtain ⟨t, ht, hreleases⟩ := RunInvariant.demanded hinv hclear
  exact ⟨t, ht, hreleases, hreleases.can_step cfg.disk shared.rt⟩

/-- A DO_BLEND_FINISH over two layers, up to its wait for layer 1. -/
def prefetchRun : List Label :=
  .begin (oneLayerRequest 0 .doBlendFinish false 0 "a") :: List.replicate 9 .main

theorem prefetchRun_ends : ((blendMachine { oneLayer with numLayers := 2 }).run prefetchRun
    .initial).isSome = true := rfl

/-- The layer prefetch releases the wait for layer 1. -/
theorem blocked_willBeReleased_prefetch :
    ∃ p, (blendMachine { oneLayer with numLayers := 2 }).Reach answerableBegins (· = .initial) p ∧
      BlockedOn p (.layer 1) ∧ WillBeReleased { oneLayer with numLayers := 2 } p (.layer 1) := by
  have hguard : ∀ label ∈ prefetchRun, ∀ p, answerableBegins p label := by
    intro label hlabel p
    simp only [prefetchRun, List.mem_cons, List.mem_replicate] at hlabel
    rcases hlabel with rfl | ⟨-, rfl⟩
    · exact ⟨rfl, nofun, fun _ h => absurd h (lt_irrefl 0)⟩
    · trivial
  have hreach := Machine.reach_run hguard prefetchRun_ends
  have hblocked : BlockedOn (((blendMachine { oneLayer with numLayers := 2 }).run prefetchRun
      .initial).get prefetchRun_ends) (.layer 1) := ⟨_, _, rfl, rfl⟩
  exact ⟨_, hreach, hblocked, blocked_willBeReleased _ _ hreach _ hblocked⟩

/-- Requests with sample directories. -/
def ssdBegins (_ : Process) : Label → Prop
  | .begin req => req.hasSsdPaths = true
  | _ => True

/-- A contextblend QCOMPUTE with `context_cache_source="none"`, run until every thread has
ended or waits. -/
def contextSourceNoneRun : List Label :=
  .begin (oneLayerRequest 0 .qCompute true 1 "a") ::
    (List.replicate 10 .main ++ List.replicate 4 (.loader 0 false))

theorem contextSourceNoneRun_ends :
    ((blendMachine oneLayer).run contextSourceNoneRun .initial).isSome = true := rfl

theorem contextSourceNoneRun_quiet :
    Quiet (((blendMachine oneLayer).run contextSourceNoneRun .initial).get
      contextSourceNoneRun_ends).shared := by
  have hall : ((((blendMachine oneLayer).run contextSourceNoneRun .initial).get
      contextSourceNoneRun_ends).shared.loaders.all fun t => decide t.Ended) = true := rfl
  exact fun t ht => of_decide_eq_true (List.all_eq_true.mp hall t ht)

/-- It starts task B alone, which sets no layer event: the forward pass waits for layer 0 when
every loader has ended. -/
theorem contextSourceNone_deadlocks :
    ∃ p, (blendMachine oneLayer).Reach ssdBegins (· = .initial) p ∧ BlockedOn p (.layer 0) ∧
      Quiet p.shared ∧ ¬ WillBeReleased oneLayer p (.layer 0) := by
  have hguard : ∀ label ∈ contextSourceNoneRun, ∀ s, ssdBegins s label := by
    intro label hlabel s
    simp only [contextSourceNoneRun, List.mem_cons, List.mem_append, List.mem_replicate] at hlabel
    rcases hlabel with rfl | ⟨-, rfl⟩ | ⟨-, rfl⟩
    · rfl
    · trivial
    · trivial
  refine ⟨_, Machine.reach_run hguard contextSourceNoneRun_ends, ⟨_, _, rfl, rfl⟩,
    contextSourceNoneRun_quiet, ?_⟩
  rintro ⟨t, ht, -, hstep⟩
  rw [ended_step_none (contextSourceNoneRun_quiet t ht)] at hstep
  cases hstep

end QCFuse.Guarantees
