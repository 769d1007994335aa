import QCFuse.Guarantees.QueryLoad

/-!
# What the loaders still have to do

Each event is set by one thread, once, so a set event says that its thread is done: with the
layer, or, for task B's event, with every layer it was to load.
-/

set_option autoImplicit false

namespace QCFuse.Guarantees

open QCFuse.Library QCFuse.Source

/-! ## Who still sets an event -/

/-- Whether a statement of a `try` sets the event. -/
def loadSetCount (w : Wait) : LoadOp → Nat
  | .setLayerReady layerId | .prefetchLayer layerId => if w = .layer layerId then 1 else 0
  | _ => 0

/-- The same after the `try`, for events that no error stands behind. -/
def leaveSetCount (w : Wait) : LeaveOp → Nat
  | .setTaskB | .startCritical _ _ _ => if w = .taskB then 1 else 0
  | .startDigest _ layerIds => layerIds.countP fun layerId => w = .layer layerId
  | _ => 0

def restSetCount (w : Wait) (rest : List LeaveOp) : Nat := (rest.map (leaveSetCount w)).sum

/-- How often the thread will set the event, without or with an exception. -/
def pendingSets (w : Wait) (t : Loader) : Nat :=
  match t.phase with
  | .trying body => (body.map (loadSetCount w)).sum +
      max (restSetCount w t.onReturn) (restSetCount w t.onError)
  | .leaving rest => restSetCount w rest

/-- How often all threads will. -/
def totalSets (w : Wait) (loaders : List Loader) : Nat := (loaders.map (pendingSets w)).sum

theorem pendingSets_ended {w : Wait} {t : Loader} (h : t.Ended) : pendingSets w t = 0 := by
  unfold Loader.Ended at h
  unfold pendingSets
  split at h
  next hphase =>
    rw [hphase]
    rfl
  next => cases h

theorem totalSets_quiet {w : Wait} {loaders : List Loader} (h : ∀ t ∈ loaders, t.Ended) :
    totalSets w loaders = 0 := by
  apply List.sum_eq_zero
  intro k hk
  obtain ⟨t, ht, rfl⟩ := List.mem_map.mp hk
  exact pendingSets_ended (h t ht)

theorem pendingSets_continueWith (w : Wait) (t : Loader) (body : List LoadOp) :
    pendingSets w (t.continueWith body) ≤ (body.map (loadSetCount w)).sum +
      max (restSetCount w t.onReturn) (restSetCount w t.onError) := by
  unfold pendingSets Loader.continueWith
  cases body with
  | nil => exact (le_max_left _ _).trans (Nat.le_add_left _ _)
  | cons op body => exact le_refl _

theorem pendingSets_wake (w : Wait) (t : Loader) (generation layerId : Nat) :
    pendingSets w (t.wake generation layerId) ≤ pendingSets w t := by
  unfold Loader.wake
  split
  next g l body hphase =>
    split
    next =>
      apply (pendingSets_continueWith w t body).trans
      rw [pendingSets, hphase]
      simp [loadSetCount]
    next => exact le_refl _
  next => exact le_refl _

theorem sum_releaseOps (w : Wait) (layerIds : List Nat) (releaseTaskB : Bool) :
    restSetCount w (Loader.releaseOps layerIds releaseTaskB) =
      if w = .taskB ∧ releaseTaskB = true then 1 else 0 := by
  unfold restSetCount Loader.releaseOps
  have hlayers : (layerIds.map fun l => leaveSetCount w (.setLayerReady l)).sum = 0 := by
    apply List.sum_eq_zero
    intro k hk
    obtain ⟨l, -, rfl⟩ := List.mem_map.mp hk
    rfl
  rw [List.cons_append, List.map_cons, List.map_append, List.map_map, List.sum_cons, List.sum_append]
  rw [show (leaveSetCount w ∘ LeaveOp.setLayerReady) = fun l => leaveSetCount w (.setLayerReady l) from rfl,
    hlayers]
  cases releaseTaskB with
  | false => simp [leaveSetCount]
  | true => simp [leaveSetCount]

theorem pendingSets_digest (w : Wait) (client : Nat) (metaDir : Dir) (layerIds : List Nat) :
    pendingSets w (Loader.digest client metaDir layerIds) ≤
      layerIds.countP fun layerId => w = .layer layerId := by
  have hbody : ((layerIds.flatMap fun l => [LoadOp.readDigest l, .setLayerReady l]).map
      (loadSetCount w)).sum = layerIds.countP fun l => w = .layer l := by
    induction layerIds with
    | nil => rfl
    | cons l ids ih =>
      rw [List.flatMap_cons, List.map_append, List.sum_append, ih, List.countP_cons]
      simp only [List.map_cons, List.map_nil, List.sum_cons, List.sum_nil, loadSetCount, Nat.zero_add,
        Nat.add_zero, decide_eq_true_eq]
      exact Nat.add_comm _ _
  unfold Loader.digest
  apply (pendingSets_continueWith w _ _).trans
  rw [sum_releaseOps]
  simp only [restSetCount, List.map_nil, List.sum_nil, Bool.false_eq_true, and_false, if_false,
    Nat.max_self, Nat.add_zero]
  split
  next => exact Nat.zero_le _
  next =>
    rw [List.map_cons, List.sum_cons, hbody]
    simp [loadSetCount]

theorem pendingSets_critical (w : Wait) (client : Nat) (metaDir : Dir) (digestIds criticalIds : List Nat) :
    pendingSets w (Loader.critical client metaDir digestIds criticalIds) ≤
      if w = .taskB then 1 else 0 := by
  unfold Loader.critical
  apply (pendingSets_continueWith w _ _).trans
  rw [sum_releaseOps]
  cases digestIds with
  | nil => simp [loadSetCount, restSetCount, leaveSetCount]
  | cons first rest => simp [loadSetCount, restSetCount, leaveSetCount]

theorem pendingSets_taskB (w : Wait) (client : Nat) (layerIds : List Nat) :
    pendingSets w (Loader.taskB client layerIds) ≤ if w = .taskB then 1 else 0 := by
  have hbody : ((layerIds.map LoadOp.readChunk).map (loadSetCount w)).sum = 0 := by
    apply List.sum_eq_zero
    intro k hk
    obtain ⟨op, hop, rfl⟩ := List.mem_map.mp hk
    obtain ⟨l, -, rfl⟩ := List.mem_map.mp hop
    rfl
  unfold pendingSets Loader.taskB
  rw [sum_releaseOps]
  simp only [List.map_cons, List.sum_cons, hbody]
  simp [loadSetCount, restSetCount, leaveSetCount]

theorem pendingSets_queryCache (w : Wait) (client numDigestLayers : Nat) (criticalLayers : List Nat)
    (queryDir : Dir) :
    pendingSets w (Loader.queryCache client numDigestLayers criticalLayers queryDir) ≤
      (if w = .taskB then 1 else 0) + (List.range numDigestLayers).countP fun l => w = .layer l := by
  unfold pendingSets Loader.queryCache
  rw [sum_releaseOps]
  cases w <;> simp [loadSetCount, restSetCount, leaveSetCount]

theorem pendingSets_doBlendPrefetch (w : Wait) (client prefetchFrom numLayers : Nat) :
    pendingSets w (Loader.doBlendPrefetch client prefetchFrom numLayers) ≤
      (List.range' prefetchFrom (numLayers - prefetchFrom)).countP fun l => w = .layer l := by
  have hbody : ∀ ids : List Nat, ((ids.map LoadOp.prefetchLayer).map (loadSetCount w)).sum =
      ids.countP fun l => w = .layer l := by
    intro ids
    induction ids with
    | nil => rfl
    | cons l ids ih =>
      rw [List.map_cons, List.map_cons, List.sum_cons, ih, List.countP_cons]
      simp only [loadSetCount, decide_eq_true_eq]
      exact Nat.add_comm _ _
  unfold pendingSets Loader.doBlendPrefetch
  rw [sum_releaseOps]
  simp only [List.map_cons, List.sum_cons, hbody]
  simp [loadSetCount, restSetCount]

theorem eventOf_setLayer {rt : Runtime} {w : Wait} {layerId : Nat}
    (h : ({ rt with layerReady := rt.layerReady.set layerId true } : Runtime).eventOf w = some true) :
    rt.eventOf w = some true ∨ w = .layer layerId := by
  cases w with
  | taskB => exact Or.inl h
  | layer l =>
    by_cases heq : layerId = l
    · exact Or.inr (heq ▸ rfl)
    · simp only [Runtime.eventOf] at h ⊢
      rw [List.getElem?_set_ne heq] at h
      exact Or.inl h

/-- A step spends a set of the event when it sets it without an error. -/
theorem pendingSets_step {n : Needs} {there : Cell → Prop} {disk : Disk} {fails : Bool} {rt : Runtime}
    {t : Loader} {r : Loader.StepResult} (hmeets : ThreadMeets n there (rt.loaderError = true) t)
    (hstep : t.step disk fails rt = some r) (w : Wait) :
    pendingSets w r.loader + totalSets w r.started ≤ pendingSets w t ∧
      (r.rt.eventOf w = some true → rt.eventOf w = some true ∨ r.rt.loaderError = true ∨
        pendingSets w r.loader + totalSets w r.started + 1 ≤ pendingSets w t) := by
  -- a step that starts no thread and sets no event
  have hkeep : ∀ {u : Loader} {rt' : Runtime}, rt'.eventOf w = rt.eventOf w →
      pendingSets w u ≤ pendingSets w t → pendingSets w u + totalSets w [] ≤ pendingSets w t ∧
        (rt'.eventOf w = some true → rt.eventOf w = some true ∨ rt'.loaderError = true ∨
          pendingSets w u + totalSets w [] + 1 ≤ pendingSets w t) :=
    fun hevent hle => ⟨hle, fun h => Or.inl (hevent ▸ h)⟩
  rcases loader_step_cases hstep with ⟨op, body, hphase, hstep⟩ | ⟨op, rest, hphase, rfl⟩
  · have hsum : pendingSets w t = loadSetCount w op + (body.map (loadSetCount w)).sum +
        max (restSetCount w t.onReturn) (restSetCount w t.onError) := by
      rw [pendingSets, hphase]
      simp only [List.map_cons, List.sum_cons]
    have hcontinue : ∀ body' : List LoadOp, (body'.map (loadSetCount w)).sum ≤
        loadSetCount w op + (body.map (loadSetCount w)).sum →
        pendingSets w (t.continueWith body') ≤ pendingSets w t := by
      intro body' hle
      apply (pendingSets_continueWith w t body').trans
      omega
    have hraise : pendingSets w t.raise ≤ pendingSets w t := by
      have hle : pendingSets w t.raise = restSetCount w t.onError := rfl
      omega
    have hraised : pendingSets w (t.raised rt).loader + totalSets w (t.raised rt).started ≤ pendingSets w t ∧
        ((t.raised rt).rt.eventOf w = some true → rt.eventOf w = some true ∨
          (t.raised rt).rt.loaderError = true ∨
            pendingSets w (t.raised rt).loader + totalSets w (t.raised rt).started + 1 ≤
              pendingSets w t) := hkeep rfl hraise
    -- the event of the layer is set
    have hset : ∀ {l : Nat}, loadSetCount w op = (if w = .layer l then 1 else 0) →
        pendingSets w (t.continueWith body) + totalSets w [] ≤ pendingSets w t ∧
        (({ rt with layerReady := rt.layerReady.set l true } : Runtime).eventOf w = some true →
          rt.eventOf w = some true ∨ rt.loaderError = true ∨
            pendingSets w (t.continueWith body) + totalSets w [] + 1 ≤ pendingSets w t) := by
      intro l hcount
      have hle := pendingSets_continueWith w t body
      have hzero : totalSets w [] = 0 := rfl
      refine ⟨by omega, fun h => ?_⟩
      rcases eventOf_setLayer h with hbefore | hw
      · exact Or.inl hbefore
      · rw [if_pos hw] at hcount
        exact Or.inr (Or.inr (by omega))
    rcases hstep with rfl | hstep
    · exact hraised
    · cases op <;> simp only [Loader.tryStep] at hstep
      case blockedOn => cases hstep
      case waitLayer l =>
        split at hstep
        next =>
          cases hstep
          exact hraised
        next =>
          split at hstep <;> cases hstep
          next => exact hkeep rfl (hcontinue _ (by omega))
          next => exact hkeep rfl (hcontinue _ (by simp [loadSetCount]))
      case raiseLoaderError =>
        split at hstep <;> cases hstep
        next => exact hraised
        next => exact hkeep rfl (hcontinue _ (by omega))
      case checkQueryMeta =>
        cases hstep
        exact hkeep rfl (hcontinue _ (by omega))
      case openQuery =>
        cases hstep
        apply hkeep rfl
        apply (pendingSets_continueWith w _ body).trans
        rw [hsum]
        simp [loadSetCount]
      case loadPackedMeta =>
        cases hstep
        apply hkeep rfl
        apply (pendingSets_continueWith w _ body).trans
        rw [hsum]
        simp [loadSetCount]
      case readDigest l =>
        cases hstep
        exact hkeep rfl (hcontinue _ (by simp [loadSetCount]))
      case readChunk l =>
        cases hstep
        exact hkeep rfl (hcontinue _ (by simp [loadSetCount]))
      case readCritical ids =>
        cases hstep
        apply hkeep rfl
        apply hcontinue
        have hputs : ((ids.map fun l => LoadOp.putHack l (disk.critical t.metaDir rt.sampleDirQuery l)).map
            (loadSetCount w)).sum = 0 := by
          apply List.sum_eq_zero
          intro k hk
          obtain ⟨op, hop, rfl⟩ := List.mem_map.mp hk
          obtain ⟨l, -, rfl⟩ := List.mem_map.mp hop
          rfl
        rw [List.map_append, List.sum_append, hputs]
        omega
      case putDigest l kv =>
        split at hstep <;> cases hstep
        next => exact hkeep (by cases w <;> rfl) (hcontinue _ (by omega))
        next => exact hraised
      case putHack l kv =>
        split at hstep <;> cases hstep
        next => exact hkeep (by cases w <;> rfl) (hcontinue _ (by omega))
        next => exact hraised
      case setLayerReady l =>
        split at hstep <;> cases hstep
        next => exact hraised
        next => exact hset rfl
      case prefetchLayer l =>
        split at hstep
        next =>
          split at hstep <;> cases hstep
          next => exact hraised
          next => exact hset rfl
        next =>
          cases hstep
          exact hkeep rfl (hcontinue _ (by simp [loadSetCount]))
  · have hsum : pendingSets w t = leaveSetCount w op + restSetCount w rest := by
      rw [pendingSets, hphase]
      simp only [restSetCount, List.map_cons, List.sum_cons]
    have hrest : ∀ u : Loader, u.phase = .leaving rest → pendingSets w u = restSetCount w rest := by
      intro u hu
      rw [pendingSets, hu]
    have hloader : (t.leaveStep rt rest op).loader.phase = .leaving rest := by
      cases op <;> simp only [Loader.leaveStep]
      split <;> rfl
    have hmoved := hrest _ hloader
    cases op with
    | recordLoaderError => exact hkeep (by cases w <;> rfl) (by rw [hmoved]; omega)
    | setLayerReady l =>
      -- only a handler that has recorded the error gets here
      have hrecorded : rt.loaderError = true := by
        unfold ThreadMeets at hmeets
        rw [hphase] at hmeets
        rcases hmeets with ⟨hrec, -⟩ | ⟨tail, htail, -⟩ | hall
        · exact hrec
        · cases htail
        · exact (hall _ List.mem_cons_self).elim
      have hleft := hrest { t with phase := .leaving rest } rfl
      simp only [Loader.leaveStep]
      split
      next => exact hkeep rfl (by rw [hleft]; omega)
      next =>
        have hzero : totalSets w [] = 0 := rfl
        refine ⟨?_, fun _ => Or.inr (Or.inl hrecorded)⟩
        show pendingSets w { t with phase := .leaving rest } + totalSets w [] ≤ _
        omega
    | setTaskB =>
      have hzero : totalSets w [] = 0 := rfl
      simp only [Loader.leaveStep] at hmoved ⊢
      refine ⟨by omega, fun h => ?_⟩
      cases w with
      | taskB =>
        have hone : leaveSetCount .taskB .setTaskB = 1 := rfl
        exact Or.inr (Or.inr (by omega))
      | layer l => exact Or.inl h
    | startDigest dir ids =>
      have hstarted := pendingSets_digest w t.client dir ids
      have htotal : totalSets w [Loader.digest t.client dir ids] =
          pendingSets w (Loader.digest t.client dir ids) := Nat.add_zero _
      have hcount : leaveSetCount w (.startDigest dir ids) = ids.countP fun l => w = .layer l := rfl
      simp only [Loader.leaveStep] at hmoved ⊢
      exact ⟨by omega, fun h => Or.inl h⟩
    | startCritical dir digestIds criticalIds =>
      have hstarted := pendingSets_critical w t.client dir digestIds criticalIds
      have htotal : totalSets w [Loader.critical t.client dir digestIds criticalIds] =
          pendingSets w (Loader.critical t.client dir digestIds criticalIds) := Nat.add_zero _
      have hcount : leaveSetCount w (.startCritical dir digestIds criticalIds) =
          if w = .taskB then 1 else 0 := rfl
      simp only [Loader.leaveStep] at hmoved ⊢
      exact ⟨by omega, fun h => Or.inl h⟩

theorem totalSets_append (w : Wait) (xs ys : List Loader) :
    totalSets w (xs ++ ys) = totalSets w xs + totalSets w ys := by
  rw [totalSets, List.map_append, List.sum_append]
  rfl

theorem totalSets_set (w : Wait) {loaders : List Loader} {index : Nat} {t : Loader}
    (h : loaders[index]? = some t) (u : Loader) :
    totalSets w (loaders.set index u) + pendingSets w t = totalSets w loaders + pendingSets w u := by
  induction loaders generalizing index with
  | nil => cases h
  | cons v loaders ih =>
    cases index with
    | zero =>
      cases h
      simp only [totalSets, List.set_cons_zero, List.map_cons, List.sum_cons]
      omega
    | succ index =>
      have hrest := ih (List.getElem?_cons_succ.symm.trans h)
      simp only [totalSets, List.set_cons_succ, List.map_cons, List.sum_cons] at hrest ⊢
      omega

theorem totalSets_wake (w : Wait) (generation layerId : Nat) (loaders : List Loader) :
    totalSets w (loaders.map (.wake generation layerId)) ≤ totalSets w loaders := by
  induction loaders with
  | nil => exact le_refl _
  | cons t loaders ih =>
    have hwake := pendingSets_wake w t generation layerId
    simp only [totalSets, List.map_cons, List.sum_cons] at ih ⊢
    omega

theorem pendingSets_le_total {w : Wait} {loaders : List Loader} {t : Loader} (h : t ∈ loaders) :
    pendingSets w t ≤ totalSets w loaders :=
  List.le_sum_of_mem (List.mem_map_of_mem h)

variable {cfg : Config} {n : Needs}

theorem totalSets_loaderStep {s s' : Shared} (hs : Protocol n s) {index : Nat} {fails : Bool}
    (h : s.loaderStep cfg.disk index fails = some s') (w : Wait) :
    totalSets w s'.loaders ≤ totalSets w s.loaders ∧
      (s'.rt.eventOf w = some true → s.rt.eventOf w = some true ∨ s'.rt.loaderError = true ∨
        totalSets w s'.loaders + 1 ≤ totalSets w s.loaders) := by
  unfold Shared.loaderStep at h
  obtain ⟨t, ht, h⟩ := Option.bind_eq_some_iff.mp h
  obtain ⟨r, hr, hs'⟩ := Option.map_eq_some_iff.mp h
  obtain ⟨hle, hset⟩ := pendingSets_step (hs.threads t (List.mem_of_getElem? ht)) hr w
  have hmoved : totalSets w s'.loaders + pendingSets w t ≤
      totalSets w s.loaders + pendingSets w r.loader + totalSets w r.started := by
    have hset := totalSets_set w ht r.loader
    rw [← hs', totalSets_append]
    split
    next layerId _ =>
      have hwake := totalSets_wake w r.rt.generation layerId (s.loaders.set index r.loader)
      omega
    next => omega
  have hrt : s'.rt = r.rt := by rw [← hs']
  rw [hrt]
  refine ⟨by omega, fun hevent => ?_⟩
  rcases hset hevent with hbefore | herror | hspent
  · exact Or.inl hbefore
  · exact Or.inr (Or.inl herror)
  · exact Or.inr (Or.inr (by omega))

/-- At most one more set of the event is to come, and none once it is set without an error. -/
def SetOnce (w : Wait) (s : Shared) : Prop :=
  totalSets w s.loaders ≤ 1 ∧
    (s.rt.eventOf w = some true → s.rt.loaderError = true ∨ totalSets w s.loaders = 0)

theorem setOnce_loaderStep {s s' : Shared} (hs : Protocol n s) {w : Wait} (honce : SetOnce w s)
    (hrely : Rely cfg s s') : SetOnce w s' := by
  obtain ⟨index, fails, hstep⟩ := hrely
  obtain ⟨hle, hset⟩ := totalSets_loaderStep hs hstep w
  obtain ⟨t, r, ht, hr, hrt, hthreads⟩ := loaderStep_cases hstep
  have hlimit := honce.1
  refine ⟨by omega, fun hevent => ?_⟩
  rcases hset hevent with hbefore | herror | hspent
  · rcases honce.2 hbefore with herror | hnone
    · rw [hrt]
      exact Or.inl ((loader_step_effect hr).error_kept herror)
    · exact Or.inr (by omega)
  · exact Or.inl herror
  · exact Or.inr (by omega)

/-! ## Who still writes a layer -/

/-- The layers of `HackBlendKVPool` that a statement, or those it turns into, writes. -/
def loadWrites : LoadOp → Nat → Prop
  | .readChunk layerId, l | .putHack layerId _, l | .prefetchLayer layerId, l => l = layerId
  | .readCritical layerIds, l => l ∈ layerIds
  | _, _ => False

def leaveWrites : LeaveOp → Nat → Prop
  | .startCritical _ _ layerIds, l => l ∈ layerIds
  | _, _ => False

def Writes (t : Loader) (l : Nat) : Prop :=
  match t.phase with
  | .trying body => (∃ op ∈ body, loadWrites op l) ∨ ∃ op ∈ t.onReturn ++ t.onError, leaveWrites op l
  | .leaving rest => ∃ op ∈ rest, leaveWrites op l

/-- A layer that is still written is one of `selection`, by a thread that sets task B's event
behind it, or has its own event set behind it. -/
def BodyTidy (selection : List Nat) (onReturn : List LeaveOp) : List LoadOp → Prop
  | [] => True
  | op :: body => (∀ l, loadWrites op l → (l ∈ selection ∧ .setTaskB ∈ onReturn) ∨
      op = .prefetchLayer l ∨ .setLayerReady l ∈ body) ∧ BodyTidy selection onReturn body

/-- What the threads still to be started will write. -/
def LeaveTidy (selection : List Nat) (op : LeaveOp) : Prop := ∀ l, leaveWrites op l → l ∈ selection

def Tidy (selection : List Nat) (t : Loader) : Prop :=
  match t.phase with
  | .trying body => BodyTidy selection t.onReturn body ∧ ∀ op ∈ t.onReturn ++ t.onError,
      LeaveTidy selection op
  | .leaving rest => ∀ op ∈ rest, LeaveTidy selection op

variable {selection : List Nat}

theorem one_le_restSetCount {w : Wait} {rest : List LeaveOp} {op : LeaveOp} (hop : op ∈ rest)
    (hset : 0 < leaveSetCount w op) : 0 < restSetCount w rest :=
  lt_of_lt_of_le hset (List.le_sum_of_mem (List.mem_map_of_mem hop))

theorem leaveWrites_taskB {op : LeaveOp} {l : Nat} (h : leaveWrites op l) :
    0 < leaveSetCount .taskB op := by
  cases op with
  | startCritical => exact Nat.one_pos
  | _ => exact h.elim

/-- A thread that still writes a layer still sets the event behind it. -/
theorem Tidy.writes {t : Loader} (h : Tidy selection t) {l : Nat} (hwrites : Writes t l) :
    (l ∈ selection ∧ 0 < pendingSets .taskB t) ∨ 0 < pendingSets (.layer l) t := by
  unfold Tidy at h
  unfold Writes at hwrites
  unfold pendingSets
  cases hphase : t.phase with
  | leaving rest =>
    rw [hphase] at h hwrites
    obtain ⟨op, hop, hl⟩ := hwrites
    exact Or.inl ⟨h op hop l hl, one_le_restSetCount hop (leaveWrites_taskB hl)⟩
  | trying body =>
    rw [hphase] at h hwrites
    simp only
    have hbody : ∀ op ∈ body, loadWrites op l → (l ∈ selection ∧ LeaveOp.setTaskB ∈ t.onReturn) ∨
        0 < (body.map (loadSetCount (.layer l))).sum := by
      have htidy := h.1
      clear hphase h hwrites
      induction body with
      | nil => exact fun op hop => absurd hop List.not_mem_nil
      | cons first body ih =>
        intro op hop hl
        rw [List.map_cons, List.sum_cons]
        rcases List.mem_cons.mp hop with rfl | hop
        · rcases htidy.1 l hl with htask | rfl | hset
          · exact Or.inl htask
          · refine Or.inr ?_
            simp [loadSetCount]
          · refine Or.inr (Nat.lt_add_left _ ?_)
            have hone : 0 < loadSetCount (.layer l) (.setLayerReady l) := by simp [loadSetCount]
            exact lt_of_lt_of_le hone (List.le_sum_of_mem (List.mem_map_of_mem hset))
        · exact (ih htidy.2 op hop hl).imp_right fun hpos => by omega
    rcases hwrites with ⟨op, hop, hl⟩ | ⟨op, hop, hl⟩
    · rcases hbody op hop hl with ⟨hsel, htask⟩ | hpos
      · have hone : 0 < restSetCount .taskB t.onReturn := one_le_restSetCount htask Nat.one_pos
        exact Or.inl ⟨hsel, by omega⟩
      · exact Or.inr (by omega)
    · refine Or.inl ⟨h.2 op hop l hl, ?_⟩
      rcases List.mem_append.mp hop with hop | hop
      · have hone := one_le_restSetCount hop (leaveWrites_taskB hl)
        omega
      · have hone := one_le_restSetCount hop (leaveWrites_taskB hl)
        omega

/-- What is put in a statement's place when it does not complete the work. -/
inductive Becomes : LoadOp → List LoadOp → Prop
  | done (op : LoadOp) : Becomes op []
  | blockedOn (generation l : Nat) : Becomes (.waitLayer l) [.blockedOn generation l]
  | digest (l : Nat) (kv : KvPair) : Becomes (.readDigest l) [.putDigest l kv]
  | chunk (l : Nat) (kv : KvPair) : Becomes (.readChunk l) [.putHack l kv]
  | critical (ids : List Nat) (kv : Nat → KvPair) :
      Becomes (.readCritical ids) (ids.map fun l => .putHack l (kv l))
  | prefetch (l : Nat) : Becomes (.prefetchLayer l) [.readChunk l, .setLayerReady l]

theorem tryStep_cases {disk : Disk} {rt : Runtime} {t : Loader} {op : LoadOp} {body : List LoadOp}
    {r : Loader.StepResult} (h : t.tryStep disk rt body op = some r) :
    r = t.raised rt ∨ ∃ front metaDir binDir, Becomes op front ∧ r.started = [] ∧
      r.loader = ({ t with metaDir := metaDir, binDir := binDir } : Loader).continueWith (front ++ body) := by
  have hdone : ∀ {r : Loader.StepResult}, r.started = [] → r.loader = t.continueWith body →
      r = t.raised rt ∨ ∃ front metaDir binDir, Becomes op front ∧ r.started = [] ∧
        r.loader = ({ t with metaDir := metaDir, binDir := binDir } : Loader).continueWith (front ++ body) :=
    fun hstarted hloader => Or.inr ⟨[], t.metaDir, t.binDir, .done op, hstarted, hloader⟩
  cases op <;> simp only [Loader.tryStep] at h
  case blockedOn => cases h
  case waitLayer l =>
    split at h
    next =>
      cases h
      exact Or.inl rfl
    next =>
      split at h <;> cases h
      next => exact hdone rfl rfl
      next => exact Or.inr ⟨_, t.metaDir, t.binDir, .blockedOn rt.generation l, rfl, rfl⟩
  case raiseLoaderError =>
    split at h <;> cases h
    next => exact Or.inl rfl
    next => exact hdone rfl rfl
  case checkQueryMeta =>
    cases h
    exact hdone rfl rfl
  case openQuery =>
    cases h
    exact Or.inr ⟨[], t.metaDir, rt.sampleDirQuery, .done _, rfl, rfl⟩
  case loadPackedMeta =>
    cases h
    exact Or.inr ⟨[], rt.sampleDirChunk, t.binDir, .done _, rfl, rfl⟩
  case readDigest l =>
    cases h
    exact Or.inr ⟨_, t.metaDir, t.binDir, .digest l _, rfl, rfl⟩
  case readChunk l =>
    cases h
    exact Or.inr ⟨_, t.metaDir, t.binDir, .chunk l _, rfl, rfl⟩
  case readCritical ids =>
    cases h
    exact Or.inr ⟨_, t.metaDir, t.binDir, .critical ids _, rfl, rfl⟩
  case putDigest l kv =>
    split at h <;> cases h
    next => exact hdone rfl rfl
    next => exact Or.inl rfl
  case putHack l kv =>
    split at h <;> cases h
    next => exact hdone rfl rfl
    next => exact Or.inl rfl
  case setLayerReady l =>
    split at h <;> cases h
    next => exact Or.inl rfl
    next => exact hdone rfl rfl
  case prefetchLayer l =>
    split at h
    next =>
      split at h <;> cases h
      next => exact Or.inl rfl
      next => exact hdone rfl rfl
    next =>
      cases h
      exact Or.inr ⟨_, t.metaDir, t.binDir, .prefetch l, rfl, rfl⟩

theorem Becomes.writes {op : LoadOp} {front : List LoadOp} (h : Becomes op front) {op' : LoadOp}
    (hop : op' ∈ front) {l : Nat} (hl : loadWrites op' l) : loadWrites op l := by
  cases h with
  | done => exact absurd hop List.not_mem_nil
  | blockedOn =>
    rw [List.mem_singleton.mp hop] at hl
    exact hl.elim
  | digest =>
    rw [List.mem_singleton.mp hop] at hl
    exact hl.elim
  | chunk l' kv =>
    rw [List.mem_singleton.mp hop] at hl
    exact hl
  | critical ids kv =>
    obtain ⟨l', hl', rfl⟩ := List.mem_map.mp hop
    exact (show l = l' from hl) ▸ hl'
  | prefetch l' =>
    simp only [List.mem_cons, List.not_mem_nil, or_false] at hop
    rcases hop with rfl | rfl
    · exact hl
    · exact hl.elim

theorem Becomes.tidy {op : LoadOp} {front body : List LoadOp} {onReturn : List LeaveOp}
    (h : Becomes op front) (htidy : BodyTidy selection onReturn (op :: body)) :
    BodyTidy selection onReturn (front ++ body) := by
  cases h with
  | done => exact htidy.2
  | blockedOn => exact ⟨fun l hl => hl.elim, htidy.2⟩
  | digest => exact ⟨fun l hl => hl.elim, htidy.2⟩
  | chunk l kv =>
    refine ⟨fun i hi => ?_, htidy.2⟩
    rcases htidy.1 i hi with htask | hpre | hset
    · exact Or.inl htask
    · cases hpre
    · exact Or.inr (Or.inr hset)
  | critical ids kv =>
    have hall : ∀ ids' : List Nat, (∀ l ∈ ids', l ∈ ids) →
        BodyTidy selection onReturn ((ids'.map fun l => .putHack l (kv l)) ++ body) := by
      intro ids'
      induction ids' with
      | nil => exact fun _ => htidy.2
      | cons l ids' ih =>
        intro hsub
        refine ⟨fun i hi => ?_, ih fun l hl => hsub l (List.mem_cons_of_mem _ hl)⟩
        rcases htidy.1 i ((show i = l from hi) ▸ hsub l List.mem_cons_self) with htask | hpre | hset
        · exact Or.inl htask
        · cases hpre
        · exact Or.inr (Or.inr (List.mem_append_right _ hset))
    exact hall ids fun _ => id
  | prefetch l =>
    refine ⟨fun i hi => Or.inr (Or.inr ?_), fun i hi => hi.elim, htidy.2⟩
    rw [show i = l from hi]
    exact List.mem_cons_self

theorem tidy_continueWith {t : Loader} {body : List LoadOp}
    (hbody : BodyTidy selection t.onReturn body)
    (hleave : ∀ op ∈ t.onReturn ++ t.onError, LeaveTidy selection op) :
    Tidy selection (t.continueWith body) := by
  unfold Tidy Loader.continueWith
  cases body with
  | nil => exact fun op hop => hleave op (List.mem_append_left _ hop)
  | cons op body => exact ⟨hbody, hleave⟩

theorem writes_continueWith {t : Loader} {body : List LoadOp} {l : Nat}
    (h : Writes (t.continueWith body) l) :
    (∃ op ∈ body, loadWrites op l) ∨ ∃ op ∈ t.onReturn ++ t.onError, leaveWrites op l := by
  unfold Writes Loader.continueWith at h
  cases body with
  | nil =>
    obtain ⟨op, hop, hl⟩ := h
    exact Or.inr ⟨op, List.mem_append_left _ hop, hl⟩
  | cons op body => exact h

theorem tidy_releaseOps (layerIds : List Nat) (releaseTaskB : Bool) :
    ∀ op ∈ Loader.releaseOps layerIds releaseTaskB, ∀ l, ¬ leaveWrites op l := by
  intro op hop l hl
  obtain ⟨tail, htail, hrelease⟩ := errorPath_releaseOps layerIds releaseTaskB
  rw [htail] at hop
  rcases List.mem_cons.mp hop with rfl | hop
  · exact hl
  · have hop := hrelease op hop
    cases op with
    | startCritical => exact hop
    | _ => exact hl

theorem tidy_digest (selection : List Nat) (client : Nat) (metaDir : Dir) (layerIds : List Nat) :
    Tidy selection (Loader.digest client metaDir layerIds) ∧
      ∀ l, ¬ Writes (Loader.digest client metaDir layerIds) l := by
  have hops : ∀ op ∈ (if layerIds = [] then [] else LoadOp.openQuery ::
      layerIds.flatMap fun l => [.readDigest l, .setLayerReady l]), ∀ l, ¬ loadWrites op l := by
    intro op hop l hl
    split at hop
    next => cases hop
    next =>
      rcases List.mem_cons.mp hop with rfl | hop
      · exact hl
      · obtain ⟨i, -, hop⟩ := List.mem_flatMap.mp hop
        simp only [List.mem_cons, List.not_mem_nil, or_false] at hop
        rcases hop with rfl | rfl <;> exact hl
  have hbody : ∀ body : List LoadOp, (∀ op ∈ body, ∀ l, ¬ loadWrites op l) → BodyTidy selection [] body := by
    intro body
    induction body with
    | nil => exact fun _ => trivial
    | cons op body ih =>
      intro h
      exact ⟨fun l hl => absurd hl (h op List.mem_cons_self l),
        ih fun op hop => h op (List.mem_cons_of_mem _ hop)⟩
  constructor
  · apply tidy_continueWith (hbody _ hops)
    exact fun op hop l hl => absurd hl (tidy_releaseOps layerIds false op hop l)
  · intro l hl
    rcases writes_continueWith hl with ⟨op, hop, hl⟩ | ⟨op, hop, hl⟩
    · exact hops op hop l hl
    · exact tidy_releaseOps layerIds false op hop l hl

theorem tidy_critical {client : Nat} {metaDir : Dir} {digestIds criticalIds : List Nat}
    (h : ∀ l ∈ criticalIds, l ∈ selection) :
    Tidy selection (Loader.critical client metaDir digestIds criticalIds) ∧
      ∀ l, Writes (Loader.critical client metaDir digestIds criticalIds) l → l ∈ criticalIds := by
  have hread : BodyTidy selection [.setTaskB] [.readCritical criticalIds] :=
    ⟨fun l hl => Or.inl ⟨h l hl, List.mem_cons_self⟩, trivial⟩
  have hleave : ∀ op ∈ [LeaveOp.setTaskB] ++ Loader.releaseOps criticalIds true, ∀ l, ¬ leaveWrites op l := by
    intro op hop l hl
    rcases List.mem_append.mp hop with hop | hop
    · rw [List.mem_singleton.mp hop] at hl
      exact hl
    · exact tidy_releaseOps _ _ op hop l hl
  constructor
  · apply tidy_continueWith _ fun op hop l hl => absurd hl (hleave op hop l)
    cases digestIds with
    | nil => exact hread
    | cons first rest => exact ⟨fun l hl => hl.elim, fun l hl => hl.elim, hread⟩
  · intro l hl
    rcases writes_continueWith hl with ⟨op, hop, hl⟩ | ⟨op, hop, hl⟩
    · rcases List.mem_append.mp hop with hop | hop
      · cases digestIds with
        | nil => cases hop
        | cons first rest =>
          simp only [List.mem_cons, List.not_mem_nil, or_false] at hop
          rcases hop with rfl | rfl <;> exact hl.elim
      · rw [List.mem_singleton.mp hop] at hl
        exact hl
    · exact absurd hl (hleave op hop l)

theorem tidy_queryCache {client numDigestLayers : Nat} {criticalLayers : List Nat} {queryDir : Dir}
    (h : ∀ l ∈ criticalLayers, l ∈ selection) :
    Tidy selection (Loader.queryCache client numDigestLayers criticalLayers queryDir) := by
  refine ⟨⟨fun l hl => hl.elim, trivial⟩, fun op hop l hl => ?_⟩
  rcases List.mem_append.mp hop with hop | hop
  · simp only [Loader.queryCache, List.mem_cons, List.not_mem_nil, or_false] at hop
    rcases hop with rfl | rfl
    · exact hl.elim
    · exact h l hl
  · exact absurd hl (tidy_releaseOps _ _ op hop l)

theorem tidy_taskB {client : Nat} {layerIds : List Nat} (h : ∀ l ∈ layerIds, l ∈ selection) :
    Tidy selection (Loader.taskB client layerIds) := by
  refine ⟨⟨fun l hl => hl.elim, ?_⟩, fun op hop l hl => ?_⟩
  · have hbody : ∀ ids : List Nat, (∀ l ∈ ids, l ∈ selection) →
        BodyTidy selection [.setTaskB] (ids.map .readChunk) := by
      intro ids
      induction ids with
      | nil => exact fun _ => trivial
      | cons l ids ih =>
        intro hids
        refine ⟨fun i hi => Or.inl ⟨?_, List.mem_cons_self⟩,
          ih fun l hl => hids l (List.mem_cons_of_mem _ hl)⟩
        exact (show i = l from hi) ▸ hids l List.mem_cons_self
    exact hbody layerIds h
  · rcases List.mem_append.mp hop with hop | hop
    · rw [List.mem_singleton.mp hop] at hl
      exact hl.elim
    · exact absurd hl (tidy_releaseOps _ _ op hop l)

theorem tidy_doBlendPrefetch (client prefetchFrom numLayers : Nat) :
    Tidy selection (Loader.doBlendPrefetch client prefetchFrom numLayers) := by
  refine ⟨⟨fun l hl => hl.elim, ?_⟩, fun op hop l hl => absurd hl (tidy_releaseOps _ _ op hop l)⟩
  have hbody : ∀ ids : List Nat, BodyTidy selection [] (ids.map .prefetchLayer) := by
    intro ids
    induction ids with
    | nil => trivial
    | cons l ids ih => exact ⟨fun i hi => Or.inr (Or.inl (by rw [show i = l from hi])), ih⟩
  exact hbody _

/-- A step writes only what its thread still writes, and starts no more. -/
theorem Tidy.step {disk : Disk} {fails : Bool} {rt : Runtime} {t : Loader} {r : Loader.StepResult}
    (h : Tidy selection t) (hstep : t.step disk fails rt = some r) :
    (Tidy selection r.loader ∧ ∀ u ∈ r.started, Tidy selection u) ∧
      ∀ l, (Writes r.loader l ∨ ∃ u ∈ r.started, Writes u l) → Writes t l := by
  unfold Tidy at h
  rcases loader_step_cases hstep with ⟨op, body, hphase, hstep⟩ | ⟨op, rest, hphase, rfl⟩
  · rw [hphase] at h
    have hraised : (Tidy selection (t.raised rt).loader ∧ ∀ u ∈ (t.raised rt).started, Tidy selection u) ∧
        ∀ l, (Writes (t.raised rt).loader l ∨ ∃ u ∈ (t.raised rt).started, Writes u l) → Writes t l := by
      refine ⟨⟨fun op hop => h.2 op (List.mem_append_right _ hop),
        fun u hu => absurd hu List.not_mem_nil⟩, fun l hl => ?_⟩
      rcases hl with ⟨op, hop, hl⟩ | ⟨u, hu, -⟩
      · unfold Writes
        rw [hphase]
        exact Or.inr ⟨op, List.mem_append_right _ hop, hl⟩
      · exact absurd hu List.not_mem_nil
    rcases hstep with rfl | hstep
    · exact hraised
    · rcases tryStep_cases hstep with rfl | ⟨front, metaDir, binDir, hbecomes, hstarted, hloader⟩
      · exact hraised
      · rw [hstarted, hloader]
        refine ⟨⟨tidy_continueWith (hbecomes.tidy h.1) h.2, fun u hu => absurd hu List.not_mem_nil⟩,
          fun l hl => ?_⟩
        unfold Writes
        rw [hphase]
        rcases hl with hl | ⟨u, hu, -⟩
        · rcases writes_continueWith hl with ⟨op', hop, hl⟩ | hleave
          · rcases List.mem_append.mp hop with hop | hop
            · exact Or.inl ⟨op, List.mem_cons_self, hbecomes.writes hop hl⟩
            · exact Or.inl ⟨op', List.mem_cons_of_mem _ hop, hl⟩
          · exact Or.inr hleave
        · exact absurd hu List.not_mem_nil
  · rw [hphase] at h
    have hrest : ∀ op' ∈ rest, LeaveTidy selection op' := fun op' hop => h op' (List.mem_cons_of_mem _ hop)
    have hloader : (t.leaveStep rt rest op).loader.phase = .leaving rest := by
      cases op <;> simp only [Loader.leaveStep]
      split <;> rfl
    have hstarted : ∀ u ∈ (t.leaveStep rt rest op).started,
        Tidy selection u ∧ ∀ l, Writes u l → leaveWrites op l := by
      intro u hu
      cases op with
      | startDigest dir ids =>
        rw [List.mem_singleton.mp hu]
        obtain ⟨htidy, hnone⟩ := tidy_digest selection t.client dir ids
        exact ⟨htidy, fun l hl => absurd hl (hnone l)⟩
      | startCritical dir digestIds criticalIds =>
        rw [List.mem_singleton.mp hu]
        obtain ⟨htidy, hids⟩ := tidy_critical (h _ List.mem_cons_self)
        exact ⟨htidy, hids⟩
      | setLayerReady l =>
        simp only [Loader.leaveStep] at hu
        split at hu <;> cases hu
      | _ => cases hu
    refine ⟨⟨?_, fun u hu => (hstarted u hu).1⟩, fun l hl => ?_⟩
    · unfold Tidy
      rw [hloader]
      exact hrest
    · unfold Writes
      rw [hphase]
      rcases hl with hl | ⟨u, hu, hl⟩
      · unfold Writes at hl
        rw [hloader] at hl
        obtain ⟨op', hop, hl⟩ := hl
        exact ⟨op', List.mem_cons_of_mem _ hop, hl⟩
      · exact ⟨op, List.mem_cons_self, (hstarted u hu).2 l hl⟩

theorem Tidy.wake {t : Loader} (h : Tidy selection t) (generation layerId : Nat) :
    Tidy selection (t.wake generation layerId) := by
  unfold Loader.wake
  split
  next hphase =>
    split
    next =>
      unfold Tidy at h
      rw [hphase] at h
      exact tidy_continueWith h.1.2 h.2
    next => exact h
  next => exact h

theorem tidy_ended {t : Loader} (h : t.Ended) : Tidy selection t := by
  unfold Loader.Ended at h
  unfold Tidy
  split at h
  next hphase =>
    rw [hphase]
    exact fun op hop => absurd hop List.not_mem_nil
  next => cases h

theorem tidy_loaderStep {s s' : Shared} (h : ∀ t ∈ s.loaders, Tidy selection t) (hrely : Rely cfg s s') :
    ∀ t ∈ s'.loaders, Tidy selection t := by
  obtain ⟨index, fails, hstep⟩ := hrely
  obtain ⟨t, r, ht, hr, hrt, hthreads⟩ := loaderStep_cases hstep
  obtain ⟨⟨hloader, hstarted⟩, -⟩ := (h t ht).step hr
  intro u hu
  rcases hthreads u hu with hu | ⟨v, hv, hu⟩
  · exact hstarted u hu
  · have htidy : Tidy selection v := by
      rcases hv with rfl | hv
      · exact hloader
      · exact h v hv
    rcases hu with rfl | ⟨l, -, rfl⟩
    · exact htidy
    · exact htidy.wake _ _

/-- A step changes `HackBlendKVPool` only at a layer its thread still writes. -/
theorem loader_step_hack {disk : Disk} {fails : Bool} {rt : Runtime} {t : Loader}
    {r : Loader.StepResult} (hstep : t.step disk fails rt = some r) :
    r.rt.hack = rt.hack ∨ ∃ l kv, Writes t l ∧ rt.hack.assign l kv = .ok r.rt.hack := by
  rcases loader_step_cases hstep with ⟨op, body, hphase, hstep⟩ | ⟨op, rest, hphase, rfl⟩
  · rcases hstep with rfl | hstep
    · exact Or.inl rfl
    · cases op <;> simp only [Loader.tryStep] at hstep
      case blockedOn => cases hstep
      case putHack l kv =>
        split at hstep <;> cases hstep
        next hack hhack =>
          refine Or.inr ⟨l, kv, ?_, hhack⟩
          unfold Writes
          rw [hphase]
          exact Or.inl ⟨_, List.mem_cons_self, rfl⟩
        next => exact Or.inl rfl
      case waitLayer =>
        split at hstep
        next =>
          cases hstep
          exact Or.inl rfl
        next => split at hstep <;> cases hstep <;> exact Or.inl rfl
      case raiseLoaderError => split at hstep <;> cases hstep <;> exact Or.inl rfl
      case putDigest => split at hstep <;> cases hstep <;> exact Or.inl rfl
      case setLayerReady => split at hstep <;> cases hstep <;> exact Or.inl rfl
      case prefetchLayer =>
        split at hstep
        next => split at hstep <;> cases hstep <;> exact Or.inl rfl
        next =>
          cases hstep
          exact Or.inl rfl
      all_goals
        cases hstep
        exact Or.inl rfl
  · refine Or.inl ?_
    cases op <;> simp only [Loader.leaveStep]
    split <;> rfl

/-- Where no thread writes a layer any more, it stays as it is. -/
theorem layer_loaderStep {s s' : Shared} {l : Nat} (hnone : ∀ t ∈ s.loaders, ¬ Writes t l)
    (hrely : Rely cfg s s') : layerOf s'.rt.hack.kBuffer l = layerOf s.rt.hack.kBuffer l := by
  obtain ⟨index, fails, hstep⟩ := hrely
  obtain ⟨t, r, ht, hr, hrt, hthreads⟩ := loaderStep_cases hstep
  rw [hrt]
  rcases loader_step_hack hr with hsame | ⟨i, kv, hwrites, hassign⟩
  · rw [hsame]
  · obtain ⟨hk, -⟩ := HackPool.assign_ok hassign l
    have hne : l ≠ i := by
      rintro rfl
      exact hnone t ht hwrites
    rw [hk, if_neg hne]

theorem leaveMeets_retarget {n n' : Needs} {there there' : Cell → Prop} {rest : List LeaveOp}
    (h : ∀ op ∈ rest, LeaveMeets n there op) (hlayers : ∀ l, restSetCount (.layer l) rest = 0)
    (htask : ∀ c, ¬ n' .taskB c) : ∀ op ∈ rest, LeaveMeets n' there' op := by
  intro op hop
  cases op with
  | recordLoaderError => trivial
  | setLayerReady l => exact (h _ hop).elim
  | setTaskB => exact fun c hc => absurd hc (htask c)
  | startCritical dir digestIds ids => exact fun c hc => absurd hc (htask c)
  | startDigest dir ids =>
    intro l hl
    have hpos : 0 < leaveSetCount (.layer l) (.startDigest dir ids) :=
      List.countP_pos_iff.mpr ⟨l, hl, by simp⟩
    have hsome := one_le_restSetCount hop hpos
    have hnone := hlayers l
    omega

theorem bodyMeets_retarget {n n' : Needs} {onReturn : List LeaveOp} {body : List LoadOp}
    {there there' : Cell → Prop} (h : BodyMeets n onReturn there body)
    (hlayers : ∀ l, (body.map (loadSetCount (.layer l))).sum = 0)
    (hreturn : ∀ l, restSetCount (.layer l) onReturn = 0) (htask : ∀ c, ¬ n' .taskB c) :
    BodyMeets n' onReturn there' body := by
  induction body generalizing there there' with
  | nil => exact leaveMeets_retarget h hreturn htask
  | cons op body ih =>
    have hhead : ∀ l, loadSetCount (.layer l) op = 0 ∧ (body.map (loadSetCount (.layer l))).sum = 0 := by
      intro l
      have hsum := hlayers l
      rw [List.map_cons, List.sum_cons] at hsum
      omega
    refine ⟨fun c hc => ?_, ih h.2 fun l => (hhead l).2⟩
    cases op with
    | setLayerReady l =>
      have hone := (hhead l).1
      simp [loadSetCount] at hone
    | prefetchLayer l =>
      have hone := (hhead l).1
      simp [loadSetCount] at hone
    | _ => exact hc.elim

/-- A thread that sets no layer event any more keeps the protocol whatever is in the pools. -/
theorem ThreadMeets.retarget {n n' : Needs} {there there' : Cell → Prop} {recorded : Prop} {t : Loader}
    (h : ThreadMeets n there recorded t) (hlayers : ∀ l, pendingSets (.layer l) t = 0)
    (htask : ∀ c, ¬ n' .taskB c) : ThreadMeets n' there' recorded t := by
  unfold ThreadMeets at h ⊢
  unfold pendingSets at hlayers
  cases hphase : t.phase with
  | leaving rest =>
    rw [hphase] at h hlayers
    rcases h with hrec | herror | hmeets
    · exact Or.inl hrec
    · exact Or.inr (Or.inl herror)
    · exact Or.inr (Or.inr (leaveMeets_retarget hmeets hlayers htask))
  | trying body =>
    rw [hphase] at h hlayers
    simp only at hlayers
    refine ⟨bodyMeets_retarget h.1 (fun l => ?_) (fun l => ?_) htask, h.2⟩
    · have hsum := hlayers l
      omega
    · have hsum := hlayers l
      omega

end QCFuse.Guarantees
