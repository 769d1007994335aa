import QCFuse.Guarantees.LoaderProtocol

/-!
# Sessions of different clients

Each client issues a QCOMPUTE and a DO_BLEND_FINISH, decodes and finishes; the pools between them
belong to the whole process. Decode steps leave the blend state alone and are not steps here.
-/

set_option autoImplicit false

namespace QCFuse.Guarantees

open QCFuse.Library QCFuse.Source

/-! ## Sessions -/

/-- Where a client stands: `sampled` from the start of its QCOMPUTE to the end of its
DO_BLEND_FINISH prefill. -/
inductive Stage where
  | waiting | sampled | decoding | finished
  deriving DecidableEq

/-- The process, with the stage of every client. -/
structure Server where
  process : Process
  stage : Nat → Stage

/-- A client's next request may begin. -/
def mayBegin (stage : Stage) (req : BlendRequest) : Prop :=
  req.hasSsdPaths = true ∧ ((req.blendStyle = .qCompute ∧ stage = .waiting) ∨
    (req.blendStyle = .doBlendFinish ∧ stage = .sampled))

/-- A client's request may finish: a QCOMPUTE after its prefill, a DO_BLEND_FINISH after any number
of decode steps. -/
def mayFinish (stage : Stage) (req : BlendRequest) : Prop :=
  (req.blendStyle = .qCompute ∧ stage ≠ .waiting) ∨
    (req.blendStyle = .doBlendFinish ∧ stage = .decoding)

instance (stage : Stage) (req : BlendRequest) : Decidable (mayBegin stage req) := by
  unfold mayBegin
  infer_instance

instance (stage : Stage) (req : BlendRequest) : Decidable (mayFinish stage req) := by
  unfold mayFinish
  infer_instance

def Server.setStage (s : Server) (client : Nat) (stage : Stage) (p : Process) : Server :=
  ⟨p, fun c => if c = client then stage else s.stage c⟩

/-- The stage of the client after a statement list has run to its end. -/
def Server.afterMain (s : Server) (p : Process) : Server :=
  match s.process.main with
  | .running req [] =>
    if req.blendStyle = .doBlendFinish ∧ s.stage req.client = .sampled then
      s.setStage req.client .decoding p
    else ⟨p, s.stage⟩
  | _ => ⟨p, s.stage⟩

/-- Clients follow the protocol; everything else is the process's. -/
def Server.step (cfg : Config) : Label → Server → Option Server
  | .begin req, s =>
    if mayBegin (s.stage req.client) req then
      (s.process.step cfg (.begin req)).map (s.setStage req.client .sampled)
    else none
  | .finish req, s =>
    if mayFinish (s.stage req.client) req then
      (s.process.step cfg (.finish req)).map (s.setStage req.client
        (if req.blendStyle = .qCompute then s.stage req.client else .finished))
    else none
  | .main, s => (s.process.step cfg .main).map s.afterMain
  | .loader index fails, s =>
    (s.process.step cfg (.loader index fails)).map fun p => ⟨p, s.stage⟩

def serverMachine (cfg : Config) : Machine Server Label := ⟨Server.step cfg⟩

def Server.initial : Server := ⟨.initial, fun _ => .waiting⟩

/-- The client on whose behalf the process moves. -/
def onBehalfOf (p : Process) : Label → Option Nat
  | .begin req | .finish req => some req.client
  | .main =>
    match p.main with
    | .running req _ => some req.client
    | _ => none
  | .loader index _ => p.shared.loaders[index]?.map Loader.client

/-- What a DO_BLEND_FINISH reads: the pool and its q buffers, the online flag and the ready events. -/
def finishReads (rt : Runtime) : HackPool × Bool × List Bool × Bool :=
  (rt.hack, rt.online, rt.layerReady, rt.taskB)

/-- No step on behalf of another client changes what the DO_BLEND_FINISH of an open session will
read. -/
def SessionsIsolated (cfg : Config) (s : Server) : Prop :=
  ∀ client, s.stage client = .sampled → ∀ label s', s.step cfg label = some s' →
    onBehalfOf s.process label ≠ some client →
      finishReads s'.process.shared.rt = finishReads s.process.shared.rt

/-! ## Sessions one at a time -/

/-- No other client's session is open; and no loader of another client is alive where a QCOMPUTE
begins. -/
def sessionsApart (s : Server) : Label → Prop
  | .begin req => (∀ client, client ≠ req.client → s.stage client ≠ .sampled) ∧
      (req.blendStyle = .qCompute → ∀ t ∈ s.process.shared.loaders, t.client ≠ req.client → t.Ended)
  | .finish req => req.blendStyle = .doBlendFinish →
      ∀ client, client ≠ req.client → s.stage client ≠ .sampled
  | _ => True

/-- While a session is open, nothing runs for another client. -/
structure Alone (client : Nat) (p : Process) : Prop where
  loaders : ∀ t ∈ p.shared.loaders, t.client ≠ client → t.Ended
  main : ∀ req ops, p.main = .running req ops → req.client ≠ client → ops = []

/-- The threads that the forward thread will start are the request's. -/
def StartsOwn (p : Process) : Prop :=
  ∀ req ops, p.main = .running req ops → ∀ t, .start t ∈ ops → t.client = req.client

structure ServerInvariant (s : Server) : Prop where
  alone : ∀ client, s.stage client = .sampled → Alone client s.process
  starts : StartsOwn s.process

/-! ## Steps of the process -/

/-- The threads that a prefill starts are its client's. -/
theorem starts_prefillOps {numLayers : Nat} {rt : Runtime} {req : BlendRequest} {t : Loader}
    (h : .start t ∈ prefillOps numLayers rt req) : t.client = req.client := by
  rcases prefillOps_cases h with hown | hforward
  · exact hown
  · exact absurd (isForwardOp_of_mem hforward) Bool.false_ne_true

/-- A step of a thread leaves the others, ended or not, to their clients. -/
theorem loaderStep_clients {disk : Disk} {index : Nat} {fails : Bool} {s s' : Shared}
    (h : s.loaderStep disk index fails = some s') {client : Nat}
    (hs : ∀ t ∈ s.loaders, t.client ≠ client → t.Ended) : ∀ t ∈ s'.loaders, t.client ≠ client → t.Ended := by
  obtain ⟨t, r, ht, hr, -, hthreads⟩ := loaderStep_cases h
  have hown : t.client = client := by
    by_contra hother
    rw [ended_step_none (hs t ht hother)] at hr
    cases hr
  obtain ⟨hloader, -, hstarted⟩ := loader_step_failed hr
  intro u hu hother
  rcases hthreads u hu with hu | ⟨v, hv, hu⟩
  · exact absurd ((hstarted u hu).1.trans hown) hother
  · rcases hv with rfl | hv
    · refine absurd ?_ hother
      rcases hu with rfl | ⟨l, -, rfl⟩
      · exact hloader.trans hown
      · exact (wake_failed _ _ _).1.trans (hloader.trans hown)
    · rcases hu with rfl | ⟨l, -, rfl⟩
      · exact hs u hv hother
      · rw [(wake_failed v _ _).1] at hother
        have hended := hs v hv hother
        have hsame : v.wake r.rt.generation l = v := by
          unfold Loader.Ended at hended
          unfold Loader.wake
          split at hended
          next hphase => rw [hphase]
          next => cases hended
        rw [hsame]
        exact hended

/-- A statement starts its thread, and no other. -/
theorem exec_loaders {cfg : Config} {req : BlendRequest} {op : MainOp} {s s' : Shared}
    (h : Exec cfg req op s s') : s'.loaders = s.loaders ∨
      ∃ t, op = .start t ∧ s'.loaders = s.loaders ++ [t] := by
  cases exec_effect h with
  | start t => exact Or.inr ⟨t, rfl, rfl⟩
  | _ => exact Or.inl rfl

variable {cfg : Config}

/-- What the forward thread has left to do after a step of its own. -/
theorem main_step_cases {p p' : Process} (h : p.step cfg .main = some p') :
    (p'.shared = p.shared ∧ ∀ req ops, p'.main ≠ .running req ops) ∨
      ∃ req op ops, p.main = .running req (op :: ops) ∧ p'.main = .running req ops ∧
        Exec cfg req op p.shared p'.shared := by
  obtain ⟨shared, main⟩ := p
  cases main with
  | idle => cases h
  | crashed => cases h
  | running req ops =>
    cases ops with
    | nil =>
      cases h
      exact Or.inl ⟨rfl, by rintro _ _ ⟨⟩⟩
    | cons op ops =>
      simp only [Process.step] at h
      split at h
      next s' hexec =>
        cases h
        exact Or.inr ⟨req, op, ops, rfl, rfl, hexec⟩
      next => cases h
      next =>
        cases h
        exact Or.inl ⟨rfl, by rintro _ _ ⟨⟩⟩

theorem Alone.main_step {client : Nat} {p p' : Process} (halone : Alone client p) (hstarts : StartsOwn p)
    (h : p.step cfg .main = some p') : Alone client p' := by
  rcases main_step_cases h with ⟨hshared, hidle⟩ | ⟨req, op, ops, hmain, hmain', hexec⟩
  · constructor
    · rw [hshared]
      exact halone.loaders
    · exact fun req ops hrunning => absurd hrunning (hidle req ops)
  · have hown : req.client = client := by
      by_contra hother
      cases halone.main req _ hmain hother
    constructor
    · rcases exec_loaders hexec with hloaders | ⟨t, rfl, hloaders⟩
      · rw [hloaders]
        exact halone.loaders
      · rw [hloaders]
        intro u hu hother
        rcases List.mem_append.mp hu with hu | hu
        · exact halone.loaders u hu hother
        · rw [List.mem_singleton.mp hu] at hother
          exact absurd ((hstarts req _ hmain t List.mem_cons_self).trans hown) hother
    · intro req' ops' hrunning hother
      rw [hmain'] at hrunning
      cases hrunning
      exact absurd hown hother

theorem StartsOwn.main_step {p p' : Process} (hstarts : StartsOwn p) (h : p.step cfg .main = some p') :
    StartsOwn p' := by
  intro req ops hrunning t ht
  rcases main_step_cases h with ⟨-, hidle⟩ | ⟨own, op, rest, hmain, hmain', -⟩
  · exact absurd hrunning (hidle req ops)
  · rw [hmain'] at hrunning
    cases hrunning
    exact hstarts _ _ hmain t (List.mem_cons_of_mem _ ht)

theorem loader_step_main {p p' : Process} {index : Nat} {fails : Bool}
    (h : p.step cfg (.loader index fails) = some p') :
    p'.main = p.main ∧ p.shared.loaderStep cfg.disk index fails = some p'.shared := by
  simp only [Process.step] at h
  obtain ⟨s', hs', rfl⟩ := Option.map_eq_some_iff.mp h
  exact ⟨rfl, hs'⟩

theorem Alone.loader_step {client : Nat} {p p' : Process} (halone : Alone client p) {index : Nat}
    {fails : Bool} (h : p.step cfg (.loader index fails) = some p') : Alone client p' := by
  obtain ⟨hmain, hstep⟩ := loader_step_main h
  exact ⟨loaderStep_clients hstep halone.loaders, hmain ▸ halone.main⟩

/-- A request begins, or finishes, where the process is idle. -/
theorem begin_step_cases {p p' : Process} {label : Label} {req : BlendRequest}
    (hlabel : label = .begin req ∨ label = .finish req) (h : p.step cfg label = some p') :
    p'.shared = p.shared ∧ ∃ ops, p'.main = .running req ops ∧
      (∀ t, .start t ∈ ops → t.client = req.client) ∧
      (label = .finish req → req.blendStyle = .qCompute → ops = []) := by
  obtain ⟨shared, main⟩ := p
  rcases hlabel with rfl | rfl
  · cases main with
    | idle =>
      cases h
      exact ⟨rfl, _, rfl, fun t => starts_prefillOps, nofun⟩
    | running req ops => cases h
    | crashed => cases h
  · cases main with
    | idle =>
      cases h
      refine ⟨rfl, _, rfl, fun t ht => isOuterOp_cacheFinishedReq _ ht, fun _ hstyle => ?_⟩
      unfold cacheFinishedReq
      rw [hstyle, if_neg nofun]
    | running req ops => cases h
    | crashed => cases h

theorem afterMain_process (s : Server) (p : Process) : (s.afterMain p).process = p := by
  unfold Server.afterMain
  split
  next => split <;> rfl
  next => rfl

theorem serverInvariant_main {s : Server} {p : Process} (hs : ServerInvariant s)
    (h : s.process.step cfg .main = some p) : ServerInvariant (s.afterMain p) := by
  have hsampled : ∀ client, (s.afterMain p).stage client = .sampled → s.stage client = .sampled := by
    intro client hstage
    unfold Server.afterMain at hstage
    split at hstage
    next =>
      split at hstage
      next =>
        unfold Server.setStage at hstage
        simp only at hstage
        split at hstage
        next => cases hstage
        next => exact hstage
      next => exact hstage
    next => exact hstage
  constructor
  · intro client hstage
    rw [afterMain_process]
    exact (hs.alone client (hsampled client hstage)).main_step hs.starts h
  · rw [afterMain_process]
    exact hs.starts.main_step h

theorem serverInvariant_step {s s' : Server} {label : Label} (hs : ServerInvariant s)
    (hguard : sessionsApart s label) (h : s.step cfg label = some s') : ServerInvariant s' := by
  cases label with
  | «begin» req =>
    simp only [Server.step] at h
    split at h
    next hmay =>
      obtain ⟨p, hp, rfl⟩ := Option.map_eq_some_iff.mp h
      obtain ⟨hshared, ops, hmain, hstarts, -⟩ := begin_step_cases (Or.inl rfl) hp
      constructor
      · intro client hstage
        simp only [Server.setStage] at hstage ⊢
        split at hstage
        next hown =>
          subst hown
          constructor
          · rw [hshared]
            rcases hmay.2 with ⟨hstyle, -⟩ | ⟨-, hsampled⟩
            · exact hguard.2 hstyle
            · exact (hs.alone _ hsampled).loaders
          · intro req' ops' hrunning hother
            rw [hmain] at hrunning
            cases hrunning
            exact absurd rfl hother
        next hother => exact absurd hstage (hguard.1 client hother)
      · intro req' ops' hrunning t ht
        simp only [Server.setStage] at hrunning
        rw [hmain] at hrunning
        cases hrunning
        exact hstarts t ht
    next => cases h
  | finish req =>
    simp only [Server.step] at h
    split at h
    next hmay =>
      obtain ⟨p, hp, rfl⟩ := Option.map_eq_some_iff.mp h
      obtain ⟨hshared, ops, hmain, hstarts, hempty⟩ := begin_step_cases (Or.inr rfl) hp
      constructor
      · intro client hstage
        simp only [Server.setStage] at hstage ⊢
        have hsampled : s.stage client = .sampled ∧ (client ≠ req.client → ops = []) := by
          split at hstage
          next hown =>
            subst hown
            split at hstage
            next => exact ⟨hstage, fun hother => absurd rfl hother⟩
            next => cases hstage
          next hother =>
            refine ⟨hstage, fun _ => ?_⟩
            rcases hmay with ⟨hstyle, -⟩ | ⟨hstyle, -⟩
            · exact hempty rfl hstyle
            · exact absurd hstage (hguard hstyle client hother)
        constructor
        · rw [hshared]
          exact (hs.alone client hsampled.1).loaders
        · intro req' ops' hrunning hother
          rw [hmain] at hrunning
          cases hrunning
          exact hsampled.2 (Ne.symm hother)
      · intro req' ops' hrunning t ht
        simp only [Server.setStage] at hrunning
        rw [hmain] at hrunning
        cases hrunning
        exact hstarts t ht
    next => cases h
  | main =>
    obtain ⟨p, hp, rfl⟩ := Option.map_eq_some_iff.mp h
    exact serverInvariant_main hs hp
  | loader index fails =>
    obtain ⟨p, hp, rfl⟩ := Option.map_eq_some_iff.mp h
    refine ⟨fun client hstage => (hs.alone client hstage).loader_step hp, ?_⟩
    intro req ops hrunning
    rw [(loader_step_main hp).1] at hrunning
    exact hs.starts req ops hrunning

/-- Nothing is left to do on behalf of another client. -/
theorem ServerInvariant.isolated {s : Server} (hs : ServerInvariant s) : SessionsIsolated cfg s := by
  intro client hstage label s' h hother
  have halone := hs.alone client hstage
  have hkept : ∀ {p : Process}, p.shared = s.process.shared →
      finishReads p.shared.rt = finishReads s.process.shared.rt := fun heq => by rw [heq]
  cases label with
  | «begin» req =>
    simp only [Server.step] at h
    split at h
    next =>
      obtain ⟨p, hp, rfl⟩ := Option.map_eq_some_iff.mp h
      exact hkept (begin_step_cases (Or.inl rfl) hp).1
    next => cases h
  | finish req =>
    simp only [Server.step] at h
    split at h
    next =>
      obtain ⟨p, hp, rfl⟩ := Option.map_eq_some_iff.mp h
      exact hkept (begin_step_cases (Or.inr rfl) hp).1
    next => cases h
  | main =>
    obtain ⟨p, hp, rfl⟩ := Option.map_eq_some_iff.mp h
    rw [afterMain_process]
    rcases main_step_cases hp with ⟨hshared, -⟩ | ⟨req, op, ops, hmain, -, -⟩
    · exact hkept hshared
    · simp only [onBehalfOf, hmain, ne_eq, Option.some.injEq] at hother
      cases halone.main req _ hmain hother
  | loader index fails =>
    obtain ⟨p, hp, rfl⟩ := Option.map_eq_some_iff.mp h
    obtain ⟨-, hstep⟩ := loader_step_main hp
    unfold Shared.loaderStep at hstep
    obtain ⟨t, ht, hstep⟩ := Option.bind_eq_some_iff.mp hstep
    simp only [onBehalfOf, ht, Option.map_some, ne_eq, Option.some.injEq] at hother
    rw [ended_step_none (halone.loaders t (List.mem_of_getElem? ht) hother)] at hstep
    cases hstep

/-- Client 0 decodes while client 1 opens its session, then finishes. -/
def overlappingRun : List Label :=
  [[.begin (oneLayerRequest 0 .qCompute false 0 "a")], List.replicate 11 .main,
    [.begin (oneLayerRequest 0 .doBlendFinish false 0 "a")], List.replicate 10 .main,
    [.begin (oneLayerRequest 1 .qCompute false 0 "b")], List.replicate 11 .main,
    [.finish (oneLayerRequest 0 .doBlendFinish false 0 "a")]].flatten

theorem overlappingRun_ends :
    ((serverMachine oneLayer).run overlappingRun .initial).isSome = true := by
  decide +kernel

/-- The first statement of the cleanup, for client 0, empties the pool. -/
theorem overlappingRun_touches :
    (((serverMachine oneLayer).run overlappingRun .initial).get overlappingRun_ends).stage 1 = .sampled ∧
      onBehalfOf (((serverMachine oneLayer).run overlappingRun .initial).get
        overlappingRun_ends).process .main = some 0 ∧
      ((((serverMachine oneLayer).run overlappingRun .initial).get overlappingRun_ends).step oneLayer
        .main).map (fun s => finishReads s.process.shared.rt) ≠
          some (finishReads (((serverMachine oneLayer).run overlappingRun .initial).get
            overlappingRun_ends).process.shared.rt) ∧
      ((((serverMachine oneLayer).run overlappingRun .initial).get overlappingRun_ends).step oneLayer
        .main).isSome = true := by
  decide +kernel

/-- Client 0 opens its session. -/
def openedServer : Server :=
  Server.initial.setStage 0 .sampled ⟨Process.initial.shared, .running
    (oneLayerRequest 0 .qCompute false 0 "a") (prefillOps 1 .initial
      (oneLayerRequest 0 .qCompute false 0 "a"))⟩

/-- Its QCOMPUTE prefill, and its loader. -/
def loadingRun : List Label := List.replicate 11 .main ++ List.replicate 4 (.loader 0 false)

theorem loadingRun_ends : ((serverMachine oneLayer).run loadingRun openedServer).isSome = true :=
  rfl

theorem loadingRun_open : (((serverMachine oneLayer).run loadingRun openedServer).get
    loadingRun_ends).stage 0 = .sampled :=
  rfl

end QCFuse.Guarantees
