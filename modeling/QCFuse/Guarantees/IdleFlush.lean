import QCFuse.Guarantees.LoopRounds

/-!
# Flushing the cache only when idle

Messages keep the invariant of the rounds, and so does a flush where nothing is in use that the
test does not look at.
-/

set_option autoImplicit false

namespace QCFuse.Guarantees.Flush

open QCFuse.Library QCFuse.Source.Flush

/-! ## Messages -/

/-- A message that leaves the batches alone. -/
theorem Inv.message {args : ServerArgs} {s s' : Scheduler} (h : Inv args s)
    (hp : Evolves s.pools s'.pools)
    (hwaiting : ∀ r ∈ s'.waitingQueue, (s'.pools.reqs r).arrived = true)
    (hgrammar : ∀ r ∈ s'.grammarQueue, (s'.pools.reqs r).arrived = true)
    (hkept : s' = { s with
      pools := s'.pools
      waitingQueue := s'.waitingQueue
      grammarQueue := s'.grammarQueue }) : Inv args s' := by
  have hcore := h.core.evolves hp
  rw [hkept]
  refine ⟨⟨hp.sound, hwaiting, hgrammar, hcore.running, hcore.last⟩, h.chunked.evolves hp rfl,
    h.shaped, h.normal, fun hoverlap => ?_, h.beyond, h.bound, fun hpp => ?_⟩
  · have hover := h.overlap hoverlap
    refine ⟨hover.idle, fun ref href => ?_, hover.running⟩
    obtain ⟨batch, hqueue, hlaunched, hreqs⟩ := hover.pending ref href
    exact ⟨batch, hqueue, hlaunched.evolves hp, hreqs⟩
  · have hpipe := h.pipeline hpp
    exact ⟨hpipe.turn, hpipe.last, hpipe.micro.evolves hp rfl rfl rfl⟩

theorem abortRequest_inv {args : ServerArgs} {s : Scheduler} (h : Inv args s)
    (rids : List ReqId) : Inv args (s.abortRequest rids) := by
  have h₁ : Evolves s.pools ((s.waitingQueue.filter (· ∈ rids)).foldl
      (fun p r => p.modify r fun req => { req with aborted := true }) s.pools) :=
    .foldl (Q := fun _ _ => True) (fun _ r _ hp _ => abort_evolves hp r) (fun _ _ _ _ => id)
      h.core.sound (fun _ _ => trivial)
  have hp : Evolves s.pools (s.abortRequest rids).pools :=
    h₁.trans (.foldl (Q := fun _ _ => True) (fun _ r _ hp _ => finish_evolves hp r)
      (fun _ _ _ _ => id) h₁.sound (fun _ _ => trivial))
  refine h.message hp ?_ ?_ rfl
  · exact fun r hr => hp.arrived (h.core.waiting r (List.mem_of_mem_filter hr))
  · exact fun r hr => hp.arrived (h.core.grammar r hr)

/-- The record of a request that arrives is new. -/
theorem arrive_evolves {p : Pools} (hs : Sound p) {r : ReqId}
    (hnew : (p.reqs r).arrived = false) (finished blendStyle : Bool) :
    Evolves p (p.modify r fun _ => .fresh finished blendStyle) := by
  have hother : ∀ r', (p.reqs r').arrived = true →
      (p.modify r fun _ => .fresh finished blendStyle).reqs r' = p.reqs r' := by
    intro r' harrived
    refine modify_other _ _ fun h => ?_
    rw [h, hnew] at harrived
    cases harrived
  refine ⟨⟨hs.unstale, hs.tree, fun r' => ?_⟩, rfl, ?_, ?_, ?_⟩
  · by_cases h : r' = r
    · subst h
      rw [modify_self]
      exact fun h => by cases h
    · rw [modify_other _ _ h]
      exact hs.output r'
  · intro r' h
    rw [hother r' h]
    exact .rfl
  · intro r' h hr'
    unfold Holds Pools.row
    rw [hother r' h]
    exact hr'
  · intro r' h
    rw [hother r' h]
    exact id

theorem addRequestToQueue_inv {args : ServerArgs} {s : Scheduler} (h : Inv args s)
    (limit : QueueLimit) {r : ReqId} (hr : (s.pools.reqs r).arrived = true) :
    Inv args (addRequestToQueue s limit r) := by
  obtain ⟨hcore, haround, _, _⟩ := addRequestToQueue_core true h.core limit hr
  refine h.message haround.pools hcore.waiting hcore.grammar ?_
  cases limit <;> rfl

theorem handleGenerateRequest_inv {args : ServerArgs} {s : Scheduler} (h : Inv args s)
    {r : ReqId} (hnew : (s.pools.reqs r).arrived = false) (grammar finished blendStyle : Bool)
    (limit : QueueLimit) :
    Inv args (s.handleGenerateRequest r grammar finished blendStyle limit) := by
  have hp := arrive_evolves h.core.sound hnew finished blendStyle
  have harrived : ((s.pools.modify r fun _ => .fresh finished blendStyle).reqs r).arrived = true := by
    rw [modify_self]
    rfl
  have hwaiting := fun r' hr' => hp.arrived (h.core.waiting r' hr')
  have hgrammar := fun r' hr' => hp.arrived (h.core.grammar r' hr')
  unfold Scheduler.handleGenerateRequest
  dsimp only
  split
  next =>
    refine h.message hp hwaiting (fun r' hr' => ?_) rfl
    cases List.mem_append.mp hr' with
    | inl hmem => exact hgrammar r' hmem
    | inr hmem =>
      rw [List.mem_singleton.mp hmem]
      exact harrived
  next => exact addRequestToQueue_inv (h.message hp hwaiting hgrammar rfl) limit harrived

/-! ## Flushing -/

/-- Every request of a processed prefill batch that is still to be merged has had its last
output. -/
def streamed (p : Pools) : Option BatchRef → Bool
  | some (.own batch) =>
    !batch.forwardMode.isExtend || batch.reqs.all fun r => (p.reqs r).finishedOutput
  | _ => true

def isOwn : Option BatchRef → Bool
  | some (.own _) => true
  | _ => false

def isPrefill : Option BatchRef → Bool
  | some (.own batch) => batch.forwardMode.isExtend
  | _ => false

/-- No request is between two chunks, every request of a processed prefill batch that is still to
be merged has had its last output, and no prefill batch has its result pending. -/
def flushSafe (args : ServerArgs) (s : Scheduler) : Bool :=
  s.chunkedReq.isNone &&
    (if args.enableOverlap then !isOwn s.lastBatch else streamed s.pools s.lastBatch) &&
    (List.range args.ppSize).all fun j =>
      streamed s.pools (s.lastMbs j) && (j == s.mbId || !isPrefill (s.mbs j))

/-- A flush whose test passes is safe. -/
def FlushGuard (args : ServerArgs) (s : Scheduler) : Label → Prop
  | .flush => s.flushTest args = true → flushSafe args s = true
  | _ => True

/-- The requests of a batch that may not be there. -/
def refReqs (running : ScheduleBatch) (ref : Option BatchRef) : List ReqId :=
  (ref.map fun ref => (ref.deref running).reqs).getD []

/-- The requests in the running batches, the last batches and the launched ones whose result is
pending, and the chunked request. -/
def inUse (args : ServerArgs) (s : Scheduler) : List ReqId :=
  s.runningBatch.reqs ++ refReqs s.runningBatch s.lastBatch ++ s.chunkedReq.toList ++
    s.resultQueue.flatMap (·.reqs) ++
    (List.range args.ppSize).flatMap fun j =>
      (s.runningMbs j).reqs ++ refReqs (s.runningMbs j) (s.lastMbs j) ++
        if j = s.mbId then [] else refReqs (s.runningMbs j) (s.mbs j)

/-- To say something of every request in use, say it of each container. -/
theorem inUse_forall {args : ServerArgs} {s : Scheduler} {P : ReqId → Prop}
    (hrunning : ∀ r ∈ s.runningBatch.reqs, P r)
    (hlast : ∀ r ∈ refReqs s.runningBatch s.lastBatch, P r)
    (hchunked : ∀ r, s.chunkedReq = some r → P r)
    (hqueue : ∀ batch ∈ s.resultQueue, ∀ r ∈ batch.reqs, P r)
    (hmbs : ∀ j, (∀ r ∈ (s.runningMbs j).reqs, P r) ∧
      (∀ r ∈ refReqs (s.runningMbs j) (s.lastMbs j), P r) ∧
      (j ≠ s.mbId → ∀ r ∈ refReqs (s.runningMbs j) (s.mbs j), P r)) :
    ∀ r ∈ inUse args s, P r := by
  intro r hr
  simp only [inUse, List.mem_append, List.mem_flatMap, Option.mem_toList] at hr
  obtain ((((hr | hr) | hr) | ⟨batch, hbatch, hr⟩) | ⟨j, _, (hr | hr) | hr⟩) := hr
  · exact hrunning r hr
  · exact hlast r hr
  · exact hchunked r hr
  · exact hqueue batch hbatch r hr
  · exact (hmbs j).1 r hr
  · exact (hmbs j).2.1 r hr
  · split at hr
    next => cases hr
    next hj => exact (hmbs j).2.2 hj r hr

theorem refReqs_running {running : ScheduleBatch} {ref : Option BatchRef} {P : ReqId → Prop}
    (hrunning : ∀ r ∈ running.reqs, P r)
    (hown : ∀ batch, ref = some (.own batch) → ∀ r ∈ batch.reqs, P r) :
    ∀ r ∈ refReqs running ref, P r := by
  intro r hr
  match ref with
  | none => cases hr
  | some .running => exact hrunning r hr
  | some (.own batch) => exact hown batch rfl r hr

/-- The slots of a request in use are current until it finishes. -/
theorem inUse_holds {args : ServerArgs} {s : Scheduler} (h : Inv args s) :
    ∀ r ∈ inUse args s, (s.pools.reqs r).finished = false → Holds s.pools r := by
  have hheld : ∀ ref, HeldRef s.pools ref → Shaped ref → ∀ batch, ref = some (.own batch) →
      ∀ r ∈ batch.reqs, (s.pools.reqs r).finished = false → Holds s.pools r := by
    intro ref href hshaped batch hbatch r hr
    cases hshaped batch hbatch with
    | inl hmode => exact (href batch hbatch hmode r hr).holds
    | inr hempty => rw [hempty] at hr; cases hr
  have hsent : ∀ batch, Launched s.pools batch → ∀ r ∈ batch.reqs,
      (s.pools.reqs r).finished = false → Holds s.pools r :=
    fun batch hb r hr _ => (hb.sent r hr).holds
  refine inUse_forall (fun r hr _ => (h.core.running r hr).holds) ?_
    (fun r hr _ => (h.chunked r hr).1.holds) ?_ ?_
  · exact refReqs_running (fun r hr _ => (h.core.running r hr).holds)
      (hheld _ h.core.last h.shaped)
  · intro batch hbatch
    cases hoverlap : args.enableOverlap with
    | false =>
      rw [h.normal hoverlap] at hbatch
      cases hbatch
    | true =>
      have hover := h.overlap hoverlap
      cases hlast : s.lastBatch with
      | none =>
        rw [hover.idle hlast] at hbatch
        cases hbatch
      | some ref =>
        obtain ⟨pending, hqueue, hlaunched, _⟩ := hover.pending ref hlast
        rw [hqueue, List.mem_singleton] at hbatch
        rw [hbatch]
        exact hsent pending hlaunched
  · intro j
    by_cases hpp : 1 < args.ppSize
    · have hmicro := (h.pipeline hpp).micro
      refine ⟨fun r hr _ => (hmicro.running j r hr).holds, ?_, fun hj => ?_⟩
      · exact refReqs_running (fun r hr _ => (hmicro.running j r hr).holds)
          (hheld _ (hmicro.lastHeld j) (hmicro.lastShaped j))
      · refine refReqs_running (fun r hr _ => (hmicro.running j r hr).holds) ?_
        exact fun batch hbatch => hsent batch (hmicro.launched j hj _ hbatch)
    · have hzero : microbatches args = 0 := if_neg hpp
      obtain ⟨hrunning, hmbs, hlast⟩ := h.beyond j (by omega)
      rw [hrunning, hmbs, hlast]
      exact ⟨fun r hr => (by cases hr), fun r hr => (by cases hr), fun _ r hr => (by cases hr)⟩

/-- What the test and the condition say of the containers. -/
structure Idle (args : ServerArgs) (s : Scheduler) : Prop where
  running : s.runningBatch.reqs = []
  runningMbs : ∀ j, (s.runningMbs j).reqs = []
  chunked : s.chunkedReq = none
  queue : s.resultQueue = []
  last : ∀ batch, s.lastBatch = some (.own batch) → ∀ r ∈ batch.reqs,
    (s.pools.reqs r).finishedOutput = true
  lastMbs : ∀ j, streamed s.pools (s.lastMbs j) = true
  mbs : ∀ j, j ≠ s.mbId → isPrefill (s.mbs j) = false

theorem streamed_own {p : Pools} {ref : Option BatchRef} (h : streamed p ref = true)
    {batch : ScheduleBatch} (href : ref = some (.own batch))
    (hmode : batch.forwardMode.isExtend = true) :
    ∀ r ∈ batch.reqs, (p.reqs r).finishedOutput = true := by
  subst href
  simpa [streamed, hmode] using h

theorem idle_of_flush {args : ServerArgs} {s : Scheduler} (h : Inv args s)
    (htest : s.flushTest args = true) (hsafe : flushSafe args s = true) : Idle args s := by
  simp only [Scheduler.flushTest, Bool.and_eq_true, List.isEmpty_iff, Bool.or_eq_true,
    beq_iff_eq, List.all_eq_true, List.mem_range] at htest
  obtain ⟨⟨_, hrunning⟩, hmbs⟩ := htest
  simp only [flushSafe, Bool.and_eq_true, Option.isNone_iff_eq_none, List.all_eq_true,
    List.mem_range, Bool.or_eq_true, beq_iff_eq, Bool.not_eq_true'] at hsafe
  obtain ⟨⟨hchunked, hlast⟩, hall⟩ := hsafe
  have hbeyond : ∀ j, ¬j < microbatches args → (s.runningMbs j).reqs = [] ∧
      s.lastMbs j = none ∧ s.mbs j = none := by
    intro j hj
    obtain ⟨hr, hm, hl⟩ := h.beyond j (by omega)
    exact ⟨by rw [hr]; rfl, hl, hm⟩
  have hbelow : ∀ j, j < microbatches args → 1 < args.ppSize ∧ j < args.ppSize := by
    intro j hj
    unfold microbatches at hj
    split at hj <;> omega
  have hown : ∀ batch, s.lastBatch = some (.own batch) → args.enableOverlap = false := by
    intro batch hbatch
    by_contra hoverlap
    rw [hbatch, if_pos (Bool.eq_true_of_not_eq_false hoverlap)] at hlast
    cases hlast
  refine ⟨hrunning, fun j => ?_, hchunked, ?_, fun batch hbatch r hr => ?_, fun j => ?_,
    fun j hj => ?_⟩
  · by_cases hj : j < microbatches args
    · exact hmbs.resolve_left (by have := hbelow j hj; omega) j (hbelow j hj).2
    · exact (hbeyond j hj).1
  · cases hoverlap : args.enableOverlap with
    | false => exact h.normal hoverlap
    | true =>
      have hover := h.overlap hoverlap
      match hbatch : s.lastBatch with
      | none => exact hover.idle hbatch
      | some .running => exact absurd hrunning (hover.running hbatch)
      | some (.own batch) =>
        rw [hown batch hbatch] at hoverlap
        cases hoverlap
  · rw [if_neg (by simp [hown batch hbatch])] at hlast
    cases h.shaped batch hbatch with
    | inl hmode => exact streamed_own hlast hbatch hmode r hr
    | inr hempty => rw [hempty] at hr; cases hr
  · by_cases hj : j < microbatches args
    · exact (hall j (hbelow j hj).2).1
    · rw [(hbeyond j hj).2.1]
      rfl
  · by_cases hlt : j < microbatches args
    · exact (hall j (hbelow j hlt).2).2.resolve_left hj
    · rw [(hbeyond j hlt).2.2]
      rfl

theorem reset_sound {p : Pools} (h : Sound p) : Sound p.reset :=
  ⟨h.unstale, .nil _, h.output⟩

theorem heldRef_reset {p : Pools} (hs : Sound p) {ref : Option BatchRef} (h : HeldRef p ref)
    (hstreamed : streamed p ref = true) : HeldRef p.reset ref := by
  intro batch hbatch hmode r hr
  refine ⟨(h batch hbatch hmode r hr).arrived, fun hfinished => ?_⟩
  have hdone := hs.output r (streamed_own hstreamed hbatch hmode r hr)
  rw [show (p.reset.reqs r).finished = (p.reqs r).finished from rfl, hdone] at hfinished
  cases hfinished

/-- A safe flush resets the pools of an idle scheduler. -/
theorem flushCache_inv {args : ServerArgs} {s : Scheduler} (h : Inv args s)
    (hguard : s.flushTest args = true → flushSafe args s = true) :
    Inv args (s.flushCache args).2 := by
  unfold Scheduler.flushCache
  split
  next htest =>
    have hidle := idle_of_flush h htest (hguard htest)
    have hwaiting : s.waitingQueue = [] := by
      simp only [Scheduler.flushTest, Bool.and_eq_true, List.isEmpty_iff] at htest
      exact htest.1.1
    have hempty : ∀ batch : ScheduleBatch, batch.reqs = [] → Launched s.pools.reset batch := by
      intro batch hreqs
      exact ⟨fun r hr => (by rw [hreqs] at hr; cases hr), fun hne => absurd hreqs hne⟩
    refine ⟨⟨reset_sound h.core.sound, fun r hr => ?_, h.core.grammar, fun r hr => ?_, .none _⟩,
      fun r hr => ?_, .none, h.normal, fun _ => ⟨fun _ => hidle.queue, ?_, ?_⟩, h.beyond, h.bound,
      fun hpp => ?_⟩
    · rw [hwaiting] at hr
      cases hr
    · rw [hidle.running] at hr
      cases hr
    · rw [hidle.chunked] at hr
      cases hr
    · exact fun _ h => by cases h
    · exact fun h => by cases h
    · have hpipe := h.pipeline hpp
      refine ⟨hpipe.turn, .inl rfl, fun j r hr => ?_, fun j => ?_, hpipe.micro.lastShaped,
        fun j hj ref href => ?_, hpipe.micro.shaped⟩
      · rw [hidle.runningMbs j] at hr
        cases hr
      · exact heldRef_reset h.core.sound (hpipe.micro.lastHeld j) (hidle.lastMbs j)
      · cases ref with
        | running => exact hempty _ (hidle.runningMbs j)
        | own batch =>
          refine hempty _ ((hpipe.micro.shaped j hj batch href).resolve_left fun hmode => ?_)
          have hprefill := hidle.mbs j hj
          rw [show s.mbs j = some (.own batch) from href] at hprefill
          rw [show batch.forwardMode.isExtend = false from hprefill] at hmode
          cases hmode
  next => exact h

theorem inv_initial (args : ServerArgs) : Inv args .initial := by
  have hnone : ∀ p, HeldRef p none := .none
  refine ⟨⟨⟨rfl, .nil _, fun _ h => (by cases h)⟩, fun _ h => (by cases h), fun _ h => (by cases h),
    fun _ h => (by cases h), hnone _⟩, fun _ h => (by cases h), .none, fun _ => rfl,
    fun _ => ⟨fun _ => rfl, fun _ h => (by cases h), fun h => (by cases h)⟩,
    fun _ _ => ⟨rfl, rfl, rfl⟩, fun hpp => Nat.lt_trans Nat.zero_lt_one hpp, fun _ => ?_⟩
  exact ⟨rfl, .inl rfl, fun _ _ h => (by cases h), fun _ => hnone _, fun _ => .none,
    fun _ _ _ h => (by cases h), fun _ _ => .none⟩

theorem step_inv {args : ServerArgs} {s s' : Scheduler} {label : Label} (h : Inv args s)
    (hguard : FlushGuard args s label) (hstep : (machine args).step label s = some s') :
    Inv args s' := by
  cases label with
  | generate r grammar finished blendStyle limit =>
    dsimp only [machine, step] at hstep
    split at hstep
    next => cases hstep
    next hnew =>
      cases hstep
      exact handleGenerateRequest_inv h (Bool.eq_false_of_not_eq_true hnew) _ _ _ _
  | abort rids =>
    cases hstep
    exact abortRequest_inv h rids
  | flush =>
    cases hstep
    exact flushCache_inv h hguard
  | round c => exact round_inv h hstep

theorem reach_inv {args : ServerArgs} {s : Scheduler}
    (h : (machine args).Reach (FlushGuard args) (· = .initial) s) : Inv args s := by
  refine h.invariant ?_ fun s s' label => step_inv
  intro s hs
  rw [hs]
  exact inv_initial args

/-- In every run whose flushes are safe, in the normal, the overlap and the pipeline loop: no slot
handed out before a reset is read or freed after it, every request in use keeps its slots until it
finishes, and a safe flush is refused without effect or finds that every request in use has had
its last message. -/
theorem flush_only_when_idle (args : ServerArgs) {s : Scheduler}
    (h : (machine args).Reach (FlushGuard args) (· = .initial) s) :
    s.pools.stale = false ∧
      (∀ r ∈ inUse args s, (s.pools.reqs r).finished = false → Holds s.pools r) ∧
      (FlushGuard args s .flush → s.flushCache args = (false, s) ∨
        ((s.flushCache args).1 = true ∧
          ∀ r ∈ inUse args s, (s.pools.reqs r).terminal = true)) := by
  have hinv := reach_inv h
  refine ⟨hinv.core.sound.unstale, inUse_holds hinv, fun hguard => ?_⟩
  unfold Scheduler.flushCache
  split
  next htest =>
    have hidle := idle_of_flush hinv htest (hguard htest)
    have hterminal : ∀ r, (s.pools.reqs r).finishedOutput = true →
        (s.pools.reqs r).terminal = true := fun r hr => by simp [Req.terminal, hr]
    have hnone : ∀ xs : List ReqId, xs = [] → ∀ r ∈ xs, (s.pools.reqs r).terminal = true :=
      fun xs hxs r hr => by rw [hxs] at hr; cases hr
    refine .inr ⟨rfl, inUse_forall (hnone _ hidle.running) ?_ (fun r hr => ?_)
      (fun batch hbatch => ?_) fun j => ⟨hnone _ (hidle.runningMbs j), ?_, fun hj => ?_⟩⟩
    · exact refReqs_running (hnone _ hidle.running)
        fun batch hbatch r hr => hterminal r (hidle.last batch hbatch r hr)
    · rw [hidle.chunked] at hr
      cases hr
    · rw [hidle.queue] at hbatch
      cases hbatch
    · refine refReqs_running (hnone _ (hidle.runningMbs j)) fun batch hbatch r hr => ?_
      by_cases hpp : 1 < args.ppSize
      · cases (hinv.pipeline hpp).micro.lastShaped j batch hbatch with
        | inl hmode => exact hterminal r (streamed_own (hidle.lastMbs j) hbatch hmode r hr)
        | inr hempty => exact hnone _ hempty r hr
      · rw [(hinv.beyond j (by rw [microbatches, if_neg hpp]; omega)).2.2] at hbatch
        cases hbatch
    · refine refReqs_running (hnone _ (hidle.runningMbs j)) fun batch hbatch => ?_
      by_cases hpp : 1 < args.ppSize
      · refine hnone _ (((hinv.pipeline hpp).micro.shaped j hj batch hbatch).resolve_left ?_)
        intro hmode
        have hprefill := hidle.mbs j hj
        rw [hbatch, show isPrefill (some (.own batch)) = batch.forwardMode.isExtend from rfl,
          hmode] at hprefill
        cases hprefill
      · rw [(hinv.beyond j (by rw [microbatches, if_neg hpp]; omega)).2.1] at hbatch
        cases hbatch
  next => exact .inl rfl

instance (args : ServerArgs) (s : Scheduler) : (label : Label) →
    Decidable (FlushGuard args s label)
  | .flush => inferInstanceAs (Decidable (s.flushTest args = true → flushSafe args s = true))
  | .generate .. => .isTrue trivial
  | .abort _ => .isTrue trivial
  | .round _ => .isTrue trivial

/-- One process, without overlap. -/
def plainArgs : ServerArgs := ⟨1, false, false, 1, by omega⟩

/-- One process, with overlap. -/
def overlapArgs : ServerArgs := ⟨1, true, false, 1, by omega⟩

/-- A round in which requests are given two slots each. -/
def plainRound (adds : List AddChoice) (finishing : List ReqId) : LoopChoice where
  cache := ⟨fun _ => [], fun _ => []⟩
  limit := fun _ => .room
  numReadyReqs := 0
  invalid := []
  truncated := false
  adds := adds
  evicted := []
  poolIdx := fun r => r
  slots := fun _ => [0, 1]
  decodeSlot := fun _ => 2
  prefillOnly := false
  mix := true
  retracted := []
  idle := false
  finishing := finishing
  newPage := fun _ => false
  delayed := fun _ => []

/-- A request arrives and is prefilled. -/
def prefillOne (r : ReqId) (finishing : List ReqId) : List Label :=
  [.generate r false false false .room,
    .round (plainRound [⟨r, [], [], [], .admitted⟩] finishing)]

theorem flush_only_when_idle_finished :
    ∃ s, (machine plainArgs).Reach (FlushGuard plainArgs) (· = .initial) s ∧
      s.flushTest plainArgs = true ∧ s.flushCache plainArgs ≠ (false, s) ∧
      s.pools.stale = false ∧ ∀ r ∈ inUse plainArgs s, (s.pools.reqs r).terminal = true := by
  have hview : ((machine plainArgs).guardedRun (FlushGuard plainArgs) (prefillOne 0 [0])
      .initial).map (fun s => (s.flushTest plainArgs, flushSafe plainArgs s)) =
      some (true, true) := by decide +kernel
  obtain ⟨s, hrun, hs⟩ := Option.map_eq_some_iff.mp hview
  obtain ⟨htest, hsafe⟩ := Prod.mk.inj hs
  have hreach : (machine plainArgs).Reach (FlushGuard plainArgs) (· = .initial) s :=
    .of_guardedRun (.start rfl) hrun
  have hflush : s.flushCache plainArgs ≠ (false, s) := by
    simp [Scheduler.flushCache, htest]
  obtain ⟨hstale, _, hidle⟩ := flush_only_when_idle plainArgs hreach
  exact ⟨s, hreach, htest, hflush, hstale, ((hidle fun _ => hsafe).resolve_left hflush).2⟩

/-- After the prefill of request 0 and before its first decode step the test passes. In the normal
loop the request is then in no container and never answered; in the overlap loop its result is
processed a round after the next request's, on slots handed out before the reset. -/
theorem flush_loses_request :
    (∃ s s', (machine plainArgs).Reach (fun _ _ => True) (· = .initial) s ∧
      (s.flushCache plainArgs).1 = true ∧
      0 ∈ inUse plainArgs s ∧ (s.pools.reqs 0).terminal = false ∧
      (machine plainArgs).run [.flush, .round (plainRound [] [])] s = some s' ∧
      0 ∉ inUse plainArgs s' ∧ 0 ∉ s'.waitingQueue ∧ (s'.pools.reqs 0).terminal = false) ∧
    ∃ s', (machine overlapArgs).Reach (fun _ _ => True) (· = .initial) s' ∧
      s'.pools.stale = true := by
  constructor
  · have hview : ((machine plainArgs).run (prefillOne 0 []) .initial).map (fun s =>
        ((s.flushCache plainArgs).1, decide (0 ∈ inUse plainArgs s), (s.pools.reqs 0).terminal,
          ((machine plainArgs).run [.flush, .round (plainRound [] [])] s).map fun s' =>
            decide (0 ∉ inUse plainArgs s' ∧ 0 ∉ s'.waitingQueue ∧
              (s'.pools.reqs 0).terminal = false))) =
        some (true, true, false, some true) := by decide +kernel
    obtain ⟨s, hrun, hs⟩ := Option.map_eq_some_iff.mp hview
    simp only [Prod.mk.injEq, decide_eq_true_eq] at hs
    obtain ⟨hflush, huse, hterminal, hlater⟩ := hs
    obtain ⟨s', hrun', hs'⟩ := Option.map_eq_some_iff.mp hlater
    exact ⟨s, s', .of_run (fun _ _ _ => trivial) (.start rfl) hrun, hflush, huse, hterminal,
      hrun', of_decide_eq_true hs'⟩
  · have hview : ((machine overlapArgs).run (prefillOne 0 [] ++ [.flush] ++ prefillOne 1 [] ++
        [.round (plainRound [] [])]) .initial).map (·.pools.stale) = some true := by
      decide +kernel
    obtain ⟨s', hrun, hstale⟩ := Option.map_eq_some_iff.mp hview
    exact ⟨s', .of_run (fun _ _ _ => trivial) (.start rfl) hrun, hstale⟩

end QCFuse.Guarantees.Flush
