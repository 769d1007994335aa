import QCFuse.Guarantees.PoolEras

/-!
# Rounds of the event loops

What the scheduler's containers hold is current (`Inv`), and a round of each loop keeps that.
-/

set_option autoImplicit false

namespace QCFuse.Guarantees.Flush

open QCFuse.Library QCFuse.Source.Flush

/-! ## The containers of the scheduler -/

/-- A request of a processed batch: its slots are current unless it has finished. -/
structure Held (p : Pools) (r : ReqId) : Prop where
  arrived : (p.reqs r).arrived = true
  holds : (p.reqs r).finished = false → Holds p r

theorem Sent.held {p : Pools} {r : ReqId} (h : Sent p r) : Held p r :=
  ⟨h.arrived, fun _ => h.holds⟩

theorem Held.evolves {p p' : Pools} {r : ReqId} (hr : Held p r) (h : Evolves p p') :
    Held p' r := by
  have hgrows := h.grows r hr.arrived
  refine ⟨h.arrived hr.arrived, fun hfinished => h.holds r hr.arrived (hr.holds ?_)⟩
  by_contra hne
  rw [hgrows.finished (Bool.eq_true_of_not_eq_false hne)] at hfinished
  cases hfinished

/-- A processed prefill batch that is still to be merged. -/
def HeldRef (p : Pools) (ref : Option BatchRef) : Prop :=
  ∀ batch, ref = some (.own batch) → batch.forwardMode.isExtend = true →
    ∀ r ∈ batch.reqs, Held p r

/-- A batch that is not the running batch is a prefill batch, or has no requests. -/
def Shaped (ref : Option BatchRef) : Prop :=
  ∀ batch, ref = some (.own batch) → batch.forwardMode.isExtend = true ∨ batch.reqs = []

structure Core (s : Scheduler) : Prop where
  sound : Sound s.pools
  waiting : ∀ r ∈ s.waitingQueue, (s.pools.reqs r).arrived = true
  grammar : ∀ r ∈ s.grammarQueue, (s.pools.reqs r).arrived = true
  running : ∀ r ∈ s.runningBatch.reqs, Sent s.pools r
  last : HeldRef s.pools s.lastBatch

def ChunkHeld (s : Scheduler) : Prop :=
  ∀ r, s.chunkedReq = some r →
    Sent s.pools r ∧ Fresh s.pools.era (s.pools.reqs r).prefixIndices

/-- What forming a batch leaves alone. -/
structure Around (mixed : Bool) (s s' : Scheduler) : Prop where
  pools : Evolves s.pools s'.pools
  resultQueue : s'.resultQueue = s.resultQueue
  mbId : s'.mbId = s.mbId
  runningMbs : s'.runningMbs = s.runningMbs
  mbs : s'.mbs = s.mbs
  lastMbs : s'.lastMbs = s.lastMbs
  lastSome : s'.lastBatch.isSome = s.lastBatch.isSome
  shaped : mixed = false → Shaped s.lastBatch → Shaped s'.lastBatch

theorem Around.refl {mixed : Bool} {s : Scheduler} (h : Sound s.pools) : Around mixed s s :=
  ⟨.refl h, rfl, rfl, rfl, rfl, rfl, rfl, fun _ => id⟩

theorem Around.trans {mixed : Bool} {a b c : Scheduler} (h : Around mixed a b)
    (h' : Around mixed b c) : Around mixed a c :=
  ⟨h.pools.trans h'.pools, h'.resultQueue.trans h.resultQueue, h'.mbId.trans h.mbId,
    h'.runningMbs.trans h.runningMbs, h'.mbs.trans h.mbs, h'.lastMbs.trans h.lastMbs,
    h'.lastSome.trans h.lastSome, fun hm => h'.shaped hm ∘ h.shaped hm⟩

theorem HeldRef.evolves {p p' : Pools} {ref : Option BatchRef} (h : HeldRef p ref)
    (hp : Evolves p p') : HeldRef p' ref :=
  fun batch href hmode r hr => (h batch href hmode r hr).evolves hp

theorem Core.evolves {s : Scheduler} (h : Core s) {p : Pools} (hp : Evolves s.pools p) :
    Core { s with pools := p } :=
  ⟨hp.sound, fun r hr => hp.arrived (h.waiting r hr),
    fun r hr => hp.arrived (h.grammar r hr),
    fun r hr => (h.running r hr).evolves hp, h.last.evolves hp⟩

theorem ChunkHeld.evolves {s s' : Scheduler} (h : ChunkHeld s) (hp : Evolves s.pools s'.pools)
    (hchunk : s'.chunkedReq = s.chunkedReq) : ChunkHeld s' := by
  intro r hr
  obtain ⟨hsent, hpre⟩ := h r (hchunk ▸ hr)
  refine ⟨hsent.evolves hp, ?_⟩
  rw [hp.era]
  exact hp.prefixed r hsent.arrived hpre

/-! ## Forming a batch -/

theorem abort_evolves {p : Pools} (hs : Sound p) (r : ReqId) :
    Evolves p (p.modify r fun req => { req with aborted := true }) := by
  refine .modify hs rfl id ⟨id, id, id⟩ ?_
  exact hs.output r

theorem finish_evolves {p : Pools} (hs : Sound p) (r : ReqId) :
    Evolves p (p.modify r fun req => { req with finished := true }) := by
  exact .modify hs rfl id ⟨id, fun _ => rfl, id⟩ (fun _ => rfl)

theorem addRequestToQueue_core (mixed : Bool) {s : Scheduler} (h : Core s) (limit : QueueLimit)
    {r : ReqId} (hr : (s.pools.reqs r).arrived = true) :
    Core (addRequestToQueue s limit r) ∧ Around mixed s (addRequestToQueue s limit r) ∧
      (addRequestToQueue s limit r).chunkedReq = s.chunkedReq ∧
      (addRequestToQueue s limit r).runningBatch = s.runningBatch := by
  cases limit with
  | room =>
    refine ⟨⟨h.sound, ?_, h.grammar, h.running, h.last⟩,
      ⟨.refl h.sound, rfl, rfl, rfl, rfl, rfl, rfl, fun _ => id⟩, rfl, rfl⟩
    intro r' hr'
    cases List.mem_append.mp hr' with
    | inl h' => exact h.waiting r' h'
    | inr h' => rwa [List.mem_singleton.mp h']
  | reject =>
    have hp := abort_evolves h.sound r
    exact ⟨h.evolves hp, ⟨hp, rfl, rfl, rfl, rfl, rfl, rfl, fun _ => id⟩, rfl, rfl⟩
  | displace victim =>
    have hp := abort_evolves h.sound victim
    have hcore := h.evolves hp
    refine ⟨⟨hp.sound, ?_, hcore.grammar, hcore.running, hcore.last⟩,
      ⟨hp, rfl, rfl, rfl, rfl, rfl, rfl, fun _ => id⟩, rfl, rfl⟩
    intro r' hr'
    cases List.mem_append.mp hr' with
    | inl h' => exact hcore.waiting r' (List.mem_of_mem_erase h')
    | inr h' =>
      rw [List.mem_singleton.mp h']
      exact hp.arrived hr

theorem addRequests_core (mixed : Bool) (limit : ReqId → QueueLimit) (reqs : List ReqId)
    {s : Scheduler} (h : Core s) (hreqs : ∀ r ∈ reqs, (s.pools.reqs r).arrived = true) :
    Core (reqs.foldl (fun s r => addRequestToQueue s (limit r) r) s) ∧
      Around mixed s (reqs.foldl (fun s r => addRequestToQueue s (limit r) r) s) ∧
      (reqs.foldl (fun s r => addRequestToQueue s (limit r) r) s).chunkedReq = s.chunkedReq ∧
      (reqs.foldl (fun s r => addRequestToQueue s (limit r) r) s).runningBatch =
        s.runningBatch := by
  induction reqs generalizing s with
  | nil => exact ⟨h, .refl h.sound, rfl, rfl⟩
  | cons r reqs ih =>
    obtain ⟨hcore, haround, hchunk, hrunning⟩ :=
      addRequestToQueue_core mixed h (limit r) (hreqs r List.mem_cons_self)
    have hrest : ∀ r' ∈ reqs,
        ((addRequestToQueue s (limit r) r).pools.reqs r').arrived = true := fun r' hr' =>
      haround.pools.arrived (hreqs r' (List.mem_cons_of_mem _ hr'))
    obtain ⟨hcore', haround', hchunk', hrunning'⟩ := ih hcore hrest
    exact ⟨hcore', haround.trans haround', hchunk'.trans hchunk, hrunning'.trans hrunning⟩

theorem moveReadyGrammarRequests_core (mixed : Bool) {s : Scheduler} (h : Core s)
    (c : LoopChoice) :
    Core (s.moveReadyGrammarRequests c) ∧ Around mixed s (s.moveReadyGrammarRequests c) ∧
      (s.moveReadyGrammarRequests c).chunkedReq = s.chunkedReq := by
  have hp : Evolves s.pools (((s.grammarQueue.take c.numReadyReqs).filter (· ∈ c.invalid)).foldl
      (fun p r => p.modify r fun req => { req with finished := true }) s.pools) :=
    .foldl (Q := fun _ _ => True) (fun p r _ hp _ => finish_evolves hp r) (fun _ _ _ _ => id)
      h.sound (fun _ _ => trivial)
  have hcore := h.evolves hp
  have hmoved : Core { s with
      pools := ((s.grammarQueue.take c.numReadyReqs).filter (· ∈ c.invalid)).foldl
        (fun p r => p.modify r fun req => { req with finished := true }) s.pools
      grammarQueue := s.grammarQueue.drop c.numReadyReqs } :=
    ⟨hp.sound, hcore.waiting, fun r hr => hcore.grammar r (List.mem_of_mem_drop hr),
      hcore.running, hcore.last⟩
  obtain ⟨hcore', haround, hchunk, _⟩ := addRequests_core mixed c.limit
    (s.grammarQueue.take c.numReadyReqs) hmoved
    (fun r hr => hcore.grammar r (List.mem_of_mem_take hr))
  refine ⟨hcore', Around.trans ?_ haround, hchunk⟩
  exact ⟨hp, rfl, rfl, rfl, rfl, rfl, rfl, fun _ => id⟩

theorem stashChunkedReq_core (mixed : Bool) (args : ServerArgs) {s : Scheduler} (h : Core s)
    (hchunk : ChunkHeld s) (c : LoopChoice) :
    Core (s.stashChunkedReq args c) ∧ Around mixed s (s.stashChunkedReq args c) ∧
      ChunkHeld (s.stashChunkedReq args c) := by
  unfold Scheduler.stashChunkedReq
  split
  next => exact ⟨h, .refl h.sound, hchunk⟩
  next r hr =>
    have hsent := (hchunk r hr).1
    have h₁ := Evolves.cacheUnfinishedReq args c.cache h.sound hsent.holds
    have hidx : Fresh (s.pools.cacheUnfinishedReq args c.cache r).era
        [((s.pools.cacheUnfinishedReq args c.cache r).reqs r).reqPoolIdx] := by
      intro slot hslot
      rw [List.mem_singleton.mp hslot]
      exact (hsent.evolves h₁).holds.1
    have hp := h₁.trans (.touch h₁.sound hidx)
    exact ⟨h.evolves hp, ⟨hp, rfl, rfl, rfl, rfl, rfl, rfl, fun _ => id⟩, hchunk.evolves hp rfl⟩

theorem mem_filterBatch {batch : ScheduleBatch} {p : Pools} {exclude : List ReqId} {r : ReqId}
    (h : r ∈ (batch.filterBatch p exclude).reqs) :
    r ∈ batch.reqs ∧ (p.reqs r).finished = false := by
  obtain ⟨hmem, hkept⟩ := List.mem_filter.mp h
  simp only [Bool.and_eq_true, Bool.not_eq_true'] at hkept
  exact ⟨hmem, hkept.1⟩

theorem joinRunning_core (mixed : Bool) {s : Scheduler} (h : Core s) {last : ScheduleBatch}
    {ref : BatchRef} (href : s.lastBatch = some ref) (hmode : last.forwardMode.isExtend = true)
    (hlast : ∀ r ∈ last.reqs, Sent s.pools r) :
    Core (s.joinRunning last ref) ∧ Around mixed s (s.joinRunning last ref) ∧
      (s.joinRunning last ref).chunkedReq = s.chunkedReq := by
  have hheld : HeldRef s.pools (some (.own last)) := by
    intro batch hbatch _ r hr
    cases hbatch
    exact (hlast r hr).held
  have hshaped : Shaped (some (.own last)) := by
    intro batch hbatch
    cases hbatch
    exact .inl hmode
  have hsome : true = s.lastBatch.isSome := by rw [href]; rfl
  have hmerged : ∀ running : ScheduleBatch, (∀ r ∈ running.reqs, Sent s.pools r) →
      ∀ r ∈ (running.mergeBatch last).reqs, Sent s.pools r :=
    fun running hrunning r hr => (List.mem_append.mp hr).elim (hrunning r) (hlast r)
  cases ref with
  | running =>
    unfold Scheduler.joinRunning
    dsimp only
    split
    next =>
      exact ⟨⟨h.sound, h.waiting, h.grammar, hlast, h.last⟩,
        ⟨.refl h.sound, rfl, rfl, rfl, rfl, rfl, rfl, fun _ => id⟩, rfl⟩
    next =>
      exact ⟨⟨h.sound, h.waiting, h.grammar, hmerged last hlast, h.last⟩,
        ⟨.refl h.sound, rfl, rfl, rfl, rfl, rfl, rfl, fun _ => id⟩, rfl⟩
  | own batch =>
    unfold Scheduler.joinRunning
    dsimp only
    split
    next =>
      exact ⟨⟨h.sound, h.waiting, h.grammar, h.running, hheld⟩,
        ⟨.refl h.sound, rfl, rfl, rfl, rfl, rfl, hsome, fun _ _ => hshaped⟩, rfl⟩
    next =>
      split
      next =>
        refine ⟨⟨h.sound, h.waiting, h.grammar, hlast, fun _ hb => (by cases hb)⟩,
          ⟨.refl h.sound, rfl, rfl, rfl, rfl, rfl, hsome, fun _ _ _ hb => ?_⟩, rfl⟩
        cases hb
      next =>
        exact ⟨⟨h.sound, h.waiting, h.grammar, hmerged _ h.running, hheld⟩,
          ⟨.refl h.sound, rfl, rfl, rfl, rfl, rfl, hsome, fun _ _ => hshaped⟩, rfl⟩

theorem mergeLastBatch_core (mixed : Bool) {s : Scheduler} (h : Core s) :
    Core s.mergeLastBatch ∧ Around mixed s s.mergeLastBatch ∧
      s.mergeLastBatch.chunkedReq = s.chunkedReq := by
  unfold Scheduler.mergeLastBatch
  split
  next => exact ⟨h, .refl h.sound, rfl⟩
  next ref href =>
    dsimp only
    split
    next hmode =>
      refine joinRunning_core mixed h href hmode fun r hr => ?_
      obtain ⟨hmem, hfinished⟩ := mem_filterBatch hr
      cases ref with
      | running => exact h.running r hmem
      | own last =>
        have hheld := h.last last href hmode r hmem
        exact ⟨hheld.arrived, hheld.holds hfinished⟩
    next => exact ⟨h, .refl h.sound, rfl⟩

/-! ## The prefill batch -/

/-- The requests chosen so far: their prefixes are current, and the chunked one is among them. -/
structure Chosen (s : Scheduler) (adder : Adder) : Prop where
  canRun : ∀ r ∈ adder.canRunList, (s.pools.reqs r).arrived = true ∧
    Fresh s.pools.era (s.pools.reqs r).prefixIndices
  preempted : ∀ r ∈ adder.preemptList, (s.pools.reqs r).arrived = true
  chunked : ∀ r, s.chunkedReq = some r ∨ adder.newChunkedReq = some r → r ∈ adder.canRunList

theorem release_evolves (c : LoopChoice) {p : Pools} (hs : Sound p) {reqs : List ReqId}
    (hreqs : ∀ r ∈ reqs, Sent p r) :
    Evolves p (reqs.foldl (fun p r => p.releaseReq c.cache c.evicted r) p) :=
  .foldl (Q := Sent) (fun _ _ _ hp hr => .releaseReq c.cache c.evicted hp hr.holds)
    (fun _ _ _ h hr => hr.evolves h) hs hreqs

theorem prefix_evolves {p p' : Pools} (h : Evolves p p') {r : ReqId}
    (harrived : (p.reqs r).arrived = true) (hr : Fresh p.era (p.reqs r).prefixIndices) : Fresh p'.era (p'.reqs r).prefixIndices := by
  rw [h.era]
  exact h.prefixed r harrived hr

theorem Chosen.evolves {s s' : Scheduler} {adder : Adder} (h : Chosen s adder)
    (hp : Evolves s.pools s'.pools) (hchunk : s'.chunkedReq = s.chunkedReq) : Chosen s' adder where
  canRun := fun r hr => ⟨hp.arrived (h.canRun r hr).1,
    prefix_evolves hp (h.canRun r hr).1 (h.canRun r hr).2⟩
  preempted := fun r hr => hp.arrived (h.preempted r hr)
  chunked := fun r hr => h.chunked r (hchunk ▸ hr)

theorem Chosen.add {s : Scheduler} {adder : Adder} (h : Chosen s adder) {r : ReqId}
    (harrived : (s.pools.reqs r).arrived = true)
    (hpre : Fresh s.pools.era (s.pools.reqs r).prefixIndices) (result : AddReqResult) :
    Chosen s (adder.add r result) := by
  have hnew : ∀ r' ∈ adder.canRunList ++ [r], (s.pools.reqs r').arrived = true ∧
      Fresh s.pools.era (s.pools.reqs r').prefixIndices := by
    intro r' hr'
    cases List.mem_append.mp hr' with
    | inl hmem => exact h.canRun r' hmem
    | inr hmem =>
      rw [List.mem_singleton.mp hmem]
      exact ⟨harrived, hpre⟩
  cases result with
  | refused => exact h
  | admitted =>
    exact ⟨hnew, h.preempted, fun r' hr' => List.mem_append_left _ (h.chunked r' hr')⟩
  | truncated =>
    refine ⟨hnew, h.preempted, fun r' hr' => ?_⟩
    cases hr' with
    | inl hr' => exact List.mem_append_left _ (h.chunked r' (.inl hr'))
    | inr hr' =>
      cases hr'
      exact List.mem_append_right _ List.mem_cons_self

theorem preemptToSchedule_core (mixed : Bool) {s : Scheduler} (h : Core s) (c : LoopChoice)
    (chosen : List ReqId) :
    Core (s.preemptToSchedule c chosen).1 ∧ Around mixed s (s.preemptToSchedule c chosen).1 ∧
      ∀ r ∈ (s.preemptToSchedule c chosen).2,
        ((s.preemptToSchedule c chosen).1.pools.reqs r).arrived = true := by
  have hsub : ∀ r ∈ s.runningBatch.reqs.filter (· ∈ chosen), Sent s.pools r :=
    fun r hr => h.running r (List.mem_of_mem_filter hr)
  have hp := release_evolves c h.sound hsub
  have hcore := h.evolves hp
  refine ⟨⟨hcore.sound, hcore.waiting, hcore.grammar, ?_, hcore.last⟩,
    ⟨hp, rfl, rfl, rfl, rfl, rfl, rfl, fun _ => id⟩, ?_⟩
  · exact fun r hr => hcore.running r (List.mem_of_mem_filter hr)
  · exact fun r hr => ((hsub r hr).evolves hp).arrived

theorem addOneReq_core (mixed : Bool) {s s' : Scheduler} {c : LoopChoice} {adder adder' : Adder}
    {a : AddChoice} (h : Core s) (hchosen : Chosen s adder)
    (hadd : s.addOneReq c adder a = some (s', adder')) :
    Core s' ∧ Around mixed s s' ∧ s'.chunkedReq = s.chunkedReq ∧ Chosen s' adder' := by
  unfold Scheduler.addOneReq at hadd
  split at hadd
  next hvalid =>
    obtain ⟨hwaiting, _, _⟩ := hvalid
    obtain ⟨hcore, haround, hpreempted⟩ :=
      preemptToSchedule_core mixed h c a.preempted
    have hchunk : (s.preemptToSchedule c a.preempted).1.chunkedReq = s.chunkedReq := rfl
    generalize s.preemptToSchedule c a.preempted = found at *
    obtain ⟨t, preempted⟩ := found
    have hround := Evolves.initNextRoundInput hcore.sound a.req a.matched
    have hp := hround.trans (.evict hround.sound a.evicted)
    have harrived := (haround.pools.trans hp).arrived (h.waiting a.req hwaiting)
    have hold : Chosen { t with
        pools := (t.pools.initNextRoundInput a.req a.matched).evict a.evicted } adder :=
      hchosen.evolves (haround.pools.trans hp) hchunk
    have hmiddle : Chosen { t with
        pools := (t.pools.initNextRoundInput a.req a.matched).evict a.evicted }
        { adder with preemptList := adder.preemptList ++ preempted } := by
      refine ⟨hold.canRun, fun r hr => ?_, hold.chunked⟩
      cases List.mem_append.mp hr with
      | inl hmem => exact hold.preempted r hmem
      | inr hmem => exact hp.arrived (hpreempted r hmem)
    have hpre := Evolves.initNextRoundInput_prefixed hcore.sound a.req a.matched
    cases hadd
    exact ⟨hcore.evolves hp, haround.trans ⟨hp, rfl, rfl, rfl, rfl, rfl, rfl, fun _ => id⟩,
      hchunk, hmiddle.add harrived hpre a.result⟩
  next => cases hadd

theorem addReqs_core (mixed : Bool) {c : LoopChoice} {adds : List AddChoice} {s s' : Scheduler}
    {adder adder' : Adder} (h : Core s) (hchosen : Chosen s adder)
    (hadds : Scheduler.addReqs c adds s adder = some (s', adder')) :
    Core s' ∧ Around mixed s s' ∧ s'.chunkedReq = s.chunkedReq ∧ Chosen s' adder' := by
  induction adds generalizing s adder with
  | nil =>
    cases hadds
    exact ⟨h, .refl h.sound, rfl, hchosen⟩
  | cons a rest ih =>
    unfold Scheduler.addReqs at hadds
    obtain ⟨⟨t, middle⟩, hone, hrest⟩ := Option.bind_eq_some_iff.mp hadds
    obtain ⟨hcore, haround, hchunk, hmiddle⟩ := addOneReq_core mixed h hchosen hone
    obtain ⟨hcore', haround', hchunk', hlast⟩ := ih hcore hmiddle hrest
    exact ⟨hcore', haround.trans haround', hchunk'.trans hchunk, hlast⟩

/-- Decoding gives each request of the running batch one more slot. -/
theorem prepareForDecode_core (mixed : Bool) {s : Scheduler} (h : Core s) (c : LoopChoice) :
    Core (s.prepareForDecode c) ∧ Around mixed s (s.prepareForDecode c) ∧
      Fresh (s.prepareForDecode c).pools.era (s.prepareForDecode c).runningBatch.outCacheLoc := by
  have h₁ := Evolves.evict h.sound c.evicted
  have hp : Evolves s.pools (s.prepareForDecode c).pools :=
    h₁.trans (.foldl (Q := Sent) (fun _ r _ hp hr => .decodeReq hp hr.holds (c.decodeSlot r))
      (fun _ _ _ hevolves hr => hr.evolves hevolves) h₁.sound
      fun r hr => (h.running r hr).evolves h₁)
  have hcore := h.evolves hp
  refine ⟨⟨hcore.sound, hcore.waiting, hcore.grammar, hcore.running, hcore.last⟩,
    ⟨hp, rfl, rfl, rfl, rfl, rfl, rfl, fun _ => id⟩, ?_⟩
  rw [hp.era]
  exact fresh_alloc _ _

/-- A batch about to be launched. -/
structure Ready (p : Pools) (batch : ScheduleBatch) : Prop where
  sent : ∀ r ∈ batch.reqs, Sent p r
  slots : Fresh p.era batch.outCacheLoc

theorem Ready.launched {p : Pools} {batch : ScheduleBatch} (h : Ready p batch) :
    Launched p batch := ⟨h.sent, fun _ => h.slots⟩

theorem Ready.evolves {p p' : Pools} {batch : ScheduleBatch} (h : Ready p batch)
    (hp : Evolves p p') : Ready p' batch :=
  ⟨fun r hr => (h.sent r hr).evolves hp, hp.era ▸ h.slots⟩

theorem mixBatch_core {s : Scheduler} (h : Core s) (c : LoopChoice) {batch : ScheduleBatch}
    (hready : Ready s.pools batch) (hmode : batch.forwardMode.isExtend = true) :
    Core (s.mixBatch c batch).1 ∧ Around true s (s.mixBatch c batch).1 ∧
      (s.mixBatch c batch).1.chunkedReq = s.chunkedReq ∧
      Ready (s.mixBatch c batch).1.pools (s.mixBatch c batch).2 ∧
      (s.mixBatch c batch).2.forwardMode.isExtend = true := by
  have hdrop : ∀ t : Scheduler, Core t → Core t.dropRunning := by
    intro t ht
    refine ⟨ht.sound, ht.waiting, ht.grammar, fun _ hr => (by cases hr), ?_⟩
    intro last hlast hlastMode r hr
    obtain ⟨ref, href, hderef⟩ := Option.map_eq_some_iff.mp hlast
    cases hderef
    cases ref with
    | running => exact (ht.running r hr).held
    | own b => exact ht.last b href hlastMode r hr
  have hfiltered : Core { s with runningBatch := s.runningBatch.filterBatch s.pools [] } :=
    ⟨h.sound, h.waiting, h.grammar, fun r hr => h.running r (mem_filterBatch hr).1, h.last⟩
  unfold Scheduler.mixBatch
  dsimp only
  split
  next =>
    refine ⟨hdrop _ hfiltered, ⟨.refl h.sound, rfl, rfl, rfl, rfl, rfl, ?_, fun hm => (by cases hm)⟩,
      rfl, hready, hmode⟩
    exact Option.isSome_map
  next =>
    obtain ⟨hcore, haround, hslots⟩ := prepareForDecode_core true hfiltered c
    refine ⟨hdrop _ hcore, ⟨haround.pools, rfl, rfl, rfl, rfl, rfl, ?_, fun hm => (by cases hm)⟩,
      rfl, ⟨?_, ?_⟩, rfl⟩
    · exact Option.isSome_map
    · intro r hr
      cases List.mem_append.mp hr with
      | inl hmem => exact (hready.sent r hmem).evolves haround.pools
      | inr hmem => exact hcore.running r hmem
    · exact ((hready.evolves haround.pools).slots).append hslots

theorem extendBatch_core (mixed : Bool) {s : Scheduler} (h : Core s) (c : LoopChoice)
    (canRunList : List ReqId)
    (hcanRun : ∀ r ∈ canRunList, (s.pools.reqs r).arrived = true ∧
      Fresh s.pools.era (s.pools.reqs r).prefixIndices) :
    Core (s.extendBatch c canRunList).1 ∧ Around mixed s (s.extendBatch c canRunList).1 ∧
      Ready (s.extendBatch c canRunList).1.pools (s.extendBatch c canRunList).2 := by
  have h₁ := Evolves.evict h.sound c.evicted
  have hstep : ∀ (p : Pools) (r : ReqId), Sound p →
      (p.reqs r).arrived = true ∧ Fresh p.era (p.reqs r).prefixIndices →
      Evolves p (p.extendReq (c.poolIdx r) (c.slots r) r) ∧
        Sent (p.extendReq (c.poolIdx r) (c.slots r) r) r :=
    fun p r hp hr => extendReq_evolves hp hr.1 hr.2 _ _
  have hkeep : ∀ (p p' : Pools) (r : ReqId), Evolves p p' →
      (p.reqs r).arrived = true ∧ Fresh p.era (p.reqs r).prefixIndices →
      (p'.reqs r).arrived = true ∧ Fresh p'.era (p'.reqs r).prefixIndices :=
    fun _ _ r hp hr => ⟨hp.arrived hr.1, prefix_evolves hp hr.1 hr.2⟩
  have hp : Evolves s.pools (s.extendBatch c canRunList).1.pools :=
    h₁.trans (.foldl (fun p r _ hp hr => (hstep p r hp hr).1) hkeep h₁.sound hcanRun)
  refine ⟨h.evolves hp, ⟨hp, rfl, rfl, rfl, rfl, rfl, rfl, fun _ => id⟩, ?_, ?_⟩
  · exact Evolves.foldl_all hstep hkeep (fun _ _ _ hevolves hr => Sent.evolves hr hevolves)
      h₁.sound hcanRun
  · rw [hp.era]
    exact fresh_alloc _ _

theorem countChunk_evolves {p : Pools} (hs : Sound p) (chunkedReq : Option ReqId) :
    Evolves p (chunkedReq.toList.foldl
      (fun p r => p.modify r fun req => { req with isChunked := req.isChunked + 1 }) p) := by
  refine .foldl (Q := fun _ _ => True) (fun p r _ hp _ => ?_) (fun _ _ _ _ => id) hs
    (fun _ _ => trivial)
  refine .modify hp rfl id ⟨id, id, id⟩ ?_
  exact hp.output r

theorem newPrefillBatch_core (args : ServerArgs) {s : Scheduler} (h : Core s) (c : LoopChoice)
    {adder : Adder} (hchosen : Chosen s adder) {chunkedReq : Option ReqId}
    (hchunk : ∀ r, chunkedReq = some r → r ∈ adder.canRunList) :
    Core (s.newPrefillBatch args c adder chunkedReq).1 ∧
      Around args.isMixedChunk s (s.newPrefillBatch args c adder chunkedReq).1 ∧
      ChunkHeld (s.newPrefillBatch args c adder chunkedReq).1 ∧
      Ready (s.newPrefillBatch args c adder chunkedReq).1.pools
        (s.newPrefillBatch args c adder chunkedReq).2 ∧
      (s.newPrefillBatch args c adder chunkedReq).2.forwardMode.isExtend = true := by
  have hwaiting : Core { s with
      waitingQueue := s.waitingQueue.filter (· ∉ adder.canRunList) } :=
    ⟨h.sound, fun r hr => h.waiting r (List.mem_of_mem_filter hr), h.grammar, h.running, h.last⟩
  obtain ⟨hcore, haround, _, _⟩ := addRequests_core args.isMixedChunk c.limit
    adder.preemptList hwaiting hchosen.preempted
  have hfiltered : Around args.isMixedChunk s { s with
      waitingQueue := s.waitingQueue.filter (· ∉ adder.canRunList) } :=
    ⟨.refl h.sound, rfl, rfl, rfl, rfl, rfl, rfl, fun _ => id⟩
  have haround := hfiltered.trans haround
  unfold Scheduler.newPrefillBatch
  dsimp only
  generalize adder.preemptList.foldl (fun s r => addRequestToQueue s (c.limit r) r)
    { s with waitingQueue := s.waitingQueue.filter (· ∉ adder.canRunList) } = t at *
  have hcount := countChunk_evolves hcore.sound chunkedReq
  generalize chunkedReq.toList.foldl
    (fun p r => p.modify r fun req => { req with isChunked := req.isChunked + 1 }) t.pools = p at *
  have hcore := hcore.evolves hcount
  have hcounted : Core { t with chunkedReq := chunkedReq, pools := p } :=
    ⟨hcount.sound, hcore.waiting, hcore.grammar, hcore.running, hcore.last⟩
  have haround₁ : Around args.isMixedChunk t { t with chunkedReq := chunkedReq, pools := p } :=
    ⟨hcount, rfl, rfl, rfl, rfl, rfl, rfl, fun _ => id⟩
  have hall := haround.pools.trans hcount
  obtain ⟨hcore', haround', hready⟩ := extendBatch_core args.isMixedChunk hcounted c
    adder.canRunList fun r hr =>
      ⟨hall.arrived (hchosen.canRun r hr).1,
        prefix_evolves hall (hchosen.canRun r hr).1 (hchosen.canRun r hr).2⟩
  have htotal := haround.trans (haround₁.trans haround')
  have hheld : ChunkHeld (Scheduler.extendBatch { t with chunkedReq := chunkedReq, pools := p } c
      adder.canRunList).1 := fun r hr =>
    ⟨hready.sent r (hchunk r hr),
      prefix_evolves (hall.trans haround'.pools) (hchosen.canRun r (hchunk r hr)).1
        (hchosen.canRun r (hchunk r hr)).2⟩
  split
  next hmix =>
    have hmixed : args.isMixedChunk = true := by
      simp only [Bool.and_eq_true] at hmix
      exact hmix.1.1
    obtain ⟨hcore₂, haround₂, hchunk₂, hready₂, hmode⟩ := mixBatch_core hcore' c hready rfl
    rw [hmixed] at htotal ⊢
    refine ⟨hcore₂, htotal.trans haround₂, ?_, hready₂, hmode⟩
    exact ChunkHeld.evolves hheld haround₂.pools hchunk₂
  next => exact ⟨hcore', htotal, hheld, hready, rfl⟩

/-- What `get_next_batch_to_run()` returns: a prefill batch, the running batch in decode mode, or a
batch without requests. -/
def ReadyRef (s : Scheduler) : Option BatchRef → Prop
  | none => True
  | some .running => Ready s.pools s.runningBatch ∧ s.runningBatch.reqs ≠ []
  | some (.own batch) =>
    Ready s.pools batch ∧ (batch.forwardMode.isExtend = true ∨ batch.reqs = [])

/-- The chunked request of the next round is the last one's, or was newly cut. -/
theorem nextChunkedReq_some {s : Scheduler} {c : LoopChoice} {adder : Adder} {r : ReqId}
    (h : s.nextChunkedReq c adder = some (some r)) :
    s.chunkedReq = some r ∨ adder.newChunkedReq = some r := by
  unfold Scheduler.nextChunkedReq at h
  cases hnew : adder.newChunkedReq with
  | none =>
    simp only [hnew, Option.some.injEq, ite_eq_iff, reduceCtorEq, and_false, or_false] at h
    exact .inl h.2
  | some r' =>
    simp only [hnew, Option.ite_none_left_eq_some, Option.some.injEq] at h
    exact .inr (congrArg some h.2)

theorem getNewBatchPrefill_core (args : ServerArgs) {s s' : Scheduler} (h : Core s)
    (hchunk : ChunkHeld s) {c : LoopChoice} {batch : Option ScheduleBatch}
    (hnew : s.getNewBatchPrefill args c = some (s', batch)) :
    Core s' ∧ Around args.isMixedChunk s s' ∧ ChunkHeld s' ∧
      ReadyRef s' (batch.map .own) := by
  obtain ⟨hcore, haround, hchunk₁⟩ :=
    moveReadyGrammarRequests_core args.isMixedChunk h c
  have hheld := hchunk.evolves haround.pools hchunk₁
  unfold Scheduler.getNewBatchPrefill at hnew
  dsimp only [bind, pure] at hnew
  obtain ⟨⟨t, adder⟩, hadds, hnew⟩ := Option.bind_eq_some_iff.mp hnew
  have hchosen : Chosen (s.moveReadyGrammarRequests c)
      ⟨(s.moveReadyGrammarRequests c).chunkedReq.toList, [], none⟩ := by
    refine ⟨fun r hr => ?_, fun r hr => (by cases hr), fun r hr => ?_⟩
    · obtain ⟨hsent, hpre⟩ := hheld r (Option.mem_toList.mp hr)
      exact ⟨hsent.arrived, hpre⟩
    · exact Option.mem_toList.mpr (hr.resolve_right (by simp))
  obtain ⟨hcore₂, haround₂, hchunk₂, hchosen₂⟩ := addReqs_core args.isMixedChunk
    hcore hchosen hadds
  have hheld₂ := hheld.evolves haround₂.pools hchunk₂
  dsimp only at hnew
  split at hnew
  next =>
    cases hnew
    exact ⟨hcore₂, haround.trans haround₂, hheld₂, trivial⟩
  next =>
    obtain ⟨chunkedReq, hnext, hnew⟩ := Option.bind_eq_some_iff.mp hnew
    have hmem : ∀ r, chunkedReq = some r → r ∈ adder.canRunList := by
      intro r hr
      subst hr
      exact hchosen₂.chunked r (nextChunkedReq_some hnext)
    obtain ⟨hcore₃, haround₃, hheld₃, hready, hmode⟩ :=
      newPrefillBatch_core args hcore₂ c hchosen₂ hmem
    cases hnew
    exact ⟨hcore₃, haround.trans (haround₂.trans haround₃), hheld₃, hready, .inl hmode⟩

/-! ## The next batch -/

theorem updateRunningBatch_core (mixed : Bool) {s s' : Scheduler} (h : Core s) {c : LoopChoice}
    (hupdate : s.updateRunningBatch c = some s') :
    Core s' ∧ Around mixed s s' ∧ s'.chunkedReq = s.chunkedReq ∧
      (s'.runningBatch.reqs ≠ [] → Ready s'.pools s'.runningBatch) := by
  have hfiltered : Core { s with runningBatch := s.runningBatch.filterBatch s.pools [] } :=
    ⟨h.sound, h.waiting, h.grammar, fun r hr => h.running r (mem_filterBatch hr).1, h.last⟩
  unfold Scheduler.updateRunningBatch at hupdate
  dsimp only at hupdate
  generalize s.runningBatch.filterBatch s.pools [] = running at *
  split at hupdate
  next hempty =>
    cases hupdate
    refine ⟨hfiltered, ⟨.refl h.sound, rfl, rfl, rfl, rfl, rfl, rfl, fun _ => id⟩, rfl, ?_⟩
    exact fun hne => absurd (List.isEmpty_iff.mp hempty) hne
  next =>
    have hevict := Evolves.evict h.sound c.evicted
    have hevicted := hfiltered.evolves hevict
    split at hupdate
    next =>
      cases hupdate
      obtain ⟨hcore, haround, hslots⟩ := prepareForDecode_core mixed hevicted c
      refine ⟨hcore, Around.trans ?_ haround, rfl, fun _ => ⟨hcore.running, hslots⟩⟩
      exact ⟨hevict, rfl, rfl, rfl, rfl, rfl, rfl, fun _ => id⟩
    next =>
      have hsub : ∀ r ∈ running.reqs.filter (· ∈ c.retracted),
          Sent (s.pools.evict c.evicted) r :=
        fun r hr => hevicted.running r (List.mem_of_mem_filter hr)
      have hrelease := release_evolves c hevict.sound hsub
      have hreleased := hevicted.evolves hrelease
      split at hupdate
      next => cases hupdate
      next =>
        have hkept : Core { s with
            pools := (running.reqs.filter (· ∈ c.retracted)).foldl
              (fun p r => p.releaseReq c.cache c.evicted r) (s.pools.evict c.evicted)
            runningBatch := running.keep (· ∉ c.retracted) } :=
          ⟨hreleased.sound, hreleased.waiting, hreleased.grammar,
            fun r hr => hreleased.running r (List.mem_of_mem_filter hr), hreleased.last⟩
        obtain ⟨hqueued, haround₁, hchunk₁, _⟩ := addRequests_core mixed c.limit
          (running.reqs.filter (· ∈ c.retracted)) hkept
          fun r hr => ((hsub r hr).evolves hrelease).arrived
        obtain ⟨hcore, haround₂, hslots⟩ := prepareForDecode_core mixed hqueued c
        cases hupdate
        refine ⟨hcore, Around.trans ?_ (haround₁.trans haround₂), hchunk₁,
          fun _ => ⟨hcore.running, hslots⟩⟩
        exact ⟨hevict.trans hrelease, rfl, rfl, rfl, rfl, rfl, rfl, fun _ => id⟩

theorem readyRef_idle (s : Scheduler) (c : LoopChoice) :
    ReadyRef s (if c.idle then some (BatchRef.own .idle) else none) := by
  split
  next => exact ⟨⟨fun _ hr => (by cases hr), .nil _⟩, .inr rfl⟩
  next => trivial

theorem getNextBatchToRun_core (args : ServerArgs) {s s' : Scheduler} (h : Core s)
    (hchunk : ChunkHeld s) {c : LoopChoice} {ref : Option BatchRef}
    (hnext : s.getNextBatchToRun args c = some (s', ref)) :
    Core s' ∧ Around args.isMixedChunk s s' ∧ ChunkHeld s' ∧ ReadyRef s' ref := by
  obtain ⟨hcore₁, haround₁, hheld₁⟩ :=
    stashChunkedReq_core args.isMixedChunk args h hchunk c
  obtain ⟨hcore₂, haround₂, hchunk₂⟩ := mergeLastBatch_core args.isMixedChunk hcore₁
  have hheld₂ := hheld₁.evolves haround₂.pools hchunk₂
  unfold Scheduler.getNextBatchToRun at hnext
  dsimp only [bind, pure] at hnext
  obtain ⟨⟨t, newBatch⟩, hnew, hnext⟩ := Option.bind_eq_some_iff.mp hnext
  obtain ⟨hcore₃, haround₃, hheld₃, hready⟩ := getNewBatchPrefill_core args hcore₂ hheld₂ hnew
  have haround := haround₁.trans (haround₂.trans haround₃)
  cases newBatch with
  | some batch =>
    cases hnext
    exact ⟨hcore₃, haround, hheld₃, hready⟩
  | none =>
    dsimp only at hnext
    split at hnext
    next =>
      cases hnext
      exact ⟨hcore₃, haround, hheld₃, readyRef_idle _ c⟩
    next =>
      obtain ⟨u, hupdate, hnext⟩ := Option.bind_eq_some_iff.mp hnext
      obtain ⟨hcore₄, haround₄, hchunk₄, hrunning⟩ :=
        updateRunningBatch_core args.isMixedChunk hcore₃ hupdate
      cases hnext
      refine ⟨hcore₄, haround.trans haround₄, hheld₃.evolves haround₄.pools hchunk₄, ?_⟩
      split
      next => exact readyRef_idle _ c
      next hne =>
        have hne : s'.runningBatch.reqs ≠ [] := fun heq => hne (by rw [heq]; rfl)
        exact ⟨hrunning hne, hne⟩

/-! ## Rounds -/

/-- In the overlap loop the last batch is the one whose result is pending. -/
structure OverlapInv (s : Scheduler) : Prop where
  idle : s.lastBatch = none → s.resultQueue = []
  pending : ∀ ref, s.lastBatch = some ref → ∃ batch, s.resultQueue = [batch] ∧
    Launched s.pools batch ∧ batch.reqs = (ref.deref s.runningBatch).reqs
  running : s.lastBatch = some .running → s.runningBatch.reqs ≠ []

/-- The microbatches' containers. Those in `pending` have a result pending. -/
structure Microbatches (s : Scheduler) (pending : Nat → Prop) : Prop where
  running : ∀ j, ∀ r ∈ (s.runningMbs j).reqs, Sent s.pools r
  lastHeld : ∀ j, HeldRef s.pools (s.lastMbs j)
  lastShaped : ∀ j, Shaped (s.lastMbs j)
  launched : ∀ j, pending j → ∀ ref, s.mbs j = some ref →
    Launched s.pools (ref.deref (s.runningMbs j))
  shaped : ∀ j, pending j → Shaped (s.mbs j)

/-- In the pipeline loop every microbatch but the current one may have a result pending. -/
structure PipelineInv (s : Scheduler) : Prop where
  turn : s.runningBatch = s.runningMbs s.mbId
  last : s.lastBatch = none ∨ s.lastBatch = s.lastMbs s.mbId
  micro : Microbatches s (· ≠ s.mbId)

/-- How many microbatches the loop has containers for. -/
def microbatches (args : ServerArgs) : Nat := if 1 < args.ppSize then args.ppSize else 0

/-- Nothing is kept for a microbatch that the loop does not have. -/
def Beyond (n : Nat) (s : Scheduler) : Prop :=
  ∀ j, n ≤ j → s.runningMbs j = .empty ∧ s.mbs j = none ∧ s.lastMbs j = none

structure Inv (args : ServerArgs) (s : Scheduler) : Prop where
  core : Core s
  chunked : ChunkHeld s
  shaped : Shaped s.lastBatch
  normal : args.enableOverlap = false → s.resultQueue = []
  overlap : args.enableOverlap = true → OverlapInv s
  beyond : Beyond (microbatches args) s
  bound : 1 < args.ppSize → s.mbId < args.ppSize
  pipeline : 1 < args.ppSize → PipelineInv s

theorem ReadyRef.ready {s : Scheduler} {ref : BatchRef} (h : ReadyRef s (some ref)) :
    Ready s.pools (ref.deref s.runningBatch) := by
  cases ref with
  | running => exact h.1
  | own batch => exact h.1

theorem ReadyRef.shaped {s : Scheduler} {ref : Option BatchRef} (h : ReadyRef s ref) :
    Shaped ref := by
  intro batch hbatch
  subst hbatch
  exact h.2

/-- A processed batch is held. -/
theorem Launched.held {p : Pools} {running : ScheduleBatch} {ref : BatchRef}
    (h : Launched p (ref.deref running)) : HeldRef p (some ref) := by
  intro batch hbatch _ r hr
  cases hbatch
  exact (h.sent r hr).held

/-- The next last batch is in its place. -/
theorem Core.next {s s' : Scheduler} (h : Core s) (hp : Evolves s.pools s'.pools)
    (hlast : HeldRef s'.pools s'.lastBatch) (hwaiting : s'.waitingQueue = s.waitingQueue)
    (hgrammar : s'.grammarQueue = s.grammarQueue)
    (hrunning : s'.runningBatch = s.runningBatch) : Core s' := by
  have hcore := h.evolves hp
  refine ⟨hp.sound, ?_, ?_, ?_, hlast⟩
  · rw [hwaiting]
    exact hcore.waiting
  · rw [hgrammar]
    exact hcore.grammar
  · rw [hrunning]
    exact hcore.running

theorem HeldRef.none (p : Pools) : HeldRef p none := fun _ h => by cases h

theorem Shaped.none : Shaped none := fun _ h => by cases h

theorem Around.beyond {mixed : Bool} {s s' : Scheduler} {n : Nat} (h : Around mixed s s')
    (hs : Beyond n s) : Beyond n s' := by
  unfold Beyond
  rw [h.runningMbs, h.mbs, h.lastMbs]
  exact hs

theorem roundNormal_inv {args : ServerArgs} {s s' : Scheduler} (h : Inv args s)
    (hsingle : ¬1 < args.ppSize) (hnormal : args.enableOverlap = false) {c : LoopChoice}
    (hround : s.roundNormal args c = some s') : Inv args s' := by
  unfold Scheduler.roundNormal at hround
  dsimp only [bind, pure] at hround
  obtain ⟨⟨t, ref⟩, hnext, hround⟩ := Option.bind_eq_some_iff.mp hround
  obtain ⟨hcore, haround, hheld, hready⟩ := getNextBatchToRun_core args h.core h.chunked hnext
  have hqueue : t.resultQueue = [] := haround.resultQueue.trans (h.normal hnormal)
  have hnot : args.enableOverlap ≠ true := by simp [hnormal]
  have hmbs := haround.beyond h.beyond
  cases ref with
  | none =>
    cases hround
    exact ⟨hcore.next (.refl hcore.sound) (.none _) rfl rfl rfl, hheld, .none, fun _ => hqueue, fun h => absurd h hnot,
      hmbs, fun h => absurd h hsingle, fun h => absurd h hsingle⟩
  | some ref =>
    have hrun := runBatch_evolves hcore.sound hready.ready.launched hready.ready.slots
    have hlaunched := hready.ready.launched.evolves hrun
    have hresult := processBatchResult_evolves args c hrun.sound hlaunched
    have hp := hrun.trans hresult
    cases hround
    exact ⟨hcore.next hp (hlaunched.evolves hresult).held rfl rfl rfl, hheld.evolves hp rfl,
      hready.shaped, fun _ => hqueue, fun h => absurd h hnot, hmbs,
      fun h => absurd h hsingle, fun h => absurd h hsingle⟩

/-- The pools and the queue of results once the next batch of an overlap round is launched. -/
theorem launch_overlap {t : Scheduler} (hcore : Core t) {ref : Option BatchRef}
    (hready : ReadyRef t ref) :
    ∃ (p : Pools) (launched : List ScheduleBatch), Evolves t.pools p ∧
      t.launchOverlap ref = { t with pools := p, resultQueue := t.resultQueue ++ launched } ∧
      (ref = none → launched = []) ∧
      ∀ ref', ref = some ref' → launched = [ref'.deref t.runningBatch] ∧
        Launched p (ref'.deref t.runningBatch) := by
  cases ref with
  | none =>
    refine ⟨t.pools, [], .refl hcore.sound, ?_, fun _ => rfl, fun _ h => by cases h⟩
    rw [List.append_nil]
    rfl
  | some ref =>
    have hrun := runBatch_evolves hcore.sound hready.ready.launched hready.ready.slots
    refine ⟨_, [ref.deref t.runningBatch], hrun, rfl, fun h => (by cases h), fun ref' h => ?_⟩
    cases h
    exact ⟨rfl, hready.ready.launched.evolves hrun⟩

theorem overlapInv_next {t s' : Scheduler} {ref : Option BatchRef} {p : Pools}
    {launched : List ScheduleBatch} (hready : ReadyRef t ref) (hp : Evolves p s'.pools)
    (hnone : ref = none → launched = [])
    (hsome : ∀ ref', ref = some ref' → launched = [ref'.deref t.runningBatch] ∧
      Launched p (ref'.deref t.runningBatch))
    (hlast : s'.lastBatch = ref) (hqueue : s'.resultQueue = launched)
    (hrunning : s'.runningBatch = t.runningBatch) : OverlapInv s' where
  idle := fun h => hqueue.trans (hnone (hlast ▸ h))
  pending := by
    intro ref' href
    obtain ⟨hlaunched, hbatch⟩ := hsome ref' (hlast ▸ href)
    rw [hrunning]
    exact ⟨_, hqueue.trans hlaunched, hbatch.evolves hp, rfl⟩
  running := by
    intro href
    rw [hrunning]
    rw [← hlast, href] at hready
    exact hready.2

theorem roundOverlap_inv {args : ServerArgs} {s s' : Scheduler} (h : Inv args s)
    (hsingle : ¬1 < args.ppSize) (hoverlap : args.enableOverlap = true) {c : LoopChoice}
    (hround : s.roundOverlap args c = some s') : Inv args s' := by
  unfold Scheduler.roundOverlap at hround
  dsimp only [bind, pure] at hround
  obtain ⟨⟨t, ref⟩, hnext, hround⟩ := Option.bind_eq_some_iff.mp hround
  obtain ⟨hcore, haround, hheld, hready⟩ := getNextBatchToRun_core args h.core h.chunked hnext
  have hmbs := haround.beyond h.beyond
  have hnot : args.enableOverlap ≠ false := by simp [hoverlap]
  obtain ⟨p, launched, hrun, heq, hnone, hsome⟩ := launch_overlap hcore hready
  have hlastHeld : HeldRef p ref := by
    cases ref with
    | none => exact .none p
    | some ref' => exact (hsome ref' rfl).2.held
  dsimp only at hround
  rw [heq] at hround
  cases hlast : s.lastBatch with
  | none =>
    have hqueue : t.resultQueue = [] := haround.resultQueue.trans ((h.overlap hoverlap).idle hlast)
    rw [hlast, hqueue] at hround
    cases hround
    exact ⟨hcore.next hrun hlastHeld rfl rfl rfl, hheld.evolves hrun rfl, hready.shaped,
      fun h => absurd h hnot,
      fun _ => overlapInv_next hready (.refl hrun.sound) hnone hsome rfl rfl rfl, hmbs, fun h => absurd h hsingle, fun h => absurd h hsingle⟩
  | some last =>
    obtain ⟨batch, hbatch, hpending, _⟩ := (h.overlap hoverlap).pending last hlast
    have hqueue : t.resultQueue = [batch] := haround.resultQueue.trans hbatch
    rw [hlast, hqueue] at hround
    have hresult := processBatchResult_evolves args c hrun.sound
      (hpending.evolves (haround.pools.trans hrun))
    have hp := hrun.trans hresult
    cases hround
    exact ⟨hcore.next hp (hlastHeld.evolves hresult) rfl rfl rfl, hheld.evolves hp rfl,
      hready.shaped, fun h => absurd h hnot,
      fun _ => overlapInv_next hready hresult hnone hsome rfl rfl rfl, hmbs,
      fun h => absurd h hsingle, fun h => absurd h hsingle⟩

theorem Microbatches.evolves {s : Scheduler} {pending : Nat → Prop} (h : Microbatches s pending)
    {s' : Scheduler} (hp : Evolves s.pools s'.pools) (hrunning : s'.runningMbs = s.runningMbs)
    (hmbs : s'.mbs = s.mbs) (hlast : s'.lastMbs = s.lastMbs) : Microbatches s' pending := by
  refine ⟨?_, ?_, ?_, ?_, ?_⟩
  · rw [hrunning]
    exact fun j r hr => (h.running j r hr).evolves hp
  · rw [hlast]
    exact fun j => (h.lastHeld j).evolves hp
  · rw [hlast]
    exact h.lastShaped
  · rw [hrunning, hmbs]
    exact fun j hj ref href => (h.launched j hj ref href).evolves hp
  · rw [hmbs]
    exact h.shaped

/-- A microbatch that was not pending is launched. -/
theorem launchPp_micro {t : Scheduler} (hcore : Core t) (hshaped : Shaped t.lastBatch)
    (hmicro : Microbatches t (· ≠ t.mbId)) {ref : Option BatchRef} (hready : ReadyRef t ref) :
    Evolves t.pools (t.launchPp ref).pools ∧ Microbatches (t.launchPp ref) (fun _ => True) := by
  have hp : Evolves t.pools (t.launchPp ref).pools := by
    cases ref with
    | none => exact .refl hcore.sound
    | some ref => exact runBatch_evolves hcore.sound hready.ready.launched hready.ready.slots
  have hold : ∀ j, j ≠ t.mbId → (t.launchPp ref).runningMbs j = t.runningMbs j ∧
      (t.launchPp ref).mbs j = t.mbs j :=
    fun j hj => ⟨Function.update_of_ne hj _ _, Function.update_of_ne hj _ _⟩
  have hnew : (t.launchPp ref).runningMbs t.mbId = t.runningBatch ∧
      (t.launchPp ref).mbs t.mbId = ref :=
    ⟨Function.update_self _ _ _, Function.update_self _ _ _⟩
  have hlast : ∀ j, (t.launchPp ref).lastMbs j = t.lastMbs j ∨
      (t.launchPp ref).lastMbs j = t.lastBatch := by
    intro j
    unfold Scheduler.launchPp
    dsimp only
    split
    next =>
      by_cases hj : j = t.mbId
      · rw [hj, Function.update_self]
        exact .inr rfl
      · rw [Function.update_of_ne hj]
        exact .inl rfl
    next => exact .inl rfl
  refine ⟨hp, ?_, ?_, ?_, ?_, ?_⟩
  · intro j r hr
    by_cases hj : j = t.mbId
    · rw [hj, hnew.1] at hr
      exact (hcore.running r hr).evolves hp
    · rw [(hold j hj).1] at hr
      exact (hmicro.running j r hr).evolves hp
  · intro j
    cases hlast j with
    | inl h =>
      rw [h]
      exact (hmicro.lastHeld j).evolves hp
    | inr h =>
      rw [h]
      exact hcore.last.evolves hp
  · intro j
    cases hlast j with
    | inl h =>
      rw [h]
      exact hmicro.lastShaped j
    | inr h =>
      rw [h]
      exact hshaped
  · intro j _ ref' href
    by_cases hj : j = t.mbId
    · subst hj
      rw [hnew.2] at href
      subst href
      rw [hnew.1]
      exact hready.ready.launched.evolves hp
    · rw [(hold j hj).2] at href
      rw [(hold j hj).1]
      exact (hmicro.launched j hj ref' href).evolves hp
  · intro j _
    by_cases hj : j = t.mbId
    · rw [hj, hnew.2]
      exact hready.shaped
    · rw [(hold j hj).2]
      exact hmicro.shaped j hj

/-- The next microbatch's result is processed, and its batch becomes its last batch. -/
theorem receivePp_micro (args : ServerArgs) (c : LoopChoice) {s : Scheduler}
    (hs : Sound s.pools) (hmicro : Microbatches s (fun _ => True)) (next : Nat) :
    Evolves s.pools (s.receivePp args c next).pools ∧
      Microbatches (s.receivePp args c next) (· ≠ next) := by
  unfold Scheduler.receivePp
  split
  next =>
    exact ⟨.refl hs, hmicro.running, hmicro.lastHeld, hmicro.lastShaped,
      fun j _ => hmicro.launched j trivial, fun j _ => hmicro.shaped j trivial⟩
  next ref href =>
    have hlaunched := hmicro.launched next trivial ref href
    have hp := processBatchResult_evolves args c hs hlaunched
    refine ⟨hp, fun j r hr => (hmicro.running j r hr).evolves hp, ?_, ?_,
      fun j _ ref' h => (hmicro.launched j trivial ref' h).evolves hp,
      fun j _ => hmicro.shaped j trivial⟩
    · intro j
      by_cases hj : j = next
      · subst hj
        dsimp only
        rw [Function.update_self]
        exact (hlaunched.evolves hp).held
      · dsimp only
        rw [Function.update_of_ne hj]
        exact (hmicro.lastHeld j).evolves hp
    · intro j
      by_cases hj : j = next
      · subst hj
        dsimp only
        rw [Function.update_self, ← href]
        exact hmicro.shaped j trivial
      · dsimp only
        rw [Function.update_of_ne hj]
        exact hmicro.lastShaped j

theorem launchPp_beyond {n : Nat} {t : Scheduler} (ref : Option BatchRef) (hmbId : t.mbId < n)
    (h : Beyond n t) : Beyond n (t.launchPp ref) := by
  intro j hj
  have hne : j ≠ t.mbId := by omega
  obtain ⟨hrunning, hmbs, hlast⟩ := h j hj
  refine ⟨(Function.update_of_ne hne _ _).trans hrunning,
    (Function.update_of_ne hne _ _).trans hmbs, ?_⟩
  unfold Scheduler.launchPp
  dsimp only
  split
  next => exact (Function.update_of_ne hne _ _).trans hlast
  next => exact hlast

theorem receivePp_beyond (args : ServerArgs) (c : LoopChoice) {n : Nat} {s : Scheduler}
    (h : Beyond n s) {next : Nat} (hnext : next < n) : Beyond n (s.receivePp args c next) := by
  unfold Scheduler.receivePp
  split
  next => exact h
  next =>
    intro j hj
    have hne : j ≠ next := by omega
    exact ⟨(h j hj).1, (h j hj).2.1, (Function.update_of_ne hne _ _).trans (h j hj).2.2⟩

theorem roundPp_inv {args : ServerArgs} {s s' : Scheduler} (h : Inv args s)
    (hpp : 1 < args.ppSize) {c : LoopChoice} (hround : s.roundPp args c = some s') :
    Inv args s' := by
  unfold Scheduler.roundPp at hround
  dsimp only [bind, pure] at hround
  obtain ⟨⟨t, ref⟩, hnext, hround⟩ := Option.bind_eq_some_iff.mp hround
  obtain ⟨hcore, haround, hheld, hready⟩ := getNextBatchToRun_core args h.core h.chunked hnext
  obtain ⟨hnormal, hmixed⟩ := args.pipelineApart hpp
  have hmicro : Microbatches t (· ≠ t.mbId) := by
    rw [haround.mbId]
    exact (h.pipeline hpp).micro.evolves haround.pools haround.runningMbs haround.mbs
      haround.lastMbs
  obtain ⟨hlaunch, hmicro₁⟩ :=
    launchPp_micro hcore (haround.shaped hmixed h.shaped) hmicro hready
  generalize hnextId : (t.mbId + 1) % args.ppSize = next at hround
  obtain ⟨hreceive, hmicro₂⟩ := receivePp_micro args c hlaunch.sound hmicro₁ next
  have hp := hlaunch.trans hreceive
  have hqueues : ((t.launchPp ref).receivePp args c next).waitingQueue = t.waitingQueue ∧
      ((t.launchPp ref).receivePp args c next).grammarQueue = t.grammarQueue ∧
      ((t.launchPp ref).receivePp args c next).chunkedReq = t.chunkedReq ∧
      ((t.launchPp ref).receivePp args c next).resultQueue = t.resultQueue := by
    unfold Scheduler.receivePp
    split <;> exact ⟨rfl, rfl, rfl, rfl⟩
  obtain ⟨hwaiting, hgrammar, hchunk, hresults⟩ := hqueues
  have hbound : next < args.ppSize := by
    rw [← hnextId]
    exact Nat.mod_lt _ (by omega)
  have hmbId : t.mbId < microbatches args := by
    unfold microbatches
    rw [if_pos hpp, haround.mbId]
    exact h.bound hpp
  have hbeyond := receivePp_beyond args c (launchPp_beyond ref hmbId (haround.beyond h.beyond))
    (show next < microbatches args by rw [microbatches, if_pos hpp]; exact hbound)
  have hcore' := hcore.evolves hp
  cases hround
  generalize (t.launchPp ref).receivePp args c next = u at *
  refine ⟨⟨hp.sound, ?_, ?_, hmicro₂.running next, hmicro₂.lastHeld next⟩,
    hheld.evolves hp hchunk, hmicro₂.lastShaped next, ?_, ?_, hbeyond, fun _ => hbound, ?_⟩
  · rw [← hwaiting] at hcore'
    exact hcore'.waiting
  · rw [← hgrammar] at hcore'
    exact hcore'.grammar
  · exact fun h' => hresults.trans (haround.resultQueue.trans (h.normal h'))
  · exact fun h' => absurd h' (by simp [hnormal])
  · exact fun _ => ⟨rfl, .inr rfl, hmicro₂.evolves (.refl hp.sound) rfl rfl rfl⟩

theorem round_inv {args : ServerArgs} {s s' : Scheduler} (h : Inv args s) {c : LoopChoice}
    (hround : s.round args c = some s') : Inv args s' := by
  unfold Scheduler.round at hround
  split at hround
  next hpp => exact roundPp_inv h hpp hround
  next hsingle =>
    split at hround
    next hoverlap => exact roundOverlap_inv h hsingle hoverlap hround
    next hnormal => exact roundNormal_inv h hsingle (Bool.eq_false_of_not_eq_true hnormal) hround

end QCFuse.Guarantees.Flush
