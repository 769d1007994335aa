import QCFuse.Library.Transition
import QCFuse.Source.OverlapSchedule

/-!
# Tokens handed from one batch to the next through the future map

A request in the running batch has its last token in the future map until a decode step reads
it there, and prefill batches launched meanwhile are given indices of the same ring.
-/

set_option autoImplicit false

namespace QCFuse.Guarantees

open QCFuse.Library QCFuse.Source

/-- A batch as launched: the indices it was given from `start` on, and the tokens sampled. -/
structure Launch where
  start : Nat
  reqs : List ReqId
  tokens : List Int
  deriving DecidableEq, Repr

def Launch.sampleOf (launch : Launch) (r : ReqId) : Option (Nat × Int) :=
  if r ∈ launch.reqs then
    (launch.tokens[launch.reqs.idxOf r]?).map fun token => (launch.start + launch.reqs.idxOf r, token)
  else none

/-- Index and token of a request's last batch; the latest launch comes first. -/
def lastSample : List Launch → ReqId → Option (Nat × Int)
  | [], _ => none
  | launch :: launches, r =>
    if r ∈ launch.reqs then launch.sampleOf r else lastSample launches r

structure OverlapState where
  sched : Scheduler
  launches : List Launch
  deriving DecidableEq, Repr

/-- Arrivals are new requests, and only waiting ones are admitted. -/
def Possible (s : Scheduler) (c : LoopChoice) : Prop :=
  c.arrived.Nodup ∧
    (∀ r ∈ c.arrived, r ∉ s.runningBatch.reqs ∧ r ∉ ((s.lastBatch.map (·.reqs)).getD []) ∧
      r ∉ s.chunkedReq.toList ∧ r ∉ s.waitingQueue) ∧
    (c.admitted.map Prod.fst).Nodup ∧
    ∀ r ∈ c.admitted.map Prod.fst, r ∈ s.waitingQueue ++ c.arrived

instance (s : Scheduler) (c : LoopChoice) : Decidable (Possible s c) :=
  inferInstanceAs (Decidable (_ ∧ _ ∧ _ ∧ _))

/-- The scheduler once the new requests have joined the waiting queue. -/
def arrive (s : Scheduler) (c : LoopChoice) : Scheduler :=
  { s with waitingQueue := s.waitingQueue ++ c.arrived }

/-- Rounds of the overlap loop that launch batches of at most `maxRunningRequests` requests. -/
def overlapMachine (maxRunningRequests : Nat) : Machine OverlapState LoopChoice where
  step c s :=
    if Possible s.sched c then
      match eventLoopOverlap s.sched c with
      | .error _ => none
      | .ok (sched, none) => some ⟨sched, s.launches⟩
      | .ok (sched, some launched) =>
        if launched.reqs.length ≤ maxRunningRequests then
          some ⟨sched, ⟨(s.sched.futureMap.allocFutureIndices launched.reqs.length).2.start,
            launched.reqs, c.nextTokenIds⟩ :: s.launches⟩
        else none
    else none

/-- A new scheduler, with whatever the buffer held. -/
def Idle (maxRunningRequests : Nat) (s : OverlapState) : Prop :=
  ∃ torchEmpty, torchEmpty.length = maxRunningRequests * 5 ∧
    s = ⟨⟨.new maxRunningRequests torchEmpty, .empty, none, none, []⟩, []⟩

/-- The next batch is given indices inside the buffer, reads it inside, and finds at each future
id the token its own request's last batch sampled under that index. -/
def HandsOver (maxRunningRequests : Nat) (s : OverlapState) (c : LoopChoice) : Prop :=
  ∀ sched batch, getNextBatchToRun (arrive s.sched c) c = .ok (sched, some batch) →
    batch.reqs.length ≤ maxRunningRequests →
    (sched.futureMap.allocFutureIndices batch.reqs.length).2.stop ≤ maxRunningRequests * 5 ∧
    ∀ (k : Nat) (r : ReqId) (ids : List Int), batch.reqs[k]? = some r → batch.inputIds[k]? = some ids →
      ∀ id ∈ ids, max (-id) 0 < maxRunningRequests * 5 ∧ (id < 0 → ∃ (n : Nat) (token : Int),
        id = -(n : Int) ∧ lastSample s.launches r = some (n, token) ∧
          sched.futureMap.tokenIdsBuf[n]? = some token)

/-- No request left in the running batch waits for a token at an index the next batch is given. -/
def IndicesFree (s : OverlapState) (c : LoopChoice) : Prop :=
  ∀ sched batch, getNextBatchToRun (arrive s.sched c) c = .ok (sched, some batch) →
    sched.runningBatch.reqs ≠ [] → ∀ id ∈ sched.runningBatch.outputIds.getD [],
      -id ∉ (sched.futureMap.allocFutureIndices batch.reqs.length).2.indices

/-! ## Rows of a batch -/

section Rows

variable (launches : List Launch) (buf : List Int)

/-- `id` stands for the token last sampled for `r`, which is in the buffer. -/
def Pending (r : ReqId) (id : Int) : Prop :=
  ∃ (n : Nat) (token : Int), 0 < n ∧ id = -(n : Int) ∧ lastSample launches r = some (n, token) ∧
    buf[n]? = some token

/-- Every request of the batch has its token pending under its output id. -/
def Rows (batch : ScheduleBatch) : Prop :=
  batch.reqs = [] ∨ ∃ ids, batch.outputIds = some ids ∧ List.Forall₂ (Pending launches buf) batch.reqs ids

variable {launches buf}

theorem Rows.outputTensor {batch : ScheduleBatch} (h : Rows launches buf batch)
    (hne : batch.reqs ≠ []) {ids : List Int} (hids : batch.outputTensor = .ok ids) :
    List.Forall₂ (Pending launches buf) batch.reqs ids := by
  rcases h with hnil | ⟨ids', hids', hrows⟩
  · exact absurd hnil hne
  · rw [ScheduleBatch.outputTensor, hids'] at hids
    cases hids
    exact hrows

end Rows

theorem gather_forall₂ {α β : Type} {R : α → β → Prop} {xs : List α} {ys : List β}
    (h : List.Forall₂ R xs ys) (indices : List Nat) :
    List.Forall₂ R (ScheduleBatch.gather xs indices) (ScheduleBatch.gather ys indices) := by
  induction indices with
  | nil => exact .nil
  | cons i indices ih =>
    have hlen := h.length_eq
    simp only [ScheduleBatch.gather, List.filterMap_cons]
    by_cases hi : i < xs.length
    · have hi' : i < ys.length := by omega
      rw [List.getElem?_eq_getElem hi, List.getElem?_eq_getElem hi']
      exact .cons (h.get hi hi') ih
    · rw [List.getElem?_eq_none (by omega), List.getElem?_eq_none (by omega)]
      exact ih

theorem gather_range {α : Type} (xs : List α) :
    ScheduleBatch.gather xs (List.range xs.length) = xs := by
  induction xs using List.reverseRecOn with
  | nil => rfl
  | append_singleton xs x ih =>
    rw [List.length_append, List.length_singleton, List.range_succ, ScheduleBatch.gather,
      List.filterMap_append]
    have hfront : (List.range xs.length).filterMap ((xs ++ [x])[·]?) = xs := by
      conv_rhs => rw [← ih]
      rw [ScheduleBatch.gather]
      refine List.filterMap_congr fun i hi => ?_
      rw [List.getElem?_append_left (List.mem_range.mp hi)]
    rw [hfront]
    simp

theorem count_gather_le {xs : List ReqId} {keep : List Nat} (hnodup : keep.Nodup)
    (hlt : ∀ i ∈ keep, i < xs.length) (r : ReqId) :
    (ScheduleBatch.gather xs keep).count r ≤ xs.count r := by
  have hsub : keep.Subperm (List.range xs.length) :=
    List.subperm_of_subset hnodup fun i hi => List.mem_range.mpr (hlt i hi)
  obtain ⟨keep', hperm, hsublist⟩ := hsub
  have hcount := (hsublist.filterMap (xs[·]?)).count_le r
  have hall : (List.range xs.length).filterMap (xs[·]?) = xs := gather_range xs
  rw [hall] at hcount
  exact (((hperm.filterMap (xs[·]?)).count_eq r).symm.le).trans hcount

section Operations

variable {launches : List Launch} {buf : List Int}

/-- `filter_batch` keeps the rows of the requests it keeps. -/
theorem filterBatch_rows {batch kept : ScheduleBatch} {keep : List Nat}
    (h : batch.filterBatch keep = .ok kept) (hrows : Rows launches buf batch) :
    Rows launches buf kept := by
  unfold ScheduleBatch.filterBatch at h
  split at h
  next =>
    cases h
    exact Or.inl rfl
  next =>
    split at h
    next =>
      cases h
      exact hrows
    next =>
      obtain ⟨ids, hids, h⟩ := bind_ok h
      cases h
      by_cases hnil : batch.reqs = []
      · refine Or.inl ?_
        rw [hnil]
        exact List.filterMap_eq_nil_iff.mpr fun _ _ => rfl
      · exact Or.inr ⟨_, rfl, gather_forall₂ (hrows.outputTensor hnil hids) keep⟩

theorem filterBatch_count_le {batch kept : ScheduleBatch} {keep : List Nat}
    (h : batch.filterBatch keep = .ok kept) (hnodup : keep.Nodup)
    (hlt : ∀ i ∈ keep, i < batch.reqs.length) (r : ReqId) :
    kept.reqs.count r ≤ batch.reqs.count r := by
  unfold ScheduleBatch.filterBatch at h
  split at h
  next =>
    cases h
    exact Nat.zero_le _
  next =>
    split at h
    next =>
      cases h
      exact le_refl _
    next =>
      obtain ⟨ids, -, h⟩ := bind_ok h
      cases h
      exact count_gather_le hnodup hlt r

theorem filterBatch_modes {batch kept : ScheduleBatch} {keep : List Nat}
    (h : batch.filterBatch keep = .ok kept) :
    kept.forwardMode = batch.forwardMode ∧ kept.chunkedReq = batch.chunkedReq := by
  unfold ScheduleBatch.filterBatch at h
  split at h
  next =>
    cases h
    exact ⟨rfl, rfl⟩
  next =>
    split at h
    next =>
      cases h
      exact ⟨rfl, rfl⟩
    next =>
      obtain ⟨ids, -, h⟩ := bind_ok h
      cases h
      exact ⟨rfl, rfl⟩

theorem unfinished_nodup (batch : ScheduleBatch) (finished exclude : List ReqId) :
    (batch.unfinished finished exclude).Nodup :=
  List.nodup_range.filter _

theorem unfinished_lt {batch : ScheduleBatch} {finished exclude : List ReqId} {i : Nat}
    (h : i ∈ batch.unfinished finished exclude) : i < batch.reqs.length :=
  List.mem_range.mp (List.mem_of_mem_filter h)

/-- Excluded requests are filtered out. -/
theorem filterBatch_unfinished {batch kept : ScheduleBatch} {finished exclude : List ReqId}
    (h : batch.filterBatch (batch.unfinished finished exclude) = .ok kept) :
    ∀ r ∈ kept.reqs, r ∉ exclude := by
  have hkeep : ∀ i ∈ batch.unfinished finished exclude, ∀ r, batch.reqs[i]? = some r → r ∉ exclude := by
    intro i hi r hr
    have := List.of_mem_filter hi
    rw [hr, Option.all_some, decide_eq_true_iff] at this
    exact this.2
  unfold ScheduleBatch.filterBatch at h
  split at h
  next =>
    cases h
    exact nofun
  next =>
    split at h
    next hall =>
      cases h
      -- all indices are kept
      intro r hr
      obtain ⟨i, hi, rfl⟩ := List.getElem_of_mem hr
      refine hkeep i ?_ _ (List.getElem?_eq_getElem hi)
      have hsub : batch.unfinished finished exclude = List.range batch.reqs.length :=
        List.filter_sublist.eq_of_length (by rw [List.length_range]; exact hall)
      rw [hsub]
      exact List.mem_range.mpr hi
    next =>
      obtain ⟨ids, -, h⟩ := bind_ok h
      cases h
      intro r hr
      obtain ⟨i, hi, hr⟩ := List.mem_filterMap.mp hr
      exact hkeep i hi r hr

/-- `merge_batch` appends the rows of the other batch. -/
theorem mergeBatch_rows {batch other merged : ScheduleBatch}
    (h : batch.mergeBatch other = .ok merged) (hne : batch.reqs ≠ []) (hne' : other.reqs ≠ [])
    (hrows : Rows launches buf batch) (hrows' : Rows launches buf other) :
    Rows launches buf merged := by
  rcases hrows with hnil | ⟨ids, hids, hrows⟩
  · exact absurd hnil hne
  · unfold ScheduleBatch.mergeBatch at h
    rw [hids] at h
    obtain ⟨otherIds, hother, h⟩ := bind_ok h
    cases h
    exact Or.inr ⟨_, rfl, List.rel_append hrows (hrows'.outputTensor hne' hother)⟩

theorem mergeBatch_reqs {batch other merged : ScheduleBatch}
    (h : batch.mergeBatch other = .ok merged) :
    merged.reqs = batch.reqs ++ other.reqs ∧ merged.chunkedReq = batch.chunkedReq := by
  unfold ScheduleBatch.mergeBatch at h
  split at h
  next =>
    cases h
    exact ⟨rfl, rfl⟩
  next =>
    obtain ⟨otherIds, -, h⟩ := bind_ok h
    cases h
    exact ⟨rfl, rfl⟩

/-- What a batch hands to the forward pass: its requests' own tokens, or a pending one. -/
def Inputs (launches : List Launch) (buf : List Int) (batch : ScheduleBatch) : Prop :=
  List.Forall₂ (fun r ids => ∀ id ∈ ids, 0 ≤ id ∨ Pending launches buf r id) batch.reqs batch.inputIds

/-- A decode step reads the rows of its batch. -/
theorem prepareForDecode_inputs {batch prepared : ScheduleBatch}
    (h : batch.prepareForDecode = .ok prepared) (hne : batch.reqs ≠ [])
    (hrows : Rows launches buf batch) :
    Inputs launches buf prepared ∧ prepared.reqs = batch.reqs ∧ prepared.forwardMode = .decode := by
  obtain ⟨ids, hids, h⟩ := bind_ok h
  cases h
  refine ⟨?_, rfl, rfl⟩
  have hpending := hrows.outputTensor hne hids
  refine List.forall₂_map_right_iff.mpr (hpending.imp fun r id hid => ?_)
  intro x hx
  rw [List.mem_singleton.mp hx]
  exact Or.inr hid

theorem mixWithRunning_inputs {batch running mixed : ScheduleBatch}
    (h : batch.mixWithRunning running = .ok mixed) (hbatch : Inputs launches buf batch)
    (hrunning : Inputs launches buf running) :
    Inputs launches buf mixed ∧ mixed.reqs = batch.reqs ++ running.reqs ∧
      mixed.forwardMode = .mixed ∧ mixed.chunkedReq = batch.chunkedReq := by
  obtain ⟨merged, hmerged, h⟩ := bind_ok h
  cases h
  have hreqs := mergeBatch_reqs hmerged
  refine ⟨?_, hreqs.1, rfl, hreqs.2⟩
  unfold Inputs
  rw [hreqs.1]
  exact List.rel_append hbatch hrunning

end Operations

/-! ## One round -/

theorem count_filter_notMem (xs ys : List ReqId) (r : ReqId) :
    (xs.filter (· ∉ ys)).count r = if r ∈ ys then 0 else xs.count r := by
  split
  next h =>
    refine List.count_eq_zero.mpr fun hmem => ?_
    have := List.of_mem_filter hmem
    rw [decide_eq_true_iff] at this
    exact this h
  next h => exact List.count_filter (decide_eq_true h)

/-- The requests of the last batch that will join the running batch. -/
def lastReqs (s : Scheduler) : List ReqId :=
  match s.lastBatch with
  | none => []
  | some last =>
    if last.forwardMode.isExtend then
      last.reqs.filter (· ∉ s.chunkedReq.toList ++ last.chunkedReq.toList)
    else []

/-- How often the scheduler holds a request. -/
def held (s : Scheduler) (r : ReqId) : Nat :=
  s.runningBatch.reqs.count r + (lastReqs s).count r + s.chunkedReq.toList.count r +
    s.waitingQueue.count r

section Round

variable {launches : List Launch} {buf : List Int}

theorem mergeLastBatch_spec {s s' : Scheduler} {c : LoopChoice} (h : mergeLastBatch s c = .ok s')
    (hrunning : Rows launches buf s.runningBatch)
    (hlast : ∀ last, s.lastBatch = some last → last.forwardMode.isExtend = true →
      Rows launches buf last) :
    Rows launches buf s'.runningBatch ∧ s'.futureMap = s.futureMap ∧ s'.chunkedReq = s.chunkedReq ∧
      s'.waitingQueue = s.waitingQueue ∧
      ∀ r, s'.runningBatch.reqs.count r ≤ s.runningBatch.reqs.count r + (lastReqs s).count r := by
  unfold mergeLastBatch at h
  split at h
  next =>
    cases h
    exact ⟨hrunning, rfl, rfl, rfl, fun r => Nat.le_add_right _ _⟩
  next last hlastBatch =>
    split at h
    next hextend =>
      obtain ⟨kept, hkept, h⟩ := bind_ok h
      have hrows := filterBatch_rows hkept (hlast last hlastBatch hextend)
      have hcount : ∀ r, kept.reqs.count r ≤ (lastReqs s).count r := by
        intro r
        have hle := filterBatch_count_le hkept (unfinished_nodup _ _ _) (fun i => unfinished_lt) r
        have hout := filterBatch_unfinished hkept
        simp only [lastReqs, hlastBatch, hextend, if_true]
        rw [count_filter_notMem]
        split
        next hex => exact le_of_eq (List.count_eq_zero.mpr fun hmem => hout r hmem hex)
        next => exact hle
      split at h
      next =>
        cases h
        exact ⟨hrunning, rfl, rfl, rfl, fun r => Nat.le_add_right _ _⟩
      next hkeptNe =>
        split at h
        next hempty =>
          cases h
          exact ⟨hrows, rfl, rfl, rfl, fun r => (hcount r).trans (Nat.le_add_left _ _)⟩
        next hne =>
          obtain ⟨merged, hmerged, h⟩ := bind_ok h
          cases h
          rw [Bool.or_eq_true, not_or] at hkeptNe
          refine ⟨mergeBatch_rows hmerged ?_ ?_ hrunning hrows, rfl, rfl, rfl, fun r => ?_⟩
          · rintro hnil
            rw [hnil] at hne
            exact hne rfl
          · rintro hnil
            rw [hnil] at hkeptNe
            exact hkeptNe.1 rfl
          · have := hcount r
            rw [(mergeBatch_reqs hmerged).1, List.count_append]
            omega
    next =>
      cases h
      exact ⟨hrunning, rfl, rfl, rfl, fun r => Nat.le_add_right _ _⟩

theorem checkKeep_ok {keep : List Nat} {batch : ScheduleBatch} {u : Unit}
    (h : checkKeep keep batch = .ok u) : keep.Nodup ∧ ∀ i ∈ keep, i < batch.reqs.length := by
  unfold checkKeep at h
  split at h
  next hkeep => exact hkeep
  next => cases h

theorem preempt_spec {running kept : ScheduleBatch} {preempted : List ReqId} {c : LoopChoice}
    (h : preempt running c = .ok (kept, preempted)) (hrows : Rows launches buf running) :
    Rows launches buf kept ∧
      ∀ r, kept.reqs.count r + preempted.count r ≤ running.reqs.count r := by
  unfold preempt at h
  split at h
  next =>
    cases h
    exact ⟨hrows, fun r => le_refl _⟩
  next keep _ =>
    obtain ⟨u, hcheck, h⟩ := bind_ok h
    obtain ⟨kept', hkept, h⟩ := bind_ok h
    cases h
    have hkeep := checkKeep_ok hcheck
    refine ⟨filterBatch_rows hkept hrows, fun r => ?_⟩
    have hle := filterBatch_count_le hkept hkeep.1 hkeep.2 r
    rw [count_filter_notMem]
    split
    next => exact hle
    next hnot => rw [List.count_eq_zero.mpr hnot, Nat.zero_add]

/-- A batch about to be launched out of scheduler `s`, which is `s'` by then. -/
structure NextBatch (launches : List Launch) (buf : List Int) (s s' : Scheduler)
    (batch : ScheduleBatch) : Prop where
  inputs : Inputs launches buf batch
  running : batch.forwardMode.isExtend = true → Rows launches buf s'.runningBatch
  chunked : ∀ r ∈ s'.chunkedReq.toList, r ∈ batch.reqs ∧ batch.forwardMode.isExtend = true
  futureMap : s'.futureMap = s.futureMap
  once : ∀ r, (if batch.forwardMode.isExtend then s'.runningBatch.reqs.count r else 0) +
      batch.reqs.count r + s'.waitingQueue.count r ≤
    s.runningBatch.reqs.count r + s.chunkedReq.toList.count r + s.waitingQueue.count r

theorem canRunList_inputs (s : Scheduler) (c : LoopChoice) :
    List.Forall₂ (fun r ids => ∀ id ∈ ids, 0 ≤ id ∨ Pending launches buf r id)
      ((canRunList s c).map Prod.fst) ((canRunList s c).map Prod.snd) := by
  rw [List.forall₂_map_left_iff, List.forall₂_map_right_iff, List.forall₂_same]
  intro entry hentry id hid
  refine Or.inl ?_
  rcases List.mem_append.mp hentry with hmem | hmem
  · obtain ⟨r, -, rfl⟩ := List.mem_map.mp hmem
    obtain ⟨n, -, rfl⟩ := List.mem_map.mp hid
    exact Int.natCast_nonneg n
  · obtain ⟨r, -, rfl⟩ := List.mem_map.mp hmem
    obtain ⟨n, -, rfl⟩ := List.mem_map.mp hid
    exact Int.natCast_nonneg n

theorem canRunList_reqs (s : Scheduler) (c : LoopChoice) :
    (canRunList s c).map Prod.fst = s.chunkedReq.toList ++ c.admitted.map Prod.fst := by
  simp [canRunList, List.map_map, Function.comp_def]

/-- Admitted requests leave the waiting queue. -/
theorem count_admitted {s : Scheduler} {c : LoopChoice} (hnodup : (c.admitted.map Prod.fst).Nodup)
    (hwaiting : ∀ r ∈ c.admitted.map Prod.fst, r ∈ s.waitingQueue) (r : ReqId) :
    ((canRunList s c).map Prod.fst).count r +
        (s.waitingQueue.filter (· ∉ (canRunList s c).map Prod.fst)).count r ≤
      s.chunkedReq.toList.count r + s.waitingQueue.count r := by
  rw [count_filter_notMem, canRunList_reqs, List.count_append]
  by_cases hadmitted : r ∈ c.admitted.map Prod.fst
  · have hone := List.count_eq_one_of_mem hnodup hadmitted
    have hpos := List.count_pos_iff.mpr (hwaiting r hadmitted)
    rw [if_pos (List.mem_append_right _ hadmitted), hone]
    omega
  · rw [List.count_eq_zero.mpr hadmitted]
    split <;> omega

theorem nextChunkedReq_mem {s : Scheduler} {c : LoopChoice} {chunkedReq : Option ReqId}
    (h : nextChunkedReq s c = .ok chunkedReq) :
    ∀ r ∈ chunkedReq.toList, r ∈ (canRunList s c).map Prod.fst := by
  intro r hr
  rw [canRunList_reqs, List.mem_append]
  simp only [nextChunkedReq] at h
  split at h
  next =>
    split at h
    next => cases h
    next =>
      cases h
      right
      obtain ⟨entry, hentry, rfl⟩ := Option.map_eq_some_iff.mp (Option.mem_toList.mp hr)
      exact List.mem_map_of_mem (List.mem_of_getLast? hentry)
  next =>
    cases h
    left
    split at hr
    next => exact hr
    next => cases hr

/-- A new prefill batch, mixed with the running batch or not. -/
theorem getNewBatchPrefill_some {s s' : Scheduler} {c : LoopChoice} {batch : ScheduleBatch}
    (h : getNewBatchPrefill s c = .ok (s', some batch))
    (hrows : Rows launches buf s.runningBatch) (hnodup : (c.admitted.map Prod.fst).Nodup)
    (hwaiting : ∀ r ∈ c.admitted.map Prod.fst, r ∈ s.waitingQueue) :
    NextBatch launches buf s s' batch := by
  obtain ⟨⟨kept, preempted⟩, hpreempt, h⟩ := bind_ok h
  have hkept := preempt_spec hpreempt hrows
  have hadmitted := count_admitted hnodup hwaiting
  simp only at h
  split at h
  next => cases h
  next =>
    obtain ⟨chunkedReq, hchunked, h⟩ := bind_ok h
    have hmem := nextChunkedReq_mem hchunked
    split at h
    next =>
      obtain ⟨running, hrunning, h⟩ := bind_ok h
      have hrunningRows := filterBatch_rows hrunning hkept.1
      have hcount := filterBatch_count_le hrunning (unfinished_nodup _ _ _) (fun i => unfinished_lt)
      split at h
      next =>
        cases h
        refine ⟨canRunList_inputs s c, fun _ => Or.inl rfl, fun r hr => ⟨hmem r hr, rfl⟩, rfl, fun r => ?_⟩
        have := hkept.2 r
        have := hadmitted r
        simp only [ForwardMode.isExtend, if_true, ScheduleBatch.empty, List.count_nil, List.count_append]
        omega
      next hne =>
        obtain ⟨prepared, hprepared, h⟩ := bind_ok h
        obtain ⟨mixed, hmixed, h⟩ := bind_ok h
        cases h
        have hinputs := prepareForDecode_inputs hprepared (by
          rintro hnil
          rw [hnil] at hne
          exact hne rfl) hrunningRows
        have hmix := mixWithRunning_inputs hmixed (canRunList_inputs s c) hinputs.1
        have hextend : batch.forwardMode.isExtend = true := by
          rw [hmix.2.2.1]
          rfl
        refine ⟨hmix.1, fun _ => Or.inl rfl, fun r hr => ⟨?_, hextend⟩, rfl, fun r => ?_⟩
        · rw [hmix.2.1]
          exact List.mem_append_left _ (hmem r hr)
        · have := hkept.2 r
          have := hadmitted r
          have := hcount r
          rw [hmix.2.1, hinputs.2.1]
          simp only [hextend, if_true, ScheduleBatch.empty, List.count_nil, List.count_append]
          omega
    next =>
      cases h
      refine ⟨canRunList_inputs s c, fun _ => hkept.1, fun r hr => ⟨hmem r hr, rfl⟩, rfl, fun r => ?_⟩
      have := hkept.2 r
      have := hadmitted r
      simp only [ForwardMode.isExtend, if_true, List.count_append]
      omega

theorem getNewBatchPrefill_none {s s' : Scheduler} {c : LoopChoice}
    (h : getNewBatchPrefill s c = .ok (s', none)) (hrows : Rows launches buf s.runningBatch) :
    Rows launches buf s'.runningBatch ∧ s'.futureMap = s.futureMap ∧ s.chunkedReq = none ∧
      s'.chunkedReq = none ∧ s'.waitingQueue = s.waitingQueue ∧
      ∀ r, s'.runningBatch.reqs.count r ≤ s.runningBatch.reqs.count r := by
  obtain ⟨⟨kept, preempted⟩, hpreempt, h⟩ := bind_ok h
  have hkept := preempt_spec hpreempt hrows
  simp only at h
  split at h
  next hempty =>
    cases h
    have hchunked : s.chunkedReq = none := by
      cases hreq : s.chunkedReq with
      | none => rfl
      | some r =>
        rw [canRunList, hreq] at hempty
        cases hempty
    refine ⟨hkept.1, rfl, hchunked, hchunked, rfl, fun r => ?_⟩
    have := hkept.2 r
    show kept.reqs.count r ≤ _
    omega
  next =>
    obtain ⟨chunkedReq, -, h⟩ := bind_ok h
    split at h
    next =>
      obtain ⟨running, -, h⟩ := bind_ok h
      split at h
      next => cases h
      next =>
        obtain ⟨prepared, -, h⟩ := bind_ok h
        obtain ⟨mixed, -, h⟩ := bind_ok h
        cases h
    next => cases h

/-- A decode step takes the whole running batch but for retracted requests. -/
theorem updateRunningBatch_spec {running prepared : ScheduleBatch} {retracted : List ReqId}
    {c : LoopChoice} (h : updateRunningBatch running c = .ok (prepared, retracted))
    (hrows : Rows launches buf running) :
    (prepared.reqs ≠ [] → Inputs launches buf prepared ∧ prepared.forwardMode = .decode) ∧
      ∀ r, prepared.reqs.count r + retracted.count r ≤ running.reqs.count r := by
  obtain ⟨batch, hbatch, h⟩ := bind_ok h
  have hbatchRows := filterBatch_rows hbatch hrows
  have hcount := filterBatch_count_le hbatch (unfinished_nodup _ _ _) (fun i => unfinished_lt)
  split at h
  next hempty =>
    cases h
    exact ⟨fun hne => absurd (List.isEmpty_iff.mp hempty) hne, fun r => hcount r⟩
  next hne =>
    rw [List.isEmpty_iff] at hne
    split at h
    next =>
      obtain ⟨batch', hprepared, h⟩ := bind_ok h
      cases h
      have hinputs := prepareForDecode_inputs hprepared hne hbatchRows
      refine ⟨fun _ => ⟨hinputs.1, hinputs.2.2⟩, fun r => ?_⟩
      rw [hinputs.2.1]
      exact hcount r
    next keep _ =>
      obtain ⟨u, hcheck, h⟩ := bind_ok h
      obtain ⟨kept, hkept, h⟩ := bind_ok h
      obtain ⟨batch', hprepared, h⟩ := bind_ok h
      cases h
      have hkeep := checkKeep_ok hcheck
      have hle := filterBatch_count_le hkept hkeep.1 hkeep.2
      have hreqs : prepared.reqs = kept.reqs := by
        obtain ⟨ids, -, h⟩ := bind_ok hprepared
        cases h
        rfl
      refine ⟨fun hne' => ?_, fun r => ?_⟩
      · have hinputs := prepareForDecode_inputs hprepared (hreqs ▸ hne') (filterBatch_rows hkept hbatchRows)
        exact ⟨hinputs.1, hinputs.2.2⟩
      · rw [hreqs, count_filter_notMem]
        have := hle r
        have := hcount r
        split
        next => omega
        next hnot =>
          rw [List.count_eq_zero.mpr hnot]
          omega

theorem getNextBatchToRun_some {s s' : Scheduler} {c : LoopChoice} {batch : ScheduleBatch}
    (h : getNextBatchToRun s c = .ok (s', some batch)) (hrunning : Rows launches buf s.runningBatch)
    (hlast : ∀ last, s.lastBatch = some last → last.forwardMode.isExtend = true →
      Rows launches buf last)
    (hnodup : (c.admitted.map Prod.fst).Nodup)
    (hwaiting : ∀ r ∈ c.admitted.map Prod.fst, r ∈ s.waitingQueue) :
    ∃ merged : Scheduler, merged.futureMap = s.futureMap ∧
      (∀ r, merged.runningBatch.reqs.count r + merged.chunkedReq.toList.count r +
        merged.waitingQueue.count r ≤ held s r) ∧ NextBatch launches buf merged s' batch := by
  obtain ⟨merged, hmerge, h⟩ := bind_ok h
  obtain ⟨⟨s₂, newBatch⟩, hprefill, h⟩ := bind_ok h
  obtain ⟨hrows, hmap, hchunked, hqueue, hcount⟩ := mergeLastBatch_spec hmerge hrunning hlast
  refine ⟨merged, hmap, fun r => ?_, ?_⟩
  · have := hcount r
    rw [hchunked, hqueue, held]
    omega
  cases newBatch with
  | some newBatch =>
    cases h
    exact getNewBatchPrefill_some hprefill hrows hnodup (by rwa [hqueue])
  | none =>
    obtain ⟨hrows₂, hmap₂, hnone, hnone₂, hqueue₂, hcount₂⟩ := getNewBatchPrefill_none hprefill hrows
    simp only at h
    split at h
    next => cases h
    next =>
      obtain ⟨⟨prepared, retracted⟩, hupdate, h⟩ := bind_ok h
      obtain ⟨hprepared, hretracted⟩ := updateRunningBatch_spec hupdate hrows₂
      simp only at h
      split at h
      next => cases h
      next hne =>
        cases h
        rw [List.isEmpty_iff] at hne
        obtain ⟨hinputs, hmode⟩ := hprepared hne
        refine ⟨hinputs, fun hextend => ?_, fun r hr => ?_, hmap₂, fun r => ?_⟩
        · rw [hmode] at hextend
          cases hextend
        · rw [show s₂.chunkedReq = none from hnone₂] at hr
          cases hr
        · have := hretracted r
          have := hcount₂ r
          simp only [hmode, ForwardMode.isExtend, Bool.false_eq_true, if_false, List.count_append, hqueue₂]
          omega

/-- A round that launches nothing has no request in between. -/
theorem getNextBatchToRun_none {s s' : Scheduler} {c : LoopChoice}
    (h : getNextBatchToRun s c = .ok (s', none)) (hrunning : Rows launches buf s.runningBatch)
    (hlast : ∀ last, s.lastBatch = some last → last.forwardMode.isExtend = true →
      Rows launches buf last) :
    Rows launches buf s'.runningBatch ∧ s'.futureMap = s.futureMap ∧ s'.chunkedReq = none ∧
      ∀ r, s'.runningBatch.reqs.count r + s'.waitingQueue.count r ≤ held s r := by
  obtain ⟨merged, hmerge, h⟩ := bind_ok h
  obtain ⟨⟨s₂, newBatch⟩, hprefill, h⟩ := bind_ok h
  obtain ⟨hrows, hmap, hchunked, hqueue, hcount⟩ := mergeLastBatch_spec hmerge hrunning hlast
  cases newBatch with
  | some newBatch => cases h
  | none =>
    obtain ⟨hrows₂, hmap₂, hnone, hnone₂, hqueue₂, hcount₂⟩ := getNewBatchPrefill_none hprefill hrows
    simp only at h
    split at h
    next =>
      cases h
      refine ⟨hrows₂, hmap₂.trans hmap, hnone₂, fun r => ?_⟩
      have := hcount r
      have := hcount₂ r
      rw [hqueue₂, hqueue, held]
      omega
    next =>
      obtain ⟨⟨prepared, retracted⟩, hupdate, h⟩ := bind_ok h
      obtain ⟨-, hretracted⟩ := updateRunningBatch_spec hupdate hrows₂
      simp only at h
      split at h
      next hempty =>
        cases h
        refine ⟨Or.inl (List.isEmpty_iff.mp hempty), hmap₂.trans hmap, hnone₂, fun r => ?_⟩
        have := hcount r
        have := hcount₂ r
        have := hretracted r
        simp only [List.count_append, hqueue₂, hqueue, held]
        omega
      next => cases h

end Round

/-! ## The ring -/

/-- What the launch leaves pending stays so, away from the indices it is given. -/
theorem Pending.launch {launches : List Launch} {buf : List Int} {r : ReqId} {id : Int}
    (h : Pending launches buf r id) {launch : Launch} (hreq : r ∉ launch.reqs)
    (hbuf : launch.start + launch.tokens.length ≤ buf.length)
    (hfree : ¬ ((launch.start : Int) ≤ -id ∧ -id < launch.start + launch.tokens.length)) :
    Pending (launch :: launches) (overwrite buf launch.start launch.tokens) r id := by
  obtain ⟨n, token, hn, rfl, hsample, hget⟩ := h
  refine ⟨n, token, hn, rfl, ?_, ?_⟩
  · rw [lastSample, if_neg hreq]
    exact hsample
  · rw [overwrite, List.append_assoc]
    rcases lt_or_ge n launch.start with hlt | hge
    · rw [List.getElem?_append_left (by rw [List.length_take]; omega), List.getElem?_take,
        if_pos hlt]
      exact hget
    · rw [List.getElem?_append_right (by rw [List.length_take]; omega),
        List.getElem?_append_right (by rw [List.length_take]; omega), List.getElem?_drop,
        List.length_take, ← hget]
      congr 1
      omega

/-- A launched request has its token pending under its own index. -/
theorem Pending.launched (launches : List Launch) {buf : List Int} (launch : Launch)
    (hnodup : launch.reqs.Nodup) (hstart : 0 < launch.start)
    (hlen : launch.tokens.length = launch.reqs.length)
    (hbuf : launch.start + launch.tokens.length ≤ buf.length) {k : Nat} {r : ReqId}
    (hk : launch.reqs[k]? = some r) :
    Pending (launch :: launches) (overwrite buf launch.start launch.tokens) r
      (-((launch.start + k : Nat) : Int)) := by
  obtain ⟨hlt, rfl⟩ := List.getElem?_eq_some_iff.mp hk
  have hidx : launch.reqs.idxOf launch.reqs[k] = k := hnodup.idxOf_getElem k hlt
  have hget : launch.tokens[k]? = some (launch.tokens[k]) := List.getElem?_eq_getElem (by omega)
  refine ⟨launch.start + k, launch.tokens[k], by omega, rfl, ?_, ?_⟩
  · rw [lastSample, if_pos (List.getElem_mem hlt), Launch.sampleOf, if_pos (List.getElem_mem hlt), hidx,
      hget]
    rfl
  · rw [overwrite, List.append_assoc, List.getElem?_append_right (by rw [List.length_take]; omega),
      List.length_take, Nat.min_eq_left (by omega), Nat.add_sub_cancel_left,
      List.getElem?_append_left (by omega), hget]

/-- What a run of rounds with free indices keeps. -/
structure OverlapInv (maxRunningRequests : Nat) (s : OverlapState) : Prop where
  limit : s.sched.futureMap.futureLimit = maxRunningRequests * 3
  counter : s.sched.futureMap.futureCt < maxRunningRequests * 3
  buffer : s.sched.futureMap.tokenIdsBuf.length = maxRunningRequests * 5
  running : Rows s.launches s.sched.futureMap.tokenIdsBuf s.sched.runningBatch
  last : ∀ last, s.sched.lastBatch = some last → last.forwardMode.isExtend = true →
    Rows s.launches s.sched.futureMap.tokenIdsBuf last
  once : ∀ r, held s.sched r ≤ 1

theorem idle_inv {maxRunningRequests : Nat} (hpos : 1 ≤ maxRunningRequests) {s : OverlapState}
    (h : Idle maxRunningRequests s) : OverlapInv maxRunningRequests s := by
  obtain ⟨torchEmpty, hlen, rfl⟩ := h
  exact ⟨rfl, by simp only [FutureMap.new]; omega, hlen, Or.inl rfl, nofun, fun r => Nat.zero_le _⟩

/-- New requests are held by nobody yet. -/
theorem held_arrive {s : Scheduler} {c : LoopChoice} (h : Possible s c) (hs : ∀ r, held s r ≤ 1)
    (r : ReqId) : held (arrive s c) r ≤ 1 := by
  have hheld : held (arrive s c) r = held s r + c.arrived.count r := by
    have hlast : lastReqs (arrive s c) = lastReqs s := rfl
    rw [held, held, hlast]
    simp only [arrive, List.count_append]
    omega
  rw [hheld]
  by_cases hr : r ∈ c.arrived
  · obtain ⟨hrunning, hlast, hchunked, hwaiting⟩ := h.2.1 r hr
    have hnone : held s r = 0 := by
      have hlastReqs : (lastReqs s).count r = 0 := by
        refine List.count_eq_zero.mpr fun hmem => hlast ?_
        unfold lastReqs at hmem
        cases hbatch : s.lastBatch with
        | none =>
          rw [hbatch] at hmem
          cases hmem
        | some last =>
          simp only [hbatch] at hmem
          split at hmem
          next => exact List.mem_of_mem_filter hmem
          next => cases hmem
      rw [held, List.count_eq_zero.mpr hrunning, List.count_eq_zero.mpr hchunked,
        List.count_eq_zero.mpr hwaiting, hlastReqs]
    rw [hnone, List.count_eq_one_of_mem h.1 hr]
  · rw [List.count_eq_zero.mpr hr]
    exact hs r

theorem OverlapInv.next {maxRunningRequests : Nat} {s : OverlapState}
    (h : OverlapInv maxRunningRequests s) {c : LoopChoice} (hpossible : Possible s.sched c)
    {sched : Scheduler} {batch : ScheduleBatch}
    (hnext : getNextBatchToRun (arrive s.sched c) c = .ok (sched, some batch)) :
    ∃ merged : Scheduler, merged.futureMap = s.sched.futureMap ∧
      (∀ r, merged.runningBatch.reqs.count r + merged.chunkedReq.toList.count r +
        merged.waitingQueue.count r ≤ 1) ∧
      NextBatch s.launches s.sched.futureMap.tokenIdsBuf merged sched batch := by
  obtain ⟨merged, hmap, hcount, hbatch⟩ :=
    getNextBatchToRun_some hnext h.running h.last hpossible.2.2.1 hpossible.2.2.2
  exact ⟨merged, hmap, fun r => (hcount r).trans (held_arrive hpossible h.once r), hbatch⟩

/-- Under the invariant the next batch finds its tokens. -/
theorem OverlapInv.handsOver {maxRunningRequests : Nat} {s : OverlapState}
    (h : OverlapInv maxRunningRequests s) {c : LoopChoice} (hpossible : Possible s.sched c) :
    HandsOver maxRunningRequests s c := by
  intro sched batch hnext hsize
  obtain ⟨merged, hmap, -, hbatch⟩ := h.next hpossible hnext
  have hsched : sched.futureMap = s.sched.futureMap := hbatch.futureMap.trans hmap
  rw [hsched]
  have hcounter := h.counter
  refine ⟨by simp only [FutureMap.allocFutureIndices]; omega, fun k r ids hr hids id hid => ?_⟩
  obtain ⟨hk, rfl⟩ := List.getElem?_eq_some_iff.mp hr
  obtain ⟨hk', rfl⟩ := List.getElem?_eq_some_iff.mp hids
  rcases hbatch.inputs.get hk hk' id hid with hnonneg | ⟨n, token, hn, rfl, hsample, hget⟩
  · exact ⟨by omega, fun hneg => absurd hnonneg (not_le.mpr hneg)⟩
  · have hlt := (List.getElem?_eq_some_iff.mp hget).1
    rw [h.buffer] at hlt
    exact ⟨by omega, fun _ => ⟨n, token, rfl, hsample, hget⟩⟩

theorem storeToMap_ok {fm fm' : FutureMap} {fi : FutureIndices} {tokens : List Int}
    (h : fm.storeToMap fi tokens = .ok fm') :
    tokens.length = min fi.stop fm.tokenIdsBuf.length - min fi.start fm.tokenIdsBuf.length ∧
      fm' = { fm with tokenIdsBuf := overwrite fm.tokenIdsBuf fi.start tokens } := by
  unfold FutureMap.storeToMap at h
  split at h
  next hlen => exact ⟨hlen, (Except.ok.inj h).symm⟩
  next => cases h

theorem runBatch_spec {s s' : Scheduler} {batch launched : ScheduleBatch} {tokens : List Int}
    (h : runBatch s batch tokens = .ok (s', launched))
    (hfits : s.futureMap.futureCt + 1 + batch.reqs.length ≤ s.futureMap.tokenIdsBuf.length) :
    tokens.length = batch.reqs.length ∧
      s' = { s with futureMap :=
        { s.futureMap with
          futureCt := (s.futureMap.futureCt + batch.reqs.length) % s.futureMap.futureLimit
          tokenIdsBuf := overwrite s.futureMap.tokenIdsBuf (s.futureMap.futureCt + 1) tokens } } ∧
      launched.reqs = batch.reqs ∧ launched.forwardMode = batch.forwardMode ∧
      launched.chunkedReq = batch.chunkedReq ∧ launched.outputIds =
        some ((s.futureMap.allocFutureIndices batch.reqs.length).2.indices.map (- ·)) := by
  simp only [runBatch] at h
  obtain ⟨inputIds, -, h⟩ := bind_ok h
  obtain ⟨fm, hfm, h⟩ := bind_ok h
  cases h
  obtain ⟨hlen, rfl⟩ := storeToMap_ok hfm
  simp only [FutureMap.allocFutureIndices] at hlen
  exact ⟨by omega, rfl, rfl, rfl, rfl, rfl⟩

/-- The rows of a batch just launched. -/
theorem launched_rows (launches : List Launch) {buf : List Int} {launched : ScheduleBatch}
    {start : Nat} {tokens : List Int} (hnodup : launched.reqs.Nodup) (hstart : 0 < start)
    (hlen : tokens.length = launched.reqs.length) (hbuf : start + tokens.length ≤ buf.length)
    (hids : launched.outputIds =
      some ((FutureIndices.mk start (start + launched.reqs.length)).indices.map (- ·))) :
    Rows (⟨start, launched.reqs, tokens⟩ :: launches) (overwrite buf start tokens) launched := by
  refine Or.inr ⟨_, hids, List.forall₂_iff_get.mpr ⟨?_, fun k hk hk' => ?_⟩⟩
  · simp [FutureIndices.indices]
  · have hpending := Pending.launched launches ⟨start, launched.reqs, tokens⟩ hnodup hstart hlen hbuf
      (List.getElem?_eq_getElem hk)
    simpa [FutureIndices.indices, List.getElem_range'] using hpending

/-- A launched batch leaves the invariant, if the indices it was given were free. -/
theorem OverlapInv.launch {maxRunningRequests : Nat} {s : OverlapState}
    (h : OverlapInv maxRunningRequests s) (hpos : 1 ≤ maxRunningRequests) {c : LoopChoice}
    (hpossible : Possible s.sched c) (hfree : IndicesFree s c)
    {sched sched' : Scheduler} {batch launched : ScheduleBatch}
    (hnext : getNextBatchToRun (arrive s.sched c) c = .ok (sched, some batch))
    (hrun : runBatch sched batch c.nextTokenIds = .ok (sched', launched))
    (hsize : launched.reqs.length ≤ maxRunningRequests) :
    OverlapInv maxRunningRequests
      ⟨{ sched' with
          runningBatch := if launched.forwardMode = .decode then launched else sched'.runningBatch
          lastBatch := some launched },
        ⟨(s.sched.futureMap.allocFutureIndices launched.reqs.length).2.start, launched.reqs,
          c.nextTokenIds⟩ :: s.launches⟩ := by
  obtain ⟨merged, hmap, hcount, hbatch⟩ := h.next hpossible hnext
  have hsched : sched.futureMap = s.sched.futureMap := hbatch.futureMap.trans hmap
  have hcounter := h.counter
  have hbuffer := h.buffer
  have hreqs : launched.reqs = batch.reqs := by
    simp only [runBatch] at hrun
    obtain ⟨inputIds, -, hrun⟩ := bind_ok hrun
    obtain ⟨fm, -, hrun⟩ := bind_ok hrun
    cases hrun
    rfl
  rw [hreqs] at hsize
  obtain ⟨hlen, rfl, -, hmode, hchunked, hids⟩ := runBatch_spec hrun (by rw [hsched]; omega)
  rw [hsched] at hids
  have honce : ∀ r, batch.reqs.count r ≤ 1 := by
    intro r
    have := hbatch.once r
    have := hcount r
    omega
  have hnodup : launched.reqs.Nodup := by
    rw [hreqs]
    exact List.nodup_iff_count_le_one.mpr honce
  have hrows := launched_rows s.launches hnodup (Nat.succ_pos s.sched.futureMap.futureCt)
    (show c.nextTokenIds.length = launched.reqs.length by rw [hlen, hreqs])
    (show _ ≤ s.sched.futureMap.tokenIdsBuf.length by omega) (by rw [hids, ← hreqs]; rfl)
  constructor
  · exact (congrArg FutureMap.futureLimit hsched).trans h.limit
  · show (sched.futureMap.futureCt + batch.reqs.length) % sched.futureMap.futureLimit < _
    rw [hsched, h.limit]
    exact Nat.mod_lt _ (by omega)
  · show (overwrite sched.futureMap.tokenIdsBuf (sched.futureMap.futureCt + 1) c.nextTokenIds).length = _
    rw [hsched, length_overwrite (by omega), hbuffer]
  · show Rows _ (overwrite sched.futureMap.tokenIdsBuf (sched.futureMap.futureCt + 1) c.nextTokenIds)
      (if launched.forwardMode = .decode then launched else sched.runningBatch)
    rw [hsched]
    split
    next => exact hrows
    next hdecode =>
      -- the other requests of the running batch keep theirs
      have hextend : batch.forwardMode.isExtend = true := by
        rw [hmode] at hdecode
        cases hm : batch.forwardMode with
        | decode => exact absurd hm hdecode
        | extend => rfl
        | mixed => rfl
      rcases hbatch.running hextend with hnil | ⟨ids, hout, hpending⟩
      · exact Or.inl hnil
      by_cases hnil : sched.runningBatch.reqs = []
      · exact Or.inl hnil
      refine Or.inr ⟨ids, hout, List.forall₂_iff_get.mpr ⟨hpending.length_eq, fun k hk hk' => ?_⟩⟩
      have hfreeId := hfree sched batch hnext hnil ids[k] (by
        rw [hout]
        exact List.getElem_mem hk')
      refine (hpending.get hk hk').launch ?_ ?_ ?_
      · intro hmem
        have hin := List.count_pos_iff.mpr (List.getElem_mem hk)
        have hin' : 0 < batch.reqs.count sched.runningBatch.reqs[k] := by
          rw [← hreqs]
          exact List.count_pos_iff.mpr hmem
        have hround := hbatch.once sched.runningBatch.reqs[k]
        have := hcount sched.runningBatch.reqs[k]
        rw [hextend, if_pos rfl] at hround
        omega
      · show s.sched.futureMap.futureCt + 1 + c.nextTokenIds.length ≤ _
        omega
      · show ¬ (((s.sched.futureMap.futureCt + 1 : Nat) : Int) ≤ -ids[k] ∧
          -ids[k] < ((s.sched.futureMap.futureCt + 1 : Nat) : Int) + c.nextTokenIds.length)
        rintro ⟨hge, hlt⟩
        refine hfreeId ?_
        rw [hsched]
        refine List.mem_map.mpr ⟨(-ids[k]).toNat, ?_, by omega⟩
        simp only [FutureMap.allocFutureIndices, List.mem_range'_1]
        omega
  · intro last hlast hextend
    cases hlast
    show Rows _ (overwrite sched.futureMap.tokenIdsBuf (sched.futureMap.futureCt + 1) c.nextTokenIds) _
    rw [hsched]
    exact hrows
  · intro r
    have hround := hbatch.once r
    have hmerged := hcount r
    simp only [held, lastReqs, hmode]
    cases hm : batch.forwardMode.isExtend with
    | true =>
      have hdecode : ¬ batch.forwardMode = .decode := by
        rintro hdec
        rw [hdec] at hm
        cases hm
      rw [hm, if_pos rfl] at hround
      rw [if_neg hdecode, if_pos rfl, count_filter_notMem, hreqs]
      by_cases hr : r ∈ sched.chunkedReq.toList
      · have hin := List.count_pos_iff.mpr (hbatch.chunked r hr).1
        have hone : sched.chunkedReq.toList.count r ≤ 1 := by
          refine le_trans List.count_le_length ?_
          cases sched.chunkedReq with
          | none => exact Nat.zero_le _
          | some _ => exact le_refl _
        rw [if_pos (List.mem_append_left _ hr)]
        omega
      · rw [List.count_eq_zero.mpr hr]
        split <;> omega
    | false =>
      have hdecode : batch.forwardMode = .decode := by
        cases hmode' : batch.forwardMode with
        | decode => rfl
        | extend =>
          rw [hmode'] at hm
          cases hm
        | mixed =>
          rw [hmode'] at hm
          cases hm
      have hchunk : sched.chunkedReq.toList.count r = 0 := by
        refine List.count_eq_zero.mpr fun hr => ?_
        have := (hbatch.chunked r hr).2
        rw [hm] at this
        cases this
      rw [hm] at hround
      rw [if_pos hdecode, hreqs, hchunk]
      simp only [Bool.false_eq_true, if_false, List.count_nil] at hround ⊢
      omega

theorem OverlapInv.step {maxRunningRequests : Nat} (hpos : 1 ≤ maxRunningRequests)
    {s s' : OverlapState} {c : LoopChoice} (h : OverlapInv maxRunningRequests s)
    (hfree : IndicesFree s c) (hstep : (overlapMachine maxRunningRequests).step c s = some s') :
    OverlapInv maxRunningRequests s' := by
  simp only [overlapMachine] at hstep
  split at hstep
  next hpossible =>
    split at hstep
    next => cases hstep
    next sched hloop =>
      cases hstep
      obtain ⟨⟨next, batch⟩, hnext, hloop⟩ := bind_ok hloop
      cases batch with
      | some batch =>
        obtain ⟨⟨sched', launched⟩, -, hloop⟩ := bind_ok hloop
        cases hloop
      | none =>
        cases hloop
        have hlast := h.last
        obtain ⟨hrows, hmap, hchunked, hcount⟩ :=
          getNextBatchToRun_none (s := arrive s.sched c) hnext h.running hlast
        have hmap' : next.futureMap = s.sched.futureMap := hmap
        constructor
        · exact (congrArg FutureMap.futureLimit hmap').trans h.limit
        · exact lt_of_eq_of_lt (congrArg FutureMap.futureCt hmap') h.counter
        · exact (congrArg (·.tokenIdsBuf.length) hmap').trans h.buffer
        · show Rows s.launches next.futureMap.tokenIdsBuf next.runningBatch
          rw [hmap']
          exact hrows
        · exact nofun
        · intro r
          have hle := (hcount r).trans (held_arrive hpossible h.once r)
          simp only [held, lastReqs, hchunked, Option.toList_none, List.count_nil, Nat.add_zero]
          exact hle
    next sched launched hloop =>
      split at hstep
      next hsize =>
        cases hstep
        obtain ⟨⟨next, batch⟩, hnext, hloop⟩ := bind_ok hloop
        cases batch with
        | none => cases hloop
        | some batch =>
          obtain ⟨⟨sched', launched'⟩, hrun, hloop⟩ := bind_ok hloop
          cases hloop
          exact h.launch hpos hpossible hfree hnext hrun hsize
      next => cases hstep
  next => cases hstep

/-- Two requests arrive; the second one's prompt takes six chunks. -/
def sixChunks : List LoopChoice :=
  ⟨[0, 1], [], [], false, [(0, [7]), (1, [8])], true, false, none, false, none, [10, 20]⟩ ::
    [21, 22, 23, 24].map (fun token =>
      ⟨[], [], [8], true, [], false, false, none, false, none, [token]⟩) ++
    [⟨[], [], [8], false, [], false, false, none, false, none, [25]⟩]

/-- The decode step behind the last chunk. -/
def decodeRound : LoopChoice := ⟨[], [], [], false, [], false, false, none, false, none, [11, 26]⟩

/-- What they leave: the first request's token 10 at index 1 has given way to 25. -/
def sixChunksEnd : OverlapState where
  sched :=
    { futureMap := ⟨1, 6, 10, [0, 25, 20, 21, 22, 23, 24, 0, 0, 0]⟩
      runningBatch := ⟨[0], .extend, [[7], [8]], some [-1], some 1, false⟩
      lastBatch := some ⟨[1], .extend, [[8]], some [-1], none, false⟩
      chunkedReq := none
      waitingQueue := [] }
  launches :=
    [⟨1, [1], [25]⟩, ⟨6, [1], [24]⟩, ⟨5, [1], [23]⟩, ⟨4, [1], [22]⟩, ⟨3, [1], [21]⟩,
      ⟨1, [0, 1], [10, 20]⟩]

end QCFuse.Guarantees
