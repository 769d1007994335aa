import QCFuse.Guarantees.PagedAllocation
import QCFuse.Library.Transition
import QCFuse.Source.DecodePrealloc
import QCFuse.Source.RequestPool

/-!
# Pre-allocation on a decode worker does not fail

The budget of a pass is never above the tokens that the allocator has. An admitted request takes whole pages, and the
reserved tokens of its budget pay for the rounding.
-/

set_option autoImplicit false

namespace QCFuse.Guarantees

open QCFuse.Library QCFuse.Source

/-! ### Whole pages -/

/-- Pages that wait to be sorted are merged when the others do not do. -/
def MergesFree (a : PagedAllocator) : Prop := a.needSort = true ∨ a.releasePages = []

theorem availableSize_eq (a : PagedAllocator) : a.availableSize = a.freeSet.length * a.pageSize := by
  rw [PagedAllocator.availableSize, PagedAllocator.freeSet, List.length_append]

theorem mergesFree_mergeAndSortFree {a : PagedAllocator} (h : MergesFree a) : MergesFree a.mergeAndSortFree := by
  unfold PagedAllocator.mergeAndSortFree
  split
  · exact Or.inr rfl
  · exact h

theorem mergesFree_mergeIfShort {a : PagedAllocator} (h : MergesFree a) (n : Nat) :
    MergesFree (a.mergeIfShort n) := by
  unfold PagedAllocator.mergeIfShort
  split
  · exact mergesFree_mergeAndSortFree h
  · exact h

/-- Every allocation ends by taking its pages, and it finds them when there are as many. -/
theorem takes_pages {a : PagedAllocator} (h : MergesFree a) {needed asked : Nat} (hasked : needed ≤ asked)
    (henough : needed ≤ a.freeSet.length) (out : List Int) : ∃ a',
      (if needed > (a.mergeIfShort asked).freePages.length then (none, a.mergeIfShort asked)
        else (some out, (a.mergeIfShort asked).dropFreePages needed)) = (some out, a') ∧
      MergesFree a' ∧ a'.pageSize = a.pageSize ∧ a'.freeSet.length + needed = a.freeSet.length := by
  have hfound : ¬ needed > (a.mergeIfShort asked).freePages.length := by
    rw [mergeIfShort_enough h hasked]
    omega
  have hlength := (freeSet_mergeIfShort a asked).length_eq
  refine ⟨_, if_neg hfound, mergesFree_mergeIfShort h asked, mergeIfShort_pageSize a asked, ?_⟩
  rw [← hlength]
  simp only [PagedAllocator.freeSet, PagedAllocator.dropFreePages, List.length_append, List.length_drop]
  omega

/-- What an allocation within a budget leaves. -/
structure Takes (a a' : PagedAllocator) (budget : Nat) : Prop where
  merges : MergesFree a'
  pageSize : a'.pageSize = a.pageSize
  available : a.availableSize ≤ a'.availableSize + budget

/-- The slots of a request are found when the budget holds its tokens and one page less a token. -/
theorem allocSlots_ok (mem : KernelMemory) {a : PagedAllocator} (h : MergesFree a) {n budget : Nat}
    (hn : n + (a.pageSize - 1) ≤ budget) (hbudget : budget ≤ a.availableSize) :
    ∃ kvLoc a', DecodeWorker.allocSlots mem a n = (some kvLoc, a') ∧ Takes a a' budget := by
  have hpage := a.pageSize_pos
  rw [availableSize_eq] at hbudget
  have hround := pagesOf_mul_lt hpage n
  have hpages : pagesOf a.pageSize n ≤ a.freeSet.length :=
    Nat.le_of_mul_le_mul_right (by omega) hpage
  have htakes {a' : PagedAllocator} (hmerges : MergesFree a') (hsize : a'.pageSize = a.pageSize)
      (hfree : a'.freeSet.length + pagesOf a.pageSize n = a.freeSet.length) : Takes a a' budget := by
    refine ⟨hmerges, hsize, ?_⟩
    rw [availableSize_eq, availableSize_eq, hsize, ← hfree, Nat.add_mul]
    omega
  unfold DecodeWorker.allocSlots
  split
  next hone =>
    have hsame : n / a.pageSize = pagesOf a.pageSize n := by simp [hone, pagesOf]
    obtain ⟨a', halloc, hmerges, hsize, hfree⟩ := takes_pages h (Nat.le_refl _) (hsame ▸ hpages) _
    exact ⟨_, a', halloc, htakes hmerges hsize (hsame ▸ hfree)⟩
  next =>
    have hasked : pagesOf a.pageSize n ≤ n / a.pageSize + 1 + 1 := by
      rw [pagesOf_eq hpage]
      split <;> omega
    have hnew : getNumNewPages [n] a.pageSize (some [0]) = pagesOf a.pageSize n := by
      have hzero : pagesOf a.pageSize 0 = 0 := by
        rw [pagesOf_eq hpage, Nat.zero_div, Nat.zero_mod]
        rfl
      simp [getNumNewPages, sumDiff, hzero]
    unfold PagedAllocator.allocExtend
    simp only [mergeIfShort_pageSize, List.length_singleton, hnew]
    generalize max a.seenMaxNumExtendTokensNextPowerOf2 (nextPowerOf2 n) = seen
    have hseen : MergesFree { a with seenMaxNumExtendTokensNextPowerOf2 := seen } := h
    obtain ⟨a', halloc, hmerges, hsize, hfree⟩ := takes_pages hseen hasked hpages _
    exact ⟨_, a', halloc, htakes hmerges hsize hfree⟩

/-! ### One request -/

/-- What `_pre_alloc` leaves of the worker. -/
structure Preallocates (w w' : DecodeWorker) (budget : Nat) : Prop where
  takes : Takes w.allocator w'.allocator budget
  queue : w'.queue = w.queue
  metadataSlots : w'.metadataSlots = w.metadataSlots
  numReservedDecodeTokens : w'.numReservedDecodeTokens = w.numReservedDecodeTokens

/-- Neither assertion of `_pre_alloc` fails within a budget that rounds up to pages. -/
theorem preAlloc_ok (mem : KernelMemory) {w : DecodeWorker} {req : DecodeReq} {budget : Nat}
    (h : MergesFree w.allocator) (hrow : w.reqToTokenPool.availableSize ≠ 0)
    (hn : DecodeWorker.numTokensOf req + (w.allocator.pageSize - 1) ≤ budget)
    (hbudget : budget ≤ w.allocator.availableSize) :
    ∃ req' w', DecodeWorker.preAlloc mem w req = .ok (req', w') ∧ Preallocates w w' budget := by
  obtain ⟨kvLoc, a', halloc, htakes⟩ := allocSlots_ok mem h hn hbudget
  cases hslots : w.reqToTokenPool.freeSlots with
  | nil =>
    rw [DecodeReqToTokenPool.availableSize, hslots] at hrow
    exact absurd rfl hrow
  | cons index slots =>
    have hrows : w.reqToTokenPool.alloc 1 = (some [index], { w.reqToTokenPool with freeSlots := slots }) := by
      simp [DecodeReqToTokenPool.alloc, hslots]
    simp only [DecodeWorker.preAlloc, hrows, halloc]
    exact ⟨_, _, rfl, htakes, rfl, rfl, rfl⟩

/-! ### The budget -/

/-- The budget is never above the tokens of the allocator. -/
theorem allocatableTokens_le (w : DecodeWorker) (retractableTokens : Option Nat) (countRetracted : Bool) :
    w.allocatableTokens retractableTokens countRetracted ≤ w.allocator.availableSize := by
  unfold DecodeWorker.allocatableTokens
  lift_lets
  intro reserved allocatable lastExtend retracted
  have hreserved : (0 : Int) ≤ max (reserved : Int) (w.needSpaceForSingleReq retractableTokens) :=
    le_max_of_le_left (Int.natCast_nonneg _)
  omega

/-! ### The two passes -/

/-- The reserved tokens of a worker pay for the rounding of a request. -/
structure Rounds (w : DecodeWorker) : Prop where
  merges : MergesFree w.allocator
  reserved : w.allocator.pageSize - 1 ≤ w.numReservedDecodeTokens

theorem Preallocates.rounds {w w' : DecodeWorker} {budget : Nat} (h : Preallocates w w' budget) (hw : Rounds w) :
    Rounds w' := by
  refine ⟨h.takes.merges, ?_⟩
  rw [h.takes.pageSize, h.numReservedDecodeTokens]
  exact hw.reserved

/-- The budget that is left is within what the allocator has left. -/
theorem Preallocates.budget {w w' : DecodeWorker} {budget : Nat} (h : Preallocates w w' budget) {allocatable : Int}
    (hle : allocatable ≤ w.allocator.availableSize) : allocatable - budget ≤ w'.allocator.availableSize := by
  have havailable := h.takes.available
  omega

variable (mem : Nat → KernelMemory)

theorem resumeLoop_ok (reqs : List DecodeReq) : ∀ (w : DecodeWorker) (allocatable : Int) (i : Nat), Rounds w →
    allocatable ≤ w.allocator.availableSize → ∃ resumed staying w',
      DecodeWorker.resumeLoop mem w allocatable i reqs = .ok (resumed, staying, w') ∧ Rounds w' ∧
        w'.queue = w.queue := by
  induction reqs with
  | nil => exact fun w allocatable i hw _ => ⟨[], [], w, rfl, hw, rfl⟩
  | cons req rest ih =>
    intro w allocatable i hw hle
    rw [DecodeWorker.resumeLoop]
    split
    · exact ⟨[], req :: rest, w, rfl, hw, rfl⟩
    split
    · exact ⟨[], req :: rest, w, rfl, hw, rfl⟩
    next hrow hbudget =>
      have hreserved := hw.reserved
      have hneed : DecodeWorker.numTokensOf { req with isRetracted := false } + (w.allocator.pageSize - 1) ≤
          w.retractedTokens req := by
        simp only [DecodeWorker.numTokensOf, DecodeWorker.retractedTokens]
        omega
      obtain ⟨req', w', halloc, hpre⟩ := preAlloc_ok (mem i) hw.merges hrow hneed (by omega)
      obtain ⟨resumed, staying, w'', hloop, hrounds, hqueue⟩ :=
        ih w' (allocatable - w.retractedTokens req) (i + 1) (hpre.rounds hw) (hpre.budget hle)
      simp only [halloc, bind, Except.bind, hloop]
      exact ⟨req' :: resumed, staying, w'', rfl, hrounds, hqueue.trans hpre.queue⟩

/-- A new request has no output. -/
def NoOutput (queue : List DecodeRequest) : Prop := ∀ decodeReq ∈ queue, decodeReq.req.outputIds = []

theorem popLoop_ok (retractable : Nat) (queue : List DecodeRequest) : ∀ (w : DecodeWorker) (allocatable : Int)
    (i : Nat), Rounds w → NoOutput queue → allocatable ≤ w.allocator.availableSize → ∃ preallocated staying w',
      DecodeWorker.popLoop mem w retractable allocatable i queue = .ok (preallocated, staying, w') ∧ Rounds w' ∧
        NoOutput staying := by
  induction queue with
  | nil => exact fun w allocatable i hw _ _ => ⟨[], [], w, rfl, hw, nofun⟩
  | cons decodeReq rest ih =>
    intro w allocatable i hw hnone hle
    have hrest : NoOutput rest := fun d hd => hnone d (List.mem_cons_of_mem _ hd)
    have hnew := hnone decodeReq List.mem_cons_self
    rw [DecodeWorker.popLoop]
    split
    · exact ih w allocatable (i + 1) hw hrest hle
    split
    · obtain ⟨preallocated, staying, w', hloop, hrounds, hstaying⟩ := ih w allocatable (i + 1) hw hrest hle
      simp only [hloop, bind, Except.bind]
      refine ⟨preallocated, decodeReq :: staying, w', rfl, hrounds, fun d hd => ?_⟩
      rcases List.mem_cons.mp hd with rfl | hd
      · exact hnew
      · exact hstaying d hd
    split
    · exact ⟨[], _, w, rfl, hw, fun d hd => hnone d (List.mem_filter.mp hd).1⟩
    next hfound =>
      simp only [Bool.or_eq_true, decide_eq_true_eq, not_or, DecodeWorker.overBudget] at hfound
      obtain ⟨⟨hrow, hmetadata⟩, -, hbudget⟩ := hfound
      have hreserved := hw.reserved
      have hneed : DecodeWorker.numTokensOf decodeReq.req + (w.allocator.pageSize - 1) ≤
          w.newTokens decodeReq.req := by
        simp only [DecodeWorker.numTokensOf, DecodeWorker.newTokens, hnew, List.length_nil]
        omega
      obtain ⟨req', w', halloc, hpre⟩ := preAlloc_ok (mem i) hw.merges hrow hneed (by omega)
      cases hslots : w.metadataSlots with
      | nil => simp [hslots] at hmetadata
      | cons index slots =>
        obtain ⟨preallocated, staying, w'', hloop, hrounds, hstaying⟩ :=
          ih { w' with metadataSlots := slots } (allocatable - w.newTokens decodeReq.req) (i + 1)
            ⟨(hpre.rounds hw).merges, (hpre.rounds hw).reserved⟩ hrest (hpre.budget hle)
        simp only [halloc, bind, Except.bind, hpre.metadataSlots, hslots, hloop]
        exact ⟨_ :: preallocated, staying, w'', rfl, hrounds, hstaying⟩

/-- What holds between two passes. -/
structure DecodeInv (w : DecodeWorker) : Prop extends Rounds w where
  noOutput : NoOutput w.queue

/-- Every retracted request that the pass takes gets its row and its slots. -/
theorem resumeRetractedReqs_ok {w : DecodeWorker} (h : DecodeInv w) :
    ∃ resumed w', w.resumeRetractedReqs mem = .ok (resumed, w') ∧ DecodeInv w' := by
  obtain ⟨resumed, staying, w', hloop, hrounds, hqueue⟩ :=
    resumeLoop_ok mem w.retractedQueue w _ 0 h.toRounds (allocatableTokens_le w none false)
  simp only [DecodeWorker.resumeRetractedReqs, hloop]
  exact ⟨_, _, rfl, ⟨hrounds.merges, hrounds.reserved⟩, hqueue ▸ h.noOutput⟩

theorem handshake_noOutput {decodeReq updated : DecodeRequest} {poll : KvPoll}
    (h : DecodeWorker.handshake decodeReq poll = .ok updated) :
    updated.req.outputIds = decodeReq.req.outputIds := by
  cases poll <;> cases h <;> rfl

theorem updateHandshakeWaiters_noOutput {queue updated : List DecodeRequest} {polls : List KvPoll}
    (hnone : NoOutput queue) (h : DecodeWorker.updateHandshakeWaiters queue polls = .ok updated) :
    NoOutput updated := by
  unfold DecodeWorker.updateHandshakeWaiters at h
  split at h
  · cases h
    exact hnone
  · obtain ⟨polled, hpolled, h⟩ := bind_ok h
    cases h
    intro decodeReq hmem
    rcases List.mem_append.mp hmem with hmem | hmem
    · obtain ⟨pair, hpair, hshake⟩ := (mapM_mem hpolled).2 decodeReq hmem
      rw [handshake_noOutput hshake]
      exact hnone _ (List.of_mem_zip hpair).1
    · exact hnone _ (List.mem_of_mem_drop hmem)

/-- The pass over the new requests fails only where its polls do. -/
theorem popPreallocated_ok {w : DecodeWorker} (h : DecodeInv w) (polls : List KvPoll) :
    (∃ e, w.popPreallocated mem polls = .error e ∧ DecodeWorker.updateHandshakeWaiters w.queue polls = .error e) ∨
      ∃ preallocated w', w.popPreallocated mem polls = .ok (preallocated, w') ∧ DecodeInv w' := by
  unfold DecodeWorker.popPreallocated
  cases hpolls : DecodeWorker.updateHandshakeWaiters w.queue polls with
  | error e => exact Or.inl ⟨e, rfl, rfl⟩
  | ok queue =>
    obtain ⟨preallocated, staying, w', hloop, hrounds, hstaying⟩ := popLoop_ok mem w.retractableTokens queue w _ 0
      h.toRounds (updateHandshakeWaiters_noOutput h.noOutput hpolls)
      (allocatableTokens_le w (some w.retractableTokens) true)
    simp only [bind, Except.bind, hloop]
    exact Or.inr ⟨_, _, rfl, ⟨hrounds.merges, hrounds.reserved⟩, hstaying⟩

/-! ### Runs of the worker -/

/-- What the rest of the worker does to the allocator, of either class. -/
inductive AllocatorOp where
  | pages (op : PoolOp)
  | freeTokens (freeIndex : List Int)
  | freeTokensGroupEnd
  | clear (size : Nat)

def allocatorStep (a : PagedAllocator) : AllocatorOp → PagedAllocator
  | .pages op => poolStep a op
  | .freeTokens freeIndex => a.freeTokens freeIndex
  | .freeTokensGroupEnd => { a with isNotInFreeGroup := true }.freeTokens a.freeGroup.flatten
  | .clear size => PagedAllocator.clear size a.pageSize a.needSort a.pageSize_pos

inductive DecodeOp where
  | add (req : DecodeReq)
  | retract (req : DecodeReq)
  | resume (mem : Nat → KernelMemory)
  | pop (mem : Nat → KernelMemory) (polls : List KvPoll)
  | others (scheduler : DecodeScheduler) (rows : DecodeReqToTokenPool) (metadataSlots : List Nat)
      (ops : List AllocatorOp)

/-- A pass that raises is no step. -/
def decodeMachine : Machine DecodeWorker DecodeOp where
  step
    | .add req, w => some (w.add req false)
    | .retract req, w => some (w.add req true)
    | .resume mem, w => (w.resumeRetractedReqs mem).toOption.map Prod.snd
    | .pop mem polls, w => (w.popPreallocated mem polls).toOption.map Prod.snd
    | .others scheduler rows metadataSlots ops, w => some { w with
        scheduler, metadataSlots, reqToTokenPool := rows, allocator := ops.foldl allocatorStep w.allocator }

/-- A request that arrives has no output yet. -/
def ArrivesNew (_ : DecodeWorker) : DecodeOp → Prop
  | .add req => req.outputIds = []
  | _ => True

/-- A worker that starts: any pool, and enough reserved tokens. -/
structure DecodeStart (w : DecodeWorker) : Prop extends Rounds w where
  queue : w.queue = []

/-- What every operation of an allocator keeps. -/
structure KeepsMerging (a a' : PagedAllocator) : Prop where
  merges : MergesFree a'
  pageSize : a'.pageSize = a.pageSize

theorem keepsMerging_ite {a merged : PagedAllocator} (h : KeepsMerging a merged) {n : Nat} {out : List Int} :
    KeepsMerging a (if n > merged.freePages.length then (none, merged)
      else (some out, merged.dropFreePages n)).2 := by
  split
  · exact h
  · exact ⟨h.merges, h.pageSize⟩

theorem keepsMerging_free {a : PagedAllocator} (h : MergesFree a) (freeIndex : List Int) :
    KeepsMerging a (a.free freeIndex) := by
  unfold PagedAllocator.free
  split
  · exact ⟨h, rfl⟩
  split
  · split
    next hsort => exact ⟨Or.inl hsort, rfl⟩
    next => exact ⟨h, rfl⟩
  · exact ⟨h, rfl⟩

theorem keepsMerging_freeTokens {a : PagedAllocator} (h : MergesFree a) (freeIndex : List Int) :
    KeepsMerging a (a.freeTokens freeIndex) := by
  unfold PagedAllocator.freeTokens
  split
  · exact ⟨h, rfl⟩
  split
  · split
    next hsort => exact ⟨Or.inl hsort, rfl⟩
    next => exact ⟨h, rfl⟩
  · exact ⟨h, rfl⟩

theorem keepsMerging_mergeIfShort {a : PagedAllocator} (h : MergesFree a) (n : Nat) :
    KeepsMerging a (a.mergeIfShort n) :=
  ⟨mergesFree_mergeIfShort h n, mergeIfShort_pageSize a n⟩

theorem poolStep_keeps {a : PagedAllocator} (h : MergesFree a) (op : PoolOp) : KeepsMerging a (poolStep a op) := by
  cases op with
  | alloc needSize => exact keepsMerging_ite (keepsMerging_mergeIfShort h _)
  | allocExtend mem batch =>
    have hseen (seen n : Nat) :
        KeepsMerging a ({ a with seenMaxNumExtendTokensNextPowerOf2 := seen }.mergeIfShort n) := by
      have hsame : MergesFree { a with seenMaxNumExtendTokensNextPowerOf2 := seen } := h
      have hmerged := keepsMerging_mergeIfShort hsame n
      exact ⟨hmerged.merges, hmerged.pageSize⟩
    exact keepsMerging_ite (hseen _ _)
  | allocDecode mem batch => exact keepsMerging_ite (keepsMerging_mergeIfShort h _)
  | free freeIndex => exact keepsMerging_free h freeIndex
  | freeGroupBegin => exact ⟨h, rfl⟩
  | freeGroupEnd =>
    unfold poolStep PagedAllocator.freeGroupEnd
    simp only
    split
    · exact ⟨h, rfl⟩
    · have hclosed : MergesFree { a with isNotInFreeGroup := true } := h
      have hfree := keepsMerging_free hclosed a.freeGroup.flatten
      exact ⟨hfree.merges, hfree.pageSize⟩
  | mergeAndSortFree => exact ⟨mergesFree_mergeAndSortFree h, (shrinks_mergeAndSortFree a).pageSize⟩

theorem allocatorStep_keeps {a : PagedAllocator} (h : MergesFree a) (op : AllocatorOp) :
    KeepsMerging a (allocatorStep a op) := by
  cases op with
  | pages op => exact poolStep_keeps h op
  | freeTokens freeIndex => exact keepsMerging_freeTokens h freeIndex
  | freeTokensGroupEnd =>
    have hclosed : MergesFree { a with isNotInFreeGroup := true } := h
    have hfree := keepsMerging_freeTokens hclosed a.freeGroup.flatten
    exact ⟨hfree.merges, hfree.pageSize⟩
  | clear size => exact ⟨Or.inr rfl, rfl⟩

theorem allocatorSteps_keep (ops : List AllocatorOp) : ∀ (a : PagedAllocator), MergesFree a →
    KeepsMerging a (ops.foldl allocatorStep a) := by
  induction ops with
  | nil => exact fun a h => ⟨h, rfl⟩
  | cons op ops ih =>
    intro a h
    have hstep := allocatorStep_keeps h op
    have hrest := ih _ hstep.merges
    exact ⟨hrest.merges, hrest.pageSize.trans hstep.pageSize⟩

theorem add_inv {w : DecodeWorker} (h : DecodeInv w) {req : DecodeReq} {isRetracted : Bool}
    (hnew : isRetracted = true ∨ req.outputIds = []) : DecodeInv (w.add req isRetracted) := by
  unfold DecodeWorker.add
  split
  · exact h
  split
  · exact ⟨⟨h.merges, h.reserved⟩, h.noOutput⟩
  next hfresh =>
    refine ⟨⟨h.merges, h.reserved⟩, fun decodeReq hmem => ?_⟩
    rcases List.mem_append.mp hmem with hmem | hmem
    · exact h.noOutput decodeReq hmem
    · obtain rfl := List.mem_singleton.mp hmem
      exact hnew.resolve_left hfresh

theorem decodeMachine_inv {w w' : DecodeWorker} {op : DecodeOp} (h : DecodeInv w) (hnew : ArrivesNew w op)
    (hstep : decodeMachine.step op w = some w') : DecodeInv w' := by
  cases op with
  | add req =>
    cases hstep
    exact add_inv h (Or.inr hnew)
  | retract req =>
    cases hstep
    exact add_inv h (Or.inl rfl)
  | resume mem =>
    obtain ⟨resumed, after, hresume, hafter⟩ := resumeRetractedReqs_ok mem h
    simp only [decodeMachine, hresume] at hstep
    cases hstep
    exact hafter
  | pop mem polls =>
    rcases popPreallocated_ok mem h polls with ⟨e, hpop, -⟩ | ⟨preallocated, after, hpop, hafter⟩
    · simp only [decodeMachine, hpop] at hstep
      cases hstep
    · simp only [decodeMachine, hpop] at hstep
      cases hstep
      exact hafter
  | others scheduler rows metadataSlots ops =>
    cases hstep
    have hops := allocatorSteps_keep ops w.allocator h.merges
    exact ⟨⟨hops.merges, hops.pageSize ▸ h.reserved⟩, h.noOutput⟩

/-- In every run no pass fails for want of a row or of slots: the retracted requests come back, and the new ones are
allocated unless a poll raised. -/
theorem decode_prealloc_fits {w0 w : DecodeWorker} (h0 : DecodeStart w0)
    (h : decodeMachine.Reach ArrivesNew (· = w0) w) (mem : Nat → KernelMemory) :
    (∃ resumed w', w.resumeRetractedReqs mem = .ok (resumed, w')) ∧
      ∀ polls e, w.popPreallocated mem polls = .error e →
        DecodeWorker.updateHandshakeWaiters w.queue polls = .error e := by
  have hinv : DecodeInv w := by
    refine h.invariant (fun s hs => ?_) fun s s' op hs hnew hstep => decodeMachine_inv hs hnew hstep
    subst hs
    exact ⟨h0.toRounds, fun decodeReq hmem => by rw [h0.queue] at hmem; cases hmem⟩
  constructor
  · obtain ⟨resumed, w', hresume, -⟩ := resumeRetractedReqs_ok mem hinv
    exact ⟨resumed, w', hresume⟩
  · intro polls e hpop
    rcases popPreallocated_ok mem hinv polls with ⟨e', hpop', hpolls⟩ | ⟨preallocated, w', hpop', -⟩
    · rw [hpop'] at hpop
      exact Except.error.inj hpop ▸ hpolls
    · rw [hpop'] at hpop
      cases hpop

theorem fourTokens_pos : 0 < 4 := by decide

/-- A worker with two pages of four tokens and a retracted request that needs one. -/
def tightWorker : DecodeWorker where
  scheduler := { runningBatch := [], transferQueue := [], waitingQueue := [], lastBatch := none }
  reqToTokenPool := { reqToToken := [[], []], freeSlots := [0, 1] }
  allocator := PagedAllocator.clear 8 4 true fourTokens_pos
  metadataSlots := [0]
  queue := []
  retractedQueue := [⟨[1, 2], [3], 8, false, true, none, [], 0⟩]
  maxTotalNumTokens := 8
  numReservedDecodeTokens := 3
  clipMaxNewToken := 4096

/-- A new request of one token. -/
def smallReq : DecodeReq := ⟨[5], [], 8, false, false, none, [], 0⟩

/-- A new request arrives while the retracted one waits. -/
theorem decode_prealloc_fits_tight :
    (∃ resumed w', (tightWorker.add smallReq false).resumeRetractedReqs (fun _ => zeroMemory) = .ok (resumed, w')) ∧
      ∀ polls e, (tightWorker.add smallReq false).popPreallocated (fun _ => zeroMemory) polls = .error e →
        DecodeWorker.updateHandshakeWaiters (tightWorker.add smallReq false).queue polls = .error e := by
  have harrives : ArrivesNew tightWorker (.add smallReq) := rfl
  exact decode_prealloc_fits ⟨⟨Or.inl rfl, by decide⟩, rfl⟩ (.step (.start rfl) harrives rfl) _

end QCFuse.Guarantees
