import QCFuse.Guarantees.BatchCoordinates
import QCFuse.Library.Compaction
import QCFuse.Source.Preemption

/-!
# The token budget across preemptions

A call that is refused changes nothing, and one that is granted releases the requests of lower
priority. The budget stays exact where their reservations add up to that of the new request, taken
once for each of them.
-/

set_option autoImplicit false

namespace QCFuse.Guarantees

open QCFuse.Library QCFuse.Source

variable {ρ : Type}

/-! ## What is claimed of a run of calls -/

/-- A request handed to `add_one_req`, and as it was put on the list. -/
structure Admission where
  asked : Req
  admitted : Req

/-- The paged input of an admitted request, and its new tokens unless it was cut to a chunk. -/
def charge (adder : PrefillAdder) (a : Admission) : Int :=
  adder.ceilPagedTokens a.admitted.extendInputLen +
    if a.admitted.extendInputLen < a.asked.extendInputLen then 0
    else min (a.admitted.maxNewTokens : Int) adder.clipMaxNewTokens

/-- The reservations of requests. -/
def reservations (adder : PrefillAdder) (reqs : List PriorityReq) : Rat :=
  (reqs.map fun r => adder.runningRequestTotalTokenOffset r.req).sum

/-- The tokens `preempt_to_schedule` wants for a request. -/
def tokensNeeded (adder : PrefillAdder) (req : PriorityReq) : Rat :=
  req.req.extendInputLen + min req.req.maxNewTokens adder.clipMaxNewTokens

/-- An adder with the admissions of its calls so far. -/
structure AdderRun (ρ : Type) where
  state : Preempting ρ
  admissions : List Admission

inductive AdderCall where
  | addOneReq (req : Req)
  | preemptToSchedule (req : PriorityReq)

/-- The offset is what is mixed in, reserved and charged. -/
structure BudgetExact (mixed : Int) (run : AdderRun ρ) : Prop where
  admitted : run.state.adder.canRunList = run.admissions.map (·.admitted)
  total : run.state.adder.remTotalTokenOffset = mixed + reservations run.state.adder run.state.batch.reqs +
    ((run.admissions.map (charge run.state.adder)).sum : Int)

/-- Row `i` of the tensors is that of request `i`; those of an empty batch are not read. -/
def RowsAligned (rowOf : PriorityReq → ρ) (batch : RunningBatch ρ) : Prop :=
  batch.reqs = [] ∨ batch.rows = batch.reqs.map rowOf

/-- What a granted call has done. -/
structure Preempted (args : PreemptionArgs) (rowOf : PriorityReq → ρ) (req : PriorityReq) (s s' : Preempting ρ)
    (released : List PriorityReq) : Prop where
  nonempty : released ≠ []
  lower : released = s.batch.reqs.filter (args.preemptible req)
  once : (released.map (·.ref)).Nodup
  kept : s'.batch.reqs = s.batch.reqs.filter fun r => !args.preemptible req r
  listed : ∃ order : List PriorityReq, order.Perm released ∧ s'.preemptList = s.preemptList ++ order.map PriorityReq.resetForRetract
  rows : RowsAligned rowOf s'.batch
  enough : tokensNeeded s'.adder req ≤ s'.adder.remTotalTokens

section Calls

variable (tree : TreeCache) (args : PreemptionArgs) (releaseSize : List PriorityReq → PriorityReq → Nat)
  (rowOf : PriorityReq → ρ) (mixed : Int)

def AdderRun.call (run : AdderRun ρ) : AdderCall → AdderRun ρ
  | .addOneReq req =>
    let state := run.state.addOneReq tree req
    ⟨state, run.admissions ++
      (state.adder.canRunList.drop run.state.adder.canRunList.length).map fun r => ⟨req, r⟩⟩
  | .preemptToSchedule req => ⟨(run.state.preemptToSchedule args releaseSize req).2.2, run.admissions⟩

/-- A call as claimed. -/
def CallKept (run : AdderRun ρ) (call : AdderCall) : Prop :=
  BudgetExact mixed (run.call tree args releaseSize call) ∧
    match call with
    | .addOneReq _ => True
    | .preemptToSchedule req =>
      let answer := run.state.preemptToSchedule args releaseSize req
      (answer.1 = false → answer.2.1 = [] ∧ answer.2.2 = run.state) ∧
        (answer.1 = true → Preempted args rowOf req run.state answer.2.2 answer.2.1)

def CallsKept : List AdderCall → AdderRun ρ → Prop
  | [], _ => True
  | call :: calls, run => CallKept tree args releaseSize rowOf mixed run call ∧
      CallsKept calls (run.call tree args releaseSize call)

/-- Where a preemption is granted, the reservations of the running requests of lower priority add up to as
many of the new request's. -/
def CallBalanced (run : AdderRun ρ) : AdderCall → Prop
  | .addOneReq _ => True
  | .preemptToSchedule req =>
    let adder := run.state.adder
    let lower := run.state.batch.reqs.filter (args.preemptible req)
    lower ≠ [] → tokensNeeded adder req - adder.remTotalTokens ≤ reservations adder lower →
      reservations adder lower = lower.length * adder.runningRequestTotalTokenOffset req.req

def CallsBalanced : List AdderCall → AdderRun ρ → Prop
  | [], _ => True
  | call :: calls, run => CallBalanced args run call ∧ CallsBalanced calls (run.call tree args releaseSize call)

end Calls

/-! ## `add_one_req` -/

theorem ceilPagedTokens_idem (adder : PrefillAdder) (tokens : Int) :
    adder.ceilPagedTokens (adder.ceilPagedTokens tokens) = adder.ceilPagedTokens tokens := by
  unfold PrefillAdder.ceilPagedTokens
  by_cases hpage : (adder.pageSize : Int) = 0
  · rw [hpage, mul_zero, mul_zero]
  · rw [neg_mul (-tokens / _), neg_neg, Int.mul_ediv_cancel _ hpage, neg_mul]

/-- What the budget of an adder is computed with. -/
structure SameBudgeting (adder adder' : PrefillAdder) : Prop where
  pageSize : adder'.pageSize = adder.pageSize
  clip : adder'.clipMaxNewTokens = adder.clipMaxNewTokens
  ratio : adder'.newTokenRatio = adder.newTokenRatio

theorem SameBudgeting.charge_eq {adder adder' : PrefillAdder} (h : SameBudgeting adder adder') :
    charge adder' = charge adder := by
  funext a
  unfold charge PrefillAdder.ceilPagedTokens
  rw [h.pageSize, h.clip]

theorem SameBudgeting.offset_eq {adder adder' : PrefillAdder} (h : SameBudgeting adder adder') :
    adder'.runningRequestTotalTokenOffset = adder.runningRequestTotalTokenOffset := by
  funext r
  unfold PrefillAdder.runningRequestTotalTokenOffset
  rw [h.clip, h.ratio]

theorem SameBudgeting.reservations_eq {adder adder' : PrefillAdder} (h : SameBudgeting adder adder') :
    reservations adder' = reservations adder := by
  funext reqs
  rw [reservations, h.offset_eq]
  rfl

/-- The request is charged and listed, or nothing of either has changed. -/
structure AddsOne (adder : PrefillAdder) (req : Req) (adder' : PrefillAdder) : Prop where
  same : SameBudgeting adder adder'
  listed : adder'.canRunList = adder.canRunList ∧ adder'.remTotalTokenOffset = adder.remTotalTokenOffset ∨
    ∃ r, adder'.canRunList = adder.canRunList ++ [r] ∧
      adder'.remTotalTokenOffset = adder.remTotalTokenOffset + (charge adder ⟨req, r⟩ : Int)

theorem addsOne_none {adder adder' : PrefillAdder} (req : Req) (hsame : SameBudgeting adder adder')
    (hlist : adder'.canRunList = adder.canRunList)
    (htotal : adder'.remTotalTokenOffset = adder.remTotalTokenOffset) : AddsOne adder req adder' :=
  ⟨hsame, .inl ⟨hlist, htotal⟩⟩

/-- A request admitted as a whole. -/
theorem addsOne_whole {adder adder' : PrefillAdder} {req : Req} {tokens : Int} (hsame : SameBudgeting adder adder')
    (hlist : adder'.canRunList = adder.canRunList ++ [req])
    (htokens : adder.ceilPagedTokens tokens = adder.ceilPagedTokens req.extendInputLen)
    (htotal : adder'.remTotalTokenOffset = adder.remTotalTokenOffset +
      (adder.ceilPagedTokens tokens + min (req.maxNewTokens : Int) adder.clipMaxNewTokens : Int)) :
    AddsOne adder req adder' := by
  refine ⟨hsame, .inr ⟨req, hlist, ?_⟩⟩
  rw [htotal, charge, if_neg (lt_irrefl _), htokens]

/-- A request cut to a chunk. -/
theorem addsOne_chunk {adder adder' : PrefillAdder} {req r : Req} (hsame : SameBudgeting adder adder')
    (hlist : adder'.canRunList = adder.canRunList ++ [r]) (hcut : r.extendInputLen < req.extendInputLen)
    (htotal : adder'.remTotalTokenOffset = adder.remTotalTokenOffset +
      (adder.ceilPagedTokens r.extendInputLen + 0 : Int)) : AddsOne adder req adder' := by
  refine ⟨hsame, .inr ⟨r, hlist, ?_⟩⟩
  rw [htotal, charge, if_pos hcut]

theorem addOneReq_addsOne (tree : TreeCache) (adder : PrefillAdder) (req : Req) :
    AddsOne adder req (adder.addOneReq tree req).1 := by
  have hsame : ∀ {adder' : PrefillAdder}, adder'.pageSize = adder.pageSize →
      adder'.clipMaxNewTokens = adder.clipMaxNewTokens → adder'.newTokenRatio = adder.newTokenRatio →
      SameBudgeting adder adder' := fun hpage hclip hratio => ⟨hpage, hclip, hratio⟩
  unfold PrefillAdder.addOneReq
  split
  next =>
    simp only [PrefillAdder.addOneReqIgnoreEos]
    split
    next => exact addsOne_none req (hsame rfl rfl rfl) rfl rfl
    next =>
      split
      next => exact addsOne_none req (hsame rfl rfl rfl) rfl rfl
      next =>
        split
        next => exact addsOne_whole (hsame rfl rfl rfl) rfl rfl rfl
        next truncLen _ =>
          split
          next => exact addsOne_whole (hsame rfl rfl rfl) rfl rfl rfl
          next hlt =>
            split
            next => exact addsOne_none req (hsame rfl rfl rfl) rfl rfl
            next => exact addsOne_chunk (hsame rfl rfl rfl) rfl (not_le.mp hlt) rfl
  next =>
    simp only
    split
    next => exact addsOne_none req (hsame rfl rfl rfl) rfl rfl
    next =>
      split
      next => exact addsOne_none req (hsame rfl rfl rfl) rfl rfl
      next =>
        split
        next => exact addsOne_none req (hsame rfl rfl rfl) rfl rfl
        next =>
          have hwhole := ceilPagedTokens_idem adder req.extendInputLen
          split
          next => exact addsOne_whole (hsame rfl rfl rfl) rfl hwhole rfl
          next remChunkTokens _ =>
            split
            next => exact addsOne_whole (hsame rfl rfl rfl) rfl hwhole rfl
            next hlt =>
              split
              next => exact addsOne_none req (hsame rfl rfl rfl) rfl rfl
              next truncLen htrunc =>
                have hpage : 0 < adder.pageSize := by
                  by_contra hzero
                  rw [PrefillAdder.truncLen, Nat.eq_zero_of_not_pos hzero, Nat.cast_zero, mul_zero,
                    if_pos le_rfl] at htrunc
                  cases htrunc
                exact addsOne_chunk (hsame rfl rfl rfl) rfl (truncLen_lt hpage (not_le.mp hlt) htrunc) rfl

/-! ## `preempt_to_schedule` -/

section Preempt

variable {args : PreemptionArgs} {releaseSize : List PriorityReq → PriorityReq → Nat} {s : Preempting ρ}
  {req : PriorityReq}

/-- Running requests are distinct objects, and none has been preempted. -/
structure Distinct (s : Preempting ρ) : Prop where
  nodup : (s.batch.reqs.map (·.ref)).Nodup
  fresh : ∀ r ∈ s.batch.reqs, r.ref ∉ s.preemptList.map (·.ref)

theorem sortedRunningReqs_perm (args : PreemptionArgs) (reqs : List PriorityReq) : (args.sortedRunningReqs reqs).Perm reqs :=
  List.mergeSort_perm _ _

/-- The first loop collects the requests of lower priority and subtracts their reservations. -/
theorem collect_eq (args : PreemptionArgs) (req : PriorityReq) (h : Distinct s) : ∃ order : List PriorityReq,
    order.Perm (s.batch.reqs.filter (args.preemptible req)) ∧
      s.collect args req = (order, tokensNeeded s.adder req - s.adder.remTotalTokens -
        reservations s.adder (s.batch.reqs.filter (args.preemptible req))) := by
  have hloop : ∀ (reqs found : List PriorityReq) (missing : Rat),
      (∀ r ∈ reqs, r.ref ∉ s.preemptList.map (·.ref)) →
      reqs.foldl (fun loop runningReq =>
        if runningReq.ref ∈ s.preemptList.map (·.ref) then loop
        else if args.preemptible req runningReq then
          (loop.1 ++ [runningReq], loop.2 - s.adder.runningRequestTotalTokenOffset runningReq.req)
        else loop) (found, missing) =
      (found ++ reqs.filter (args.preemptible req),
        missing - reservations s.adder (reqs.filter (args.preemptible req))) := by
    intro reqs
    induction reqs with
    | nil =>
      intro found missing _
      simp [reservations]
    | cons r reqs ih =>
      intro found missing hfresh
      obtain ⟨hr, hreqs⟩ := List.forall_mem_cons.mp hfresh
      rw [List.foldl_cons]
      dsimp only
      rw [if_neg hr, List.filter_cons]
      split
      · rw [ih _ _ hreqs, List.append_assoc, List.singleton_append, reservations, reservations, List.map_cons,
          List.sum_cons, sub_sub]
      · rw [ih _ _ hreqs]
  have hperm := sortedRunningReqs_perm args s.batch.reqs
  refine ⟨(args.sortedRunningReqs s.batch.reqs).filter (args.preemptible req), hperm.filter _, ?_⟩
  refine (hloop _ _ _ fun r hr => h.fresh r (hperm.mem_iff.mp hr)).trans ?_
  rw [List.nil_append]
  refine congrArg (Prod.mk _) (congrArg₂ _ rfl ?_)
  exact ((hperm.filter _).map _).sum_eq

/-- What the second loop leaves. -/
structure Released (req : PriorityReq) (low : PriorityReq → Bool) (i : Nat) (reqs : List PriorityReq)
    (s s' : Preempting.Releasing) : Prop where
  released : s'.released = s.released ++ reqs.filter low
  keepIndices : s'.keepIndices = s.keepIndices ++ keptRows (fun r => !low r) reqs i
  adder : ∃ available, s.adder.availableAndEvictable ≤ available ∧
    s'.adder = { s.adder with
      remTotalTokenOffset := s.adder.remTotalTokenOffset -
        (reqs.filter low).length * s.adder.runningRequestTotalTokenOffset req.req
      availableAndEvictable := available }

theorem releaseLoop_released {low : PriorityReq → Bool} {preemptibleReqs : List PriorityReq}
    (reqs : List PriorityReq) (hlow : ∀ r ∈ reqs, r.ref ∈ preemptibleReqs.map (·.ref) ↔ low r = true) (i : Nat)
    (s : Preempting.Releasing) :
    Released req low i reqs s (Preempting.releaseLoop releaseSize req preemptibleReqs i reqs s) := by
  induction reqs generalizing i s with
  | nil => exact ⟨by simp [Preempting.releaseLoop], by simp [Preempting.releaseLoop, keptRows], _, le_rfl,
      by simp [Preempting.releaseLoop]⟩
  | cons r reqs ih =>
    obtain ⟨hr, hreqs⟩ := List.forall_mem_cons.mp hlow
    rw [Preempting.releaseLoop]
    by_cases hmem : r.ref ∈ preemptibleReqs.map (·.ref)
    · obtain ⟨hreleased, hkeep, available, hle, hadder⟩ := ih hreqs (i + 1) { s with
        adder := { s.adder with
          remTotalTokenOffset := s.adder.remTotalTokenOffset - s.adder.runningRequestTotalTokenOffset req.req
          availableAndEvictable := s.adder.availableAndEvictable + releaseSize s.released r }
        released := s.released ++ [r] }
      rw [if_pos hmem]
      have hkept := hr.mp hmem
      refine ⟨?_, ?_, available, ?_, ?_⟩
      · rw [hreleased, List.filter_cons_of_pos hkept, List.append_assoc, List.singleton_append]
      · rw [hkeep, keptRows_cons, hkept]
        rfl
      · exact le_trans (le_add_of_nonneg_right (Int.natCast_nonneg _)) hle
      · rw [hadder, List.filter_cons_of_pos hkept, List.length_cons]
        simp only [PrefillAdder.mk.injEq, PrefillAdder.runningRequestTotalTokenOffset, and_self, and_true, true_and]
        push_cast
        ring
    · obtain ⟨hreleased, hkeep, available, hle, hadder⟩ := ih hreqs (i + 1)
        { s with keepIndices := s.keepIndices ++ [i] }
      rw [if_neg hmem]
      have hkept : low r = false := Bool.eq_false_iff.mpr fun hlow => hmem (hr.mpr hlow)
      refine ⟨?_, ?_, available, hle, ?_⟩
      · rw [hreleased, List.filter_cons_of_neg (by rw [hkept]; decide)]
      · rw [hkeep, keptRows_cons, hkept, List.append_assoc]
        rfl
      · rw [hadder, List.filter_cons_of_neg (by rw [hkept]; decide)]

/-- Reading a list of values at the kept rows gives the values of what is kept. -/
theorem filterMap_keptRows {τ β : Type} (keep : τ → Bool) (f : τ → β) (xs : List τ) :
    (keptRows keep xs 0).filterMap ((xs.map f)[·]?) = (xs.filter keep).map f := by
  have hrows : (keptRows keep xs 0).map ((xs.map f)[·]?) = ((xs.filter keep).map f).map some := by
    refine List.ext_getElem? fun i => ?_
    rw [List.getElem?_map, List.getElem?_map, List.getElem?_map]
    cases hrow : (keptRows keep xs 0)[i]? with
    | some row =>
      obtain ⟨-, hget⟩ := getElem?_keptRows keep xs 0 hrow
      have hi := (List.getElem?_eq_some_iff.mp hrow).1
      rw [length_keptRows] at hi
      rw [Nat.sub_zero, List.getElem?_eq_getElem hi] at hget
      rw [Option.map_some, List.getElem?_map, hget, List.getElem?_eq_getElem hi]
      rfl
    | none =>
      rw [List.getElem?_eq_none_iff, length_keptRows] at hrow
      rw [List.getElem?_eq_none hrow]
      rfl
  have hsome := congrArg (List.filterMap id) hrows
  rwa [List.filterMap_map, List.filterMap_map, Function.id_comp, Function.id_comp, List.filterMap_some] at hsome

theorem filterBatch_kept {rowOf : PriorityReq → ρ} {batch : RunningBatch ρ} (keep : PriorityReq → Bool)
    (h : RowsAligned rowOf batch) :
    (batch.filterBatch (keptRows keep batch.reqs 0)).reqs = batch.reqs.filter keep ∧
      RowsAligned rowOf (batch.filterBatch (keptRows keep batch.reqs 0)) := by
  unfold RunningBatch.filterBatch
  rw [length_keptRows]
  split
  next hnone => exact ⟨(List.eq_nil_of_length_eq_zero hnone).symm, .inl rfl⟩
  next hsome =>
    split
    next hall => exact ⟨(List.filter_sublist.eq_of_length hall).symm, h⟩
    next =>
      have hreqs := filterMap_keptRows keep id batch.reqs
      rw [List.map_id, List.map_id] at hreqs
      refine ⟨hreqs, .inr ?_⟩
      rcases h with hnil | hrows
      · rw [hnil] at hsome
        exact absurd rfl hsome
      · show (keptRows keep batch.reqs 0).filterMap (batch.rows[·]?) = _
        rw [hrows, filterMap_keptRows, hreqs]

theorem mem_order_iff (h : Distinct s) {order : List PriorityReq}
    (hperm : order.Perm (s.batch.reqs.filter (args.preemptible req))) :
    ∀ r ∈ s.batch.reqs, r.ref ∈ order.map (·.ref) ↔ args.preemptible req r = true := by
  intro r hr
  constructor
  · intro hmem
    obtain ⟨r', hr', href⟩ := List.mem_map.mp hmem
    obtain ⟨hrunning, hlow⟩ := List.mem_filter.mp (hperm.mem_iff.mp hr')
    rw [← List.inj_on_of_nodup_map h.nodup hrunning hr href]
    exact hlow
  · intro hlow
    exact List.mem_map_of_mem (hperm.mem_iff.mpr (List.mem_filter.mpr ⟨hr, hlow⟩))

/-- A granted call: what it releases, and how batch and budget follow. -/
structure Grants (args : PreemptionArgs) (s : Preempting ρ) (req : PriorityReq) (released : List PriorityReq)
    (s' : Preempting ρ) : Prop where
  lower : released = s.batch.reqs.filter (args.preemptible req)
  batch : s'.batch = s.batch.filterBatch (keptRows (fun r => !args.preemptible req r) s.batch.reqs 0)
  same : SameBudgeting s.adder s'.adder
  canRunList : s'.adder.canRunList = s.adder.canRunList
  total : s'.adder.remTotalTokenOffset = s.adder.remTotalTokenOffset -
    released.length * s.adder.runningRequestTotalTokenOffset req.req
  available : s.adder.availableAndEvictable ≤ s'.adder.availableAndEvictable
  preempted : ∃ order : List PriorityReq, order.Perm released ∧
    s'.preemptList = s.preemptList ++ order.map PriorityReq.resetForRetract

/-- A call is granted where there are requests of lower priority and their reservations suffice. -/
theorem preemptToSchedule_cases (args : PreemptionArgs) (releaseSize : List PriorityReq → PriorityReq → Nat)
    (req : PriorityReq) (h : Distinct s) :
    let low := s.batch.reqs.filter (args.preemptible req)
    let answer := s.preemptToSchedule args releaseSize req
    if low ≠ [] ∧ tokensNeeded s.adder req - s.adder.remTotalTokens ≤ reservations s.adder low then
      answer.1 = true ∧ Grants args s req answer.2.1 answer.2.2
    else answer = (false, [], s) := by
  intro low answer
  obtain ⟨order, hperm, hcollect⟩ := collect_eq args req h
  have hnil : order = [] ↔ low = [] := by
    rw [← List.length_eq_zero_iff, ← List.length_eq_zero_iff, hperm.length_eq]
  have hanswer : answer = s.preemptToSchedule args releaseSize req := rfl
  rw [Preempting.preemptToSchedule, hcollect] at hanswer
  dsimp only at hanswer
  split
  next hgrant =>
    rw [if_neg] at hanswer
    · have hloop : Released req (args.preemptible req) 0 s.batch.reqs ⟨s.adder, [], []⟩
          (Preempting.releaseLoop releaseSize req order 0 s.batch.reqs ⟨s.adder, [], []⟩) :=
        releaseLoop_released _ (mem_order_iff h hperm) 0 _
      obtain ⟨available, hle, hadder⟩ := hloop.adder
      have hreleased := hloop.released
      have hkeep := hloop.keepIndices
      rw [List.nil_append] at hreleased hkeep
      rw [hanswer]
      refine ⟨rfl, hreleased, congrArg s.batch.filterBatch hkeep, ?_, ?_, ?_, ?_, order, ?_, rfl⟩
      · dsimp only
        rw [hadder]
        exact ⟨rfl, rfl, rfl⟩
      · dsimp only
        rw [hadder]
      · dsimp only
        rw [hadder, hreleased]
      · dsimp only
        rw [hadder]
        exact hle
      · dsimp only
        rw [hreleased]
        exact hperm
    · rw [not_or, hnil]
      exact ⟨hgrant.1, not_lt.mpr (sub_nonpos.mpr hgrant.2)⟩
  next hrefuse =>
    rw [if_pos] at hanswer
    · exact hanswer
    · rw [hnil]
      by_contra hnot
      rw [not_or] at hnot
      exact hrefuse ⟨hnot.1, sub_nonpos.mp (not_lt.mp hnot.2)⟩

theorem Grants.distinct {released : List PriorityReq} {s' : Preempting ρ} {rowOf : PriorityReq → ρ}
    (hgrants : Grants args s req released s') (h : Distinct s) (hrows : RowsAligned rowOf s.batch) :
    Distinct s' ∧ RowsAligned rowOf s'.batch ∧
      s'.batch.reqs = s.batch.reqs.filter fun r => !args.preemptible req r := by
  obtain ⟨hreqs, haligned⟩ := filterBatch_kept (fun r => !args.preemptible req r) hrows
  rw [← hgrants.batch] at hreqs haligned
  obtain ⟨order, hperm, hlist⟩ := hgrants.preempted
  refine ⟨⟨?_, ?_⟩, haligned, hreqs⟩
  · rw [hreqs]
    exact h.nodup.sublist (List.filter_sublist.map _)
  · intro r hr hmem
    rw [hreqs] at hr
    obtain ⟨hrunning, hkept⟩ := List.mem_filter.mp hr
    rw [hlist, List.map_append, List.mem_append, List.map_map] at hmem
    rcases hmem with hmem | hmem
    · exact h.fresh r hrunning hmem
    · rw [hgrants.lower] at hperm
      have hlow := (mem_order_iff h hperm r hrunning).mp hmem
      rw [hlow] at hkept
      cases hkept

theorem reservations_split (adder : PrefillAdder) (low : PriorityReq → Bool) (reqs : List PriorityReq) :
    reservations adder reqs = reservations adder (reqs.filter low) +
      reservations adder (reqs.filter fun r => !low r) := by
  rw [reservations, reservations, reservations, ← List.sum_append, ← List.map_append]
  exact ((List.filter_append_perm low reqs).map _).sum_eq.symm

end Preempt

/-! ## Runs -/

section Runs

variable {tree : TreeCache} {args : PreemptionArgs} {releaseSize : List PriorityReq → PriorityReq → Nat}
  {rowOf : PriorityReq → ρ} {mixed : Int} {run : AdderRun ρ}

theorem addOneReq_exact (h : BudgetExact mixed run) (req : Req) :
    BudgetExact mixed (run.call tree args releaseSize (.addOneReq req)) := by
  obtain ⟨hsame, hlisted⟩ := addOneReq_addsOne tree run.state.adder req
  have hreserved := hsame.reservations_eq
  have hcharge := hsame.charge_eq
  have hbatch : (run.call tree args releaseSize (.addOneReq req)).state.batch = run.state.batch := rfl
  have hadder : (run.call tree args releaseSize (.addOneReq req)).state.adder =
      (run.state.adder.addOneReq tree req).1 := rfl
  have hadmissions : (run.call tree args releaseSize (.addOneReq req)).admissions = run.admissions ++
      ((run.state.adder.addOneReq tree req).1.canRunList.drop run.state.adder.canRunList.length).map
        fun r => ⟨req, r⟩ := rfl
  constructor
  · rw [hadder, hadmissions]
    rcases hlisted with ⟨hlist, -⟩ | ⟨r, hlist, -⟩
    · rw [hlist, List.drop_length, List.map_nil, List.append_nil, h.admitted]
    · rw [hlist, List.drop_left, List.map_append, h.admitted]
      rfl
  · rw [hbatch, hadder, hadmissions, hreserved, hcharge]
    rcases hlisted with ⟨hlist, htotal⟩ | ⟨r, hlist, htotal⟩
    · rw [htotal, hlist, List.drop_length, List.map_nil, List.append_nil, h.total]
    · rw [htotal, hlist, List.drop_left, List.map_append, List.sum_append, h.total]
      simp only [List.map_cons, List.map_nil, List.sum_singleton]
      push_cast
      ring

theorem tokensNeeded_same {adder adder' : PrefillAdder} (h : SameBudgeting adder adder') (req : PriorityReq) :
    tokensNeeded adder' req = tokensNeeded adder req := by
  rw [tokensNeeded, tokensNeeded, h.clip]

/-- A granted call leaves the budget exact when what it takes off is what it releases. -/
theorem Grants.exact_iff {req : PriorityReq} {released : List PriorityReq} {s' : Preempting ρ}
    (hgrants : Grants args run.state req released s') (h : BudgetExact mixed run)
    (hkept : s'.batch.reqs = run.state.batch.reqs.filter fun r => !args.preemptible req r) :
    BudgetExact mixed ⟨s', run.admissions⟩ ↔ reservations run.state.adder released =
      released.length * run.state.adder.runningRequestTotalTokenOffset req.req := by
  have hsplit := reservations_split run.state.adder (args.preemptible req) run.state.batch.reqs
  rw [← hgrants.lower, ← hkept] at hsplit
  have htotal := h.total
  rw [hsplit] at htotal
  constructor
  · intro hafter
    have hafter := hafter.total
    rw [hgrants.total, hgrants.same.reservations_eq, hgrants.same.charge_eq, htotal] at hafter
    linarith
  · intro hbalanced
    refine ⟨hgrants.canRunList.trans h.admitted, ?_⟩
    rw [hgrants.total, hgrants.same.reservations_eq, hgrants.same.charge_eq, htotal, ← hbalanced]
    ring

theorem Grants.enough {s s' : Preempting ρ} {req : PriorityReq} {released : List PriorityReq}
    (hgrants : Grants args s req released s')
    (hcovered : tokensNeeded s.adder req - s.adder.remTotalTokens ≤ reservations s.adder released)
    (hbalanced : reservations s.adder released =
      released.length * s.adder.runningRequestTotalTokenOffset req.req) :
    tokensNeeded s'.adder req ≤ s'.adder.remTotalTokens := by
  have havailable : (s.adder.availableAndEvictable : Rat) ≤ s'.adder.availableAndEvictable :=
    Int.cast_le.mpr hgrants.available
  rw [tokensNeeded_same hgrants.same, PrefillAdder.remTotalTokens, hgrants.total, ← hbalanced]
  rw [PrefillAdder.remTotalTokens] at hcovered
  linarith

/-- One call keeps what is claimed of it exactly when it is balanced. -/
theorem callKept_iff (tree : TreeCache) (args : PreemptionArgs)
    (releaseSize : List PriorityReq → PriorityReq → Nat) (h : BudgetExact mixed run) (hdistinct : Distinct run.state)
    (hrows : RowsAligned rowOf run.state.batch) (call : AdderCall) :
    CallKept tree args releaseSize rowOf mixed run call ↔ CallBalanced args run call := by
  cases call with
  | addOneReq req => exact iff_of_true ⟨addOneReq_exact h req, trivial⟩ trivial
  | preemptToSchedule req =>
    have hcases := preemptToSchedule_cases args releaseSize req hdistinct
    dsimp only at hcases
    unfold CallKept CallBalanced AdderRun.call
    dsimp only
    split at hcases
    next hgrant =>
      obtain ⟨htrue, hgrants⟩ := hcases
      obtain ⟨hdistinct', hrows', hkept⟩ := hgrants.distinct hdistinct hrows
      have hexact := hgrants.exact_iff h hkept
      rw [hgrants.lower] at hexact
      rw [hexact]
      constructor
      · exact fun hcall _ _ => hcall.1
      · intro hbalanced
        have hsum := hbalanced hgrant.1 hgrant.2
        refine ⟨hsum, fun hfalse => ?_, fun _ => ?_⟩
        · rw [htrue] at hfalse
          cases hfalse
        · have hlower := hgrants.lower
          refine ⟨hlower ▸ hgrant.1, hlower, ?_, hkept, hgrants.preempted, hrows', ?_⟩
          · rw [hlower]
            exact hdistinct.nodup.sublist (List.filter_sublist.map _)
          · exact hgrants.enough (hlower ▸ hgrant.2) (hlower ▸ hsum)
    next hrefuse =>
      refine iff_of_true ?_ fun hlow hcovered => absurd ⟨hlow, hcovered⟩ hrefuse
      rw [hcases]
      exact ⟨h, fun _ => ⟨rfl, rfl⟩, fun htrue => by cases htrue⟩

/-- Every call leaves the running requests distinct and their rows aligned. -/
theorem call_keeps (tree : TreeCache) (args : PreemptionArgs)
    (releaseSize : List PriorityReq → PriorityReq → Nat) (hdistinct : Distinct run.state) (hrows : RowsAligned rowOf run.state.batch) (call : AdderCall) :
    Distinct (run.call tree args releaseSize call).state ∧
      RowsAligned rowOf (run.call tree args releaseSize call).state.batch := by
  cases call with
  | addOneReq req => exact ⟨⟨hdistinct.nodup, hdistinct.fresh⟩, hrows⟩
  | preemptToSchedule req =>
    have hcases := preemptToSchedule_cases args releaseSize req hdistinct
    dsimp only at hcases
    unfold AdderRun.call
    dsimp only
    split at hcases
    next =>
      obtain ⟨hdistinct', hrows', -⟩ := hcases.2.distinct hdistinct hrows
      exact ⟨hdistinct', hrows'⟩
    next =>
      rw [hcases]
      exact ⟨hdistinct, hrows⟩

theorem callsKept_iff (calls : List AdderCall) (h : BudgetExact mixed run) (hdistinct : Distinct run.state)
    (hrows : RowsAligned rowOf run.state.batch) :
    CallsKept tree args releaseSize rowOf mixed calls run ↔ CallsBalanced tree args releaseSize calls run := by
  induction calls generalizing run with
  | nil => exact Iff.rfl
  | cons call calls ih =>
    have hcall := callKept_iff tree args releaseSize h hdistinct hrows call
    obtain ⟨hdistinct', hrows'⟩ := call_keeps tree args releaseSize hdistinct hrows call
    unfold CallsKept CallsBalanced
    constructor
    · intro ⟨hkept, hrest⟩
      exact ⟨hcall.mp hkept, (ih hkept.1 hdistinct' hrows').mp hrest⟩
    · intro ⟨hbalanced, hrest⟩
      have hkept := hcall.mpr hbalanced
      exact ⟨hkept, (ih hkept.1 hdistinct' hrows').mpr hrest⟩

/-- A `PrefillAdder` on a running batch, before its first call. -/
def AdderRun.new (s : PrefillState) (mixed : Int) (batch : RunningBatch ρ) : AdderRun ρ :=
  ⟨Preempting.new s mixed batch, []⟩

theorem new_exact (s : PrefillState) (mixed : Int) (batch : RunningBatch ρ) :
    BudgetExact mixed (AdderRun.new s mixed batch) :=
  ⟨rfl, (add_zero _).symm⟩

/-- Over every sequence of calls on one adder, each call keeps the budget exact and is atomic exactly when each
preemption that is granted is balanced. -/
theorem preemption_keeps_budget_iff (tree : TreeCache) (args : PreemptionArgs)
    (releaseSize : List PriorityReq → PriorityReq → Nat) (rowOf : PriorityReq → ρ) (s : PrefillState) (mixed : Int)
    (batch : RunningBatch ρ) (hnodup : (batch.reqs.map (·.ref)).Nodup) (hrows : RowsAligned rowOf batch)
    (calls : List AdderCall) :
    CallsKept tree args releaseSize rowOf mixed calls (AdderRun.new s mixed batch) ↔
      CallsBalanced tree args releaseSize calls (AdderRun.new s mixed batch) :=
  callsKept_iff calls (new_exact s mixed batch) ⟨hnodup, fun _ _ hmem => by cases hmem⟩ hrows

end Runs

/-! ## One request preempted -/

def threeTokenReq (extendInputLen : Int) (maxNewTokens : Nat) : Req where
  originInputIds := [1, 2, 3]
  outputIds := []
  fillIds := [1, 2, 3]
  prefixIndices := []
  extendInputLen := extendInputLen
  maxNewTokens := maxNewTokens
  ignoreEos := false
  extraKey := none
  logprobStartLen := none
  blend := none

def lowReq : PriorityReq := ⟨1, 0, 0, threeTokenReq 3 10⟩

def urgentReq : PriorityReq := ⟨2, 5, 1, threeTokenReq 3 4⟩

/-- Twelve tokens are left, of which ten are reserved for the running request. -/
def twelveTokens : PrefillState where
  tree := ⟨false, fun _ _ => [], fun _ => 0⟩
  pageSize := 1
  clipMaxNewTokens := 4096
  maxPrefillTokens := 100
  chunkedPrefillSize := none
  truncationAlignSize := none
  isMixedChunk := false
  newTokenRatio := 1
  availableAndEvictable := 12
  numAllocatableReqs := 8
  batchIsFull := false
  running := []
  chunkedReq := none
  waitingQueue := []

theorem preemption_keeps_budget_iff_twelve :
    let calls := [AdderCall.addOneReq (threeTokenReq 1 1), .preemptToSchedule urgentReq]
    let run : AdderRun Nat := AdderRun.new twelveTokens 0 ⟨[lowReq], [1]⟩
    CallsKept twelveTokens.tree ⟨false, 0⟩ (fun _ _ => 3) (·.ref) 0 calls run ↔
      CallsBalanced twelveTokens.tree ⟨false, 0⟩ (fun _ _ => 3) calls run :=
  preemption_keeps_budget_iff twelveTokens.tree ⟨false, 0⟩ (fun _ _ => 3) (·.ref) twelveTokens 0 ⟨[lowReq], [1]⟩
    (List.nodup_singleton _) (.inr rfl) _

/-- The request released had ten tokens reserved, and four are taken off for it. -/
theorem preemption_loses_budget : ¬ CallsKept twelveTokens.tree ⟨false, 0⟩ (fun _ _ => 3) (·.ref) 0
    [.preemptToSchedule urgentReq] (AdderRun.new twelveTokens 0 ⟨[lowReq], [1]⟩ : AdderRun Nat) := by
  intro hkept
  have hbalanced := (callsKept_iff _ (new_exact twelveTokens 0 ⟨[lowReq], [1]⟩)
    ⟨List.nodup_singleton _, fun _ _ hmem => by cases hmem⟩ (.inr rfl)).mp hkept
  have hten := hbalanced.1 (by decide) (by decide +kernel)
  exact absurd hten (by decide +kernel)

end QCFuse.Guarantees
