import Mathlib.Data.List.ReduceOption
import QCFuse.Library.Transition
import QCFuse.Source.LoraRegistry

/-!
# Counters of LoRA adapters

Client calls, endings of requests, loads and unloads in any order. The counter of an adapter is
the number of its acquisitions that have not ended, as long as every request that was acquired for
is sent once and ends by a handler that releases.
-/

set_option autoImplicit false

namespace QCFuse.Guarantees

open QCFuse.Library QCFuse.Source

inductive LoraUseLabel where
  | load (loraName loraId : String)
  | unload (loraName : String)
  | sendUnload (loraId : String)
  | acquire (call : Nat) (loraNames : List (Option String))
  | send (call : Nat) (loraId : Option String)
  | warm (call : Nat) (loraId : Option String)
  | endCall (call : Nat)
  | finishOutput (i : Nat) (reason : FinishReason)
  | abortReq (i : Nat) (reason : FinishReason)
  | wake (i : Nat)
  | disconnect (i : Nat)
  | runRelease (loraId : String)

namespace LoraTraffic

def step : LoraUseLabel → LoraTraffic → Option LoraTraffic
  | .load loraName loraId, s => s.load loraName loraId
  | .unload loraName, s => s.unload loraName
  | .sendUnload loraId, s => s.sendUnload loraId
  | .acquire call loraNames, s => s.acquire call loraNames
  | .send call loraId, s => s.send call loraId
  | .warm call loraId, s => s.warm call loraId
  | .endCall call, s => some (s.endCall call)
  | .finishOutput i reason, s => s.finishOutput i reason
  | .abortReq i reason, s => s.abortReq i reason
  | .wake i, s => s.wake i
  | .disconnect i, s => s.disconnect i
  | .runRelease loraId, s => s.runRelease loraId

end LoraTraffic

def loraUseMachine : Machine LoraTraffic LoraUseLabel where
  step := LoraTraffic.step

/-- The generator answers this reason with an HTTP error. -/
def RaisesHttp (reason : FinishReason) : Prop := ∃ code detail, reason.failure = some (.httpException code detail)

/-- No prefix request carries an adapter, a call has sent all its adapters when it ends, output
finishes a request with an adapter by no HTTP error, an abort finishes it by one that its
generator is there to take, and the client stays for that. -/
def EndsByRelease (s : LoraTraffic) : LoraUseLabel → Prop
  | .warm _ loraId => loraId = none
  | .endCall call => ∀ entry ∈ s.unsent, entry.1 = call → entry.2 = none
  | .finishOutput i reason => ∀ r, s.requests[i]? = some r → r.loraId ≠ none → r.listening = true → ¬RaisesHttp reason
  | .abortReq i reason => ∀ r, s.requests[i]? = some r → r.loraId ≠ none → r.listening = true ∧ RaisesHttp reason
  | .disconnect i => ∀ r, s.requests[i]? = some r → r.loraId ≠ none → r.known = false ∨ r.reason = none
  | _ => True

/-! ## Acquisitions that have not ended -/

/-- Not answered, or answered and not taken by the generator. -/
def SentRequest.held (r : SentRequest) : Bool := r.known && (r.reason.isNone || r.listening)

def holds (loraId : String) (r : SentRequest) : Bool := decide (r.loraId = some loraId) && SentRequest.held r

def unsentFor (s : LoraTraffic) (loraId : String) : Nat := s.unsent.countP fun entry => decide (entry.2 = some loraId)

/-- Acquisitions of calls that have not sent yet, of requests that have not ended, and those whose
release is about to run. -/
def inUse (s : LoraTraffic) (loraId : String) : Nat :=
  unsentFor s loraId + s.requests.countP (holds loraId) + s.releaseTasks.count loraId

structure LoraCountsExact (s : LoraTraffic) : Prop where
  counts : ∀ loraId count, s.registry.counters.get? loraId = some count → count = (inUse s loraId : Int)
  once : ∀ loraId, s.acquired.count loraId = s.released.count loraId + inUse s loraId
  unloads : ∀ loraId ∈ s.unloaded, unsentFor s loraId = 0 ∧
    ∀ r ∈ s.requests, r.loraId = some loraId → r.reason ≠ none

/-! ## The invariant -/

/-- How a request with an adapter can stand. -/
structure HandsBack (r : SentRequest) : Prop where
  known : r.known = true → r.reason = none ∨ r.listening = true ∧ ∃ reason, r.reason = some reason ∧ RaisesHttp reason
  gone : r.known = false → ∃ reason, r.reason = some reason ∧ (r.listening = true → ¬RaisesHttp reason)

structure LoraUseInv (s : LoraTraffic) : Prop where
  counts : ∀ loraId count, s.registry.counters.get? loraId = some count → count = (inUse s loraId : Int)
  absent : ∀ loraId, s.registry.counters.get? loraId = none → inUse s loraId = 0
  once : ∀ loraId, s.acquired.count loraId = s.released.count loraId + inUse s loraId
  requests : ∀ r ∈ s.requests, r.loraId ≠ none → HandsBack r
  names : ∀ name name' loraId, s.registry.registry.get? name = some loraId →
    s.registry.registry.get? name' = some loraId → name = name'
  registered : ∀ name loraId, s.registry.registry.get? name = some loraId →
    loraId ∈ s.usedIds ∧ (∃ count, s.registry.counters.get? loraId = some count) ∧ loraId ∉ s.unloading
  unloading : ∀ loraId ∈ s.unloading, loraId ∈ s.usedIds
  unloaded : ∀ loraId ∈ s.unloaded, loraId ∈ s.usedIds ∧ s.registry.counters.get? loraId = none
  used : ∀ loraId, (∃ count, s.registry.counters.get? loraId = some count) → loraId ∈ s.usedIds

theorem HandsBack.held {r : SentRequest} (h : HandsBack r) : SentRequest.held r = r.known := by
  unfold SentRequest.held
  cases hknown : r.known with
  | false => rfl
  | true =>
    rcases h.known hknown with hnone | ⟨hlistening, -⟩
    · rw [hnone]
      rfl
    · rw [hlistening, Bool.or_true]
      rfl

namespace LoraUseInv

variable {s s' : LoraTraffic}

theorem new : LoraUseInv .new where
  counts _ _ h := by cases h
  absent _ _ := rfl
  once _ := rfl
  requests _ h := by cases h
  names _ _ _ h := by cases h
  registered _ _ h := by cases h
  unloading _ h := by cases h
  unloaded _ h := by cases h
  used _ h := by
    obtain ⟨_, h⟩ := h
    cases h

theorem exact (h : LoraUseInv s) : LoraCountsExact s := by
  refine ⟨h.counts, h.once, fun loraId hunloaded => ?_⟩
  have hzero : inUse s loraId = 0 := h.absent loraId (h.unloaded loraId hunloaded).2
  unfold inUse at hzero
  refine ⟨by omega, fun r hr hid hnone => ?_⟩
  have hback := h.requests r hr (by rw [hid]; simp)
  have hknown : r.known = true := by
    by_contra hgone
    obtain ⟨reason, hreason, -⟩ := hback.gone (Bool.not_eq_true _ ▸ hgone)
    rw [hnone] at hreason
    cases hreason
  have hholds : holds loraId r = true := by
    rw [holds, hback.held, hknown, decide_eq_true hid]
    rfl
  have hpos := List.countP_pos_iff.mpr ⟨r, hr, hholds⟩
  omega

/-- Requests and release tasks change and nothing is acquired or released. -/
theorem keep (h : LoraUseInv s) (hregistry : s'.registry = s.registry) (hunloading : s'.unloading = s.unloading)
    (hunloaded : s'.unloaded = s.unloaded) (hused : s'.usedIds = s.usedIds) (hacquired : s'.acquired = s.acquired)
    (hreleased : s'.released = s.released) (huse : ∀ loraId, inUse s' loraId = inUse s loraId)
    (hrequests : ∀ r ∈ s'.requests, r.loraId ≠ none → HandsBack r) : LoraUseInv s' where
  counts loraId count hget := by
    rw [huse]
    exact h.counts loraId count (hregistry ▸ hget)
  absent loraId hget := by
    rw [huse]
    exact h.absent loraId (hregistry ▸ hget)
  once loraId := by
    rw [huse, hacquired, hreleased]
    exact h.once loraId
  requests := hrequests
  names := by
    rw [hregistry]
    exact h.names
  registered := by
    rw [hregistry, hused, hunloading]
    exact h.registered
  unloading := by
    rw [hunloading, hused]
    exact h.unloading
  unloaded := by
    rw [hunloaded, hused, hregistry]
    exact h.unloaded
  used := by
    rw [hregistry, hused]
    exact h.used

end LoraUseInv

/-- Replacing one request moves the number of held ones by that request. -/
theorem holds_set {requests : List SentRequest} {i : Nat} {r : SentRequest} (h : requests[i]? = some r)
    (r' : SentRequest) (loraId : String) :
    (requests.set i r').countP (holds loraId) + (if holds loraId r then 1 else 0) =
      requests.countP (holds loraId) + if holds loraId r' then 1 else 0 := by
  induction requests generalizing i with
  | nil => cases h
  | cons head rest ih =>
    cases i with
    | zero =>
      cases h
      rw [List.set_cons_zero, List.countP_cons, List.countP_cons]
      omega
    | succ i =>
      have hrest := ih (i := i) h
      rw [List.set_cons_succ, List.countP_cons, List.countP_cons]
      omega

theorem count_toList (loraId : String) (adapter : Option String) :
    adapter.toList.count loraId = if adapter = some loraId then 1 else 0 := by
  cases adapter with
  | none => simp
  | some other => simp [List.count_singleton]

theorem mem_set_requests {requests : List SentRequest} {i : Nat} {r r' : SentRequest} (h : r ∈ requests.set i r') :
    r = r' ∨ r ∈ requests :=
  (List.mem_or_eq_of_mem_set h).symm

/-- A request that loses its hold gives one release task, if it has an adapter. -/
theorem holds_handed (r r' : SentRequest) (loraId : String) (hback : r.loraId ≠ none → HandsBack r)
    (hknown : r.known = true) (hgone : r'.known = false) :
    (if holds loraId r then 1 else 0) = (if holds loraId r' then 1 else 0) + r.loraId.toList.count loraId := by
  have hafter : holds loraId r' = false := by
    rw [holds, SentRequest.held, hgone, Bool.false_and, Bool.and_false]
  rw [hafter, count_toList]
  by_cases hid : r.loraId = some loraId
  · have hbefore : holds loraId r = true := by
      rw [holds, (hback (by rw [hid]; simp)).held, hknown, decide_eq_true hid]
      rfl
    rw [hbefore, if_pos hid]
    rfl
  · have hbefore : holds loraId r = false := by
      rw [holds, decide_eq_false hid, Bool.false_and]
    rw [hbefore, if_neg hid]
    rfl

namespace LoraUseInv

variable {s s' : LoraTraffic}

theorem finishOutput (h : LoraUseInv s) {i : Nat} {reason : FinishReason} (hguard : EndsByRelease s (.finishOutput i reason))
    (hstep : s.finishOutput i reason = some s') : LoraUseInv s' := by
  unfold LoraTraffic.finishOutput at hstep
  cases hget : s.requests[i]? with
  | none =>
    rw [hget] at hstep
    cases hstep
  | some r =>
    rw [hget] at hstep
    simp only at hstep
    split at hstep
    next hknown =>
      cases hstep
      refine h.keep rfl rfl rfl rfl rfl rfl (fun loraId => ?_) fun other hother hadapter => ?_
      · have hset := holds_set hget { r with known := false, reason := some reason } loraId
        have hhanded := holds_handed r { r with known := false, reason := some reason } loraId
          (h.requests r (List.mem_of_getElem? hget)) hknown rfl
        simp only [inUse, unsentFor, List.count_append]
        omega
      · rcases mem_set_requests hother with rfl | hold
        · exact ⟨fun hfalse => (by cases hfalse), fun _ => ⟨reason, rfl, hguard r hget hadapter⟩⟩
        · exact h.requests other hold hadapter
    next => cases hstep

theorem abortReq (h : LoraUseInv s) {i : Nat} {reason : FinishReason} (hguard : EndsByRelease s (.abortReq i reason))
    (hstep : s.abortReq i reason = some s') : LoraUseInv s' := by
  unfold LoraTraffic.abortReq at hstep
  cases hget : s.requests[i]? with
  | none =>
    rw [hget] at hstep
    cases hstep
  | some r =>
    rw [hget] at hstep
    simp only at hstep
    split at hstep
    next hknown =>
      cases hstep
      refine h.keep rfl rfl rfl rfl rfl rfl (fun loraId => ?_) fun other hother hadapter => ?_
      · have hset := holds_set hget { r with reason := some reason } loraId
        have hsame : holds loraId { r with reason := some reason } = holds loraId r := by
          by_cases hid : r.loraId = some loraId
          · have hadapter : r.loraId ≠ none := by
              rw [hid]
              simp
            have hheld := (h.requests r (List.mem_of_getElem? hget) hadapter).held
            have hlistening := (hguard r hget hadapter).1
            simp only [holds, SentRequest.held, hid, hknown, hlistening, Bool.or_true, Bool.and_true]
          · simp only [holds, decide_eq_false hid, Bool.false_and]
        rw [hsame] at hset
        simp only [inUse, unsentFor]
        omega
      · rcases mem_set_requests hother with rfl | hold
        · obtain ⟨hlistening, hhttp⟩ := hguard r hget hadapter
          refine ⟨fun _ => Or.inr ⟨hlistening, reason, rfl, hhttp⟩, fun hgone => ?_⟩
          rw [show r.known = false from hgone] at hknown
          cases hknown
        · exact h.requests other hold hadapter
    next => cases hstep

theorem disconnect (h : LoraUseInv s) {i : Nat} (hguard : EndsByRelease s (.disconnect i))
    (hstep : s.disconnect i = some s') : LoraUseInv s' := by
  unfold LoraTraffic.disconnect at hstep
  cases hget : s.requests[i]? with
  | none =>
    rw [hget] at hstep
    cases hstep
  | some r =>
    rw [hget] at hstep
    cases hstep
    have hr := h.requests r (List.mem_of_getElem? hget)
    refine h.keep rfl rfl rfl rfl rfl rfl (fun loraId => ?_) fun other hother hadapter => ?_
    · have hset := holds_set hget { r with listening := false } loraId
      have hsame : holds loraId { r with listening := false } = holds loraId r := by
        by_cases hid : r.loraId = some loraId
        · rcases hguard r hget (by rw [hid]; simp) with hgone | hnone
          · simp only [holds, SentRequest.held, hgone, Bool.false_and]
          · simp only [holds, SentRequest.held, hnone, Option.isNone_none, Bool.true_or]
        · simp only [holds, decide_eq_false hid, Bool.false_and]
      rw [hsame] at hset
      simp only [inUse, unsentFor]
      omega
    · rcases mem_set_requests hother with rfl | hold
      · refine ⟨fun hknown => ?_, fun hgone => ?_⟩
        · rcases hguard r hget hadapter with hgone | hnone
          · rw [show r.known = true from hknown] at hgone
            cases hgone
          · exact Or.inl hnone
        · obtain ⟨reason, hreason, -⟩ := (hr hadapter).gone hgone
          exact ⟨reason, hreason, fun hfalse => (by cases hfalse)⟩
      · exact h.requests other hold hadapter

theorem wake (h : LoraUseInv s) {i : Nat} (hstep : s.wake i = some s') : LoraUseInv s' := by
  unfold LoraTraffic.wake at hstep
  cases hget : s.requests[i]? with
  | none =>
    rw [hget] at hstep
    cases hstep
  | some r =>
    cases hreason : r.reason with
    | none =>
      simp only [hget, hreason] at hstep
      cases hstep
    | some reason =>
      simp only [hget, hreason] at hstep
      split at hstep
      next hlistening =>
        have hr := h.requests r (List.mem_of_getElem? hget)
        split at hstep
        next code detail hfailure =>
          -- an HTTP error: the request is still known, since output did not finish it
          cases hstep
          refine h.keep rfl rfl rfl rfl rfl rfl (fun loraId => ?_) fun other hother hadapter => ?_
          · have hset := holds_set hget { r with known := false, listening := false } loraId
            by_cases hid : r.loraId = some loraId
            · have hadapter : r.loraId ≠ none := by
                rw [hid]
                simp
              have hknown : r.known = true := by
                by_contra hgone
                obtain ⟨reason', hreason', hquiet⟩ := (hr hadapter).gone (Bool.not_eq_true _ ▸ hgone)
                rw [hreason] at hreason'
                obtain rfl := Option.some.inj hreason'
                exact hquiet hlistening ⟨code, detail, hfailure⟩
              have hhanded := holds_handed r { r with known := false, listening := false } loraId hr hknown rfl
              rw [hreason] at hset
              simp only [hreason] at hset hhanded
              simp only [inUse, unsentFor, List.count_append]
              omega
            · have hbefore : holds loraId r = false := by
                rw [holds, decide_eq_false hid, Bool.false_and]
              have hafter : holds loraId { r with known := false, listening := false } = false := by
                rw [holds, decide_eq_false hid, Bool.false_and]
              have hcount := count_toList loraId r.loraId
              rw [if_neg hid] at hcount
              rw [hbefore, hafter] at hset
              simp only [hreason] at hset
              simp only [inUse, unsentFor, List.count_append]
              omega
          · rcases mem_set_requests hother with rfl | hold
            · exact ⟨fun hfalse => (by cases hfalse), fun _ => ⟨reason, rfl, fun hfalse => (by cases hfalse)⟩⟩
            · exact h.requests other hold hadapter
        next hquiet =>
          cases hstep
          have hnot : ¬RaisesHttp reason := by
            rintro ⟨code, detail, hfailure⟩
            exact hquiet code detail hfailure
          have hgone : r.loraId ≠ none → r.known = false := by
            intro hadapter
            by_contra hknown
            rcases (hr hadapter).known (Bool.not_eq_false _ ▸ hknown) with hnone | ⟨-, reason', hreason', hhttp⟩
            · rw [hreason] at hnone
              cases hnone
            · rw [hreason] at hreason'
              exact hnot (Option.some.inj hreason' ▸ hhttp)
          refine h.keep rfl rfl rfl rfl rfl rfl (fun loraId => ?_) fun other hother hadapter => ?_
          · have hset := holds_set hget { r with listening := false } loraId
            have hsame : holds loraId { r with listening := false } = holds loraId r := by
              by_cases hid : r.loraId = some loraId
              · have := hgone (by rw [hid]; simp)
                simp only [holds, SentRequest.held, this, Bool.false_and]
              · simp only [holds, decide_eq_false hid, Bool.false_and]
            rw [hsame] at hset
            simp only [hreason] at hset
            simp only [inUse, unsentFor]
            omega
          · rcases mem_set_requests hother with rfl | hold
            · refine ⟨fun hknown => ?_, fun _ => ⟨reason, rfl, fun hfalse => (by cases hfalse)⟩⟩
              rw [show r.known = true from hknown] at hgone
              cases hgone hadapter
            · exact h.requests other hold hadapter
      next => cases hstep

theorem send (h : LoraUseInv s) {call : Nat} {loraId : Option String} (hstep : s.send call loraId = some s') :
    LoraUseInv s' := by
  unfold LoraTraffic.send at hstep
  split at hstep
  next hmem =>
    cases hstep
    refine h.keep rfl rfl rfl rfl rfl rfl (fun other => ?_) fun r hr hadapter => ?_
    · have hperm := (List.perm_cons_erase hmem).countP_eq fun entry => decide (entry.2 = some other)
      simp only [List.countP_cons] at hperm
      have hnew : holds other ⟨loraId, true, none, true⟩ = decide (loraId = some other) := by
        simp only [holds, SentRequest.held, Option.isNone_none, Bool.true_or, Bool.and_true]
      simp only [inUse, unsentFor, List.countP_append, List.countP_singleton, hnew]
      omega
    · rcases List.mem_append.mp hr with hold | hnew
      · exact h.requests r hold hadapter
      · obtain rfl := List.mem_singleton.mp hnew
        exact ⟨fun _ => Or.inl rfl, fun hfalse => (by cases hfalse)⟩
  next => cases hstep

theorem warm (h : LoraUseInv s) {call : Nat} (hstep : s.warm call none = some s') : LoraUseInv s' := by
  unfold LoraTraffic.warm at hstep
  split at hstep
  next =>
    cases hstep
    refine h.keep rfl rfl rfl rfl rfl rfl (fun other => ?_) fun r hr hadapter => ?_
    · have hnew : holds other ⟨none, true, none, true⟩ = false := rfl
      simp only [inUse, unsentFor, List.countP_append, List.countP_singleton, hnew]
      rfl
    · rcases List.mem_append.mp hr with hold | hnew
      · exact h.requests r hold hadapter
      · obtain rfl := List.mem_singleton.mp hnew
        exact absurd rfl hadapter
  next => cases hstep

theorem endCall (h : LoraUseInv s) {call : Nat} (hguard : EndsByRelease s (.endCall call)) : LoraUseInv (s.endCall call) := by
  refine h.keep rfl rfl rfl rfl rfl rfl (fun loraId => ?_) h.requests
  have hsame : (s.unsent.filter fun entry => entry.1 ≠ call).countP (fun entry => decide (entry.2 = some loraId)) =
      s.unsent.countP fun entry => decide (entry.2 = some loraId) := by
    rw [List.countP_filter]
    refine List.countP_congr fun entry hentry => ?_
    by_cases hcall : entry.1 = call
    · rw [hguard entry hentry hcall]
      simp
    · simp [hcall]
  simp only [inUse, unsentFor, LoraTraffic.endCall, hsame]

/-! ### The registry -/

theorem load (h : LoraUseInv s) {loraName loraId : String} (hstep : s.load loraName loraId = some s') : LoraUseInv s' := by
  unfold LoraTraffic.load LoraRegistry.register at hstep
  split at hstep
  next => cases hstep
  next hfresh =>
    split at hstep
    next => cases hstep
    next hname =>
      cases hstep
      have hcounter : s.registry.counters.get? loraId = none := by
        by_contra hsome
        exact hfresh (h.used loraId (Option.ne_none_iff_exists'.mp hsome))
      refine ⟨fun other count hget => ?_, fun other hget => ?_, h.once, h.requests, fun name name' other hn hn' => ?_,
        fun name other hn => ?_, fun other hmem => List.mem_cons_of_mem _ (h.unloading other hmem),
        fun other hmem => ?_, fun other hother => ?_⟩
      · by_cases hid : other = loraId
        · subst hid
          obtain rfl := Option.some.inj ((Dict.get?_set_self _ _ _).symm.trans hget)
          show (0 : Int) = (inUse s other : Int)
          rw [h.absent other hcounter]
          rfl
        · exact h.counts other count ((Dict.get?_set_ne _ _ hid).symm.trans hget)
      · by_cases hid : other = loraId
        · subst hid
          cases (Dict.get?_set_self _ _ _).symm.trans hget
        · exact h.absent other ((Dict.get?_set_ne _ _ hid).symm.trans hget)
      · have hold : ∀ n, n ≠ loraName → (s.registry.registry.set loraName loraId).get? n = some other → other ≠ loraId := by
          intro n hne hget heq
          subst heq
          exact hfresh (h.registered n other ((Dict.get?_set_ne _ _ hne).symm.trans hget)).1
        have hself : ∀ n, n = loraName → (s.registry.registry.set loraName loraId).get? n = some other → other = loraId := by
          rintro n rfl hget
          exact (Option.some.inj ((Dict.get?_set_self _ _ _).symm.trans hget)).symm
        by_cases hname₁ : name = loraName
        · by_cases hname₂ : name' = loraName
          · rw [hname₁, hname₂]
          · exact absurd (hself name hname₁ hn) (hold name' hname₂ hn')
        · by_cases hname₂ : name' = loraName
          · exact absurd (hself name' hname₂ hn') (hold name hname₁ hn)
          · exact h.names name name' other ((Dict.get?_set_ne _ _ hname₁).symm.trans hn)
              ((Dict.get?_set_ne _ _ hname₂).symm.trans hn')
      · by_cases hself : name = loraName
        · subst hself
          obtain rfl := Option.some.inj ((Dict.get?_set_self _ _ _).symm.trans hn)
          exact ⟨List.mem_cons_self, ⟨0, Dict.get?_set_self _ _ _⟩, fun hmem => hfresh (h.unloading _ hmem)⟩
        · obtain ⟨hused, ⟨count, hcount⟩, hnot⟩ := h.registered name other ((Dict.get?_set_ne _ _ hself).symm.trans hn)
          refine ⟨List.mem_cons_of_mem _ hused, ⟨count, (Dict.get?_set_ne _ _ ?_).trans hcount⟩, hnot⟩
          rintro rfl
          exact hfresh hused
      · obtain ⟨hused, hnone⟩ := h.unloaded other hmem
        refine ⟨List.mem_cons_of_mem _ hused, (Dict.get?_set_ne _ _ ?_).trans hnone⟩
        rintro rfl
        exact hfresh hused
      · obtain ⟨count, hcount⟩ := hother
        by_cases hid : other = loraId
        · rw [hid]
          exact List.mem_cons_self
        · exact List.mem_cons_of_mem _ (h.used other ⟨count, (Dict.get?_set_ne _ _ hid).symm.trans hcount⟩)

theorem unload (h : LoraUseInv s) {loraName : String} (hstep : s.unload loraName = some s') : LoraUseInv s' := by
  unfold LoraTraffic.unload LoraRegistry.unregister at hstep
  cases hget : s.registry.registry.get? loraName with
  | none =>
    rw [hget] at hstep
    cases hstep
  | some loraId =>
    rw [hget] at hstep
    cases hstep
    have hother : ∀ name other, (s.registry.registry.erase loraName).get? name = some other →
        name ≠ loraName ∧ s.registry.registry.get? name = some other := by
      intro name other hn
      have hne : name ≠ loraName := by
        rintro rfl
        cases (Dict.get?_erase_self _ _).symm.trans hn
      exact ⟨hne, (Dict.get?_erase_ne _ hne).symm.trans hn⟩
    refine ⟨h.counts, h.absent, h.once, h.requests, fun name name' other hn hn' =>
      h.names name name' other (hother name other hn).2 (hother name' other hn').2, fun name other hn => ?_,
      fun other hmem => ?_, h.unloaded, h.used⟩
    · obtain ⟨hne, hold⟩ := hother name other hn
      obtain ⟨hused, hcount, hnot⟩ := h.registered name other hold
      refine ⟨hused, hcount, fun hmem => ?_⟩
      rcases List.mem_cons.mp hmem with rfl | hmem
      · exact hne (h.names name loraName other hold hget)
      · exact hnot hmem
    · rcases List.mem_cons.mp hmem with rfl | hmem
      · exact (h.registered loraName other hget).1
      · exact h.unloading other hmem

theorem sendUnload (h : LoraUseInv s) {loraId : String} (hstep : s.sendUnload loraId = some s') : LoraUseInv s' := by
  unfold LoraTraffic.sendUnload LoraRegistry.waitForUnload at hstep
  split at hstep
  next hmem =>
    split at hstep
    next hzero =>
      cases hstep
      have hnone : inUse s loraId = 0 := by
        have := h.counts loraId 0 hzero
        omega
      refine ⟨fun other count hget => ?_, fun other hget => ?_, h.once, h.requests, h.names, fun name other hn => ?_,
        fun other hother => h.unloading other (List.mem_of_mem_erase hother), fun other hother => ?_, fun other hother => ?_⟩
      · have hne : other ≠ loraId := by
          rintro rfl
          cases (Dict.get?_erase_self _ _).symm.trans hget
        exact h.counts other count ((Dict.get?_erase_ne _ hne).symm.trans hget)
      · by_cases hid : other = loraId
        · rw [hid]
          exact hnone
        · exact h.absent other ((Dict.get?_erase_ne _ hid).symm.trans hget)
      · obtain ⟨hused, ⟨count, hcount⟩, hnot⟩ := h.registered name other hn
        refine ⟨hused, ⟨count, (Dict.get?_erase_ne _ ?_).trans hcount⟩, fun hin => hnot (List.mem_of_mem_erase hin)⟩
        rintro rfl
        exact hnot hmem
      · rcases List.mem_cons.mp hother with rfl | hother
        · exact ⟨h.unloading other hmem, Dict.get?_erase_self _ _⟩
        · obtain ⟨hused, hgone⟩ := h.unloaded other hother
          refine ⟨hused, ?_⟩
          by_cases hid : other = loraId
          · rw [hid]
            exact Dict.get?_erase_self _ _
          · exact (Dict.get?_erase_ne _ hid).trans hgone
      · obtain ⟨count, hcount⟩ := hother
        have hne : other ≠ loraId := by
          rintro rfl
          cases (Dict.get?_erase_self _ _).symm.trans hcount
        exact h.used other ⟨count, (Dict.get?_erase_ne _ hne).symm.trans hcount⟩
    next => cases hstep
  next => cases hstep

theorem runRelease (h : LoraUseInv s) {loraId : String} (hstep : s.runRelease loraId = some s') : LoraUseInv s' := by
  unfold LoraTraffic.runRelease LoraRegistry.release at hstep
  split at hstep
  next hmem =>
    have htask : 0 < s.releaseTasks.count loraId := List.count_pos_iff.mpr hmem
    cases hcount : s.registry.counters.get? loraId with
    | none =>
      have hzero := h.absent loraId hcount
      unfold inUse at hzero
      omega
    | some count =>
      rw [hcount] at hstep
      simp only [Option.map_some] at hstep
      cases hstep
      have huse : ∀ other, inUse s other = unsentFor s other + s.requests.countP (holds other) +
          (s.releaseTasks.erase loraId).count other + if other = loraId then 1 else 0 := by
        intro other
        unfold inUse
        rw [List.count_erase]
        by_cases hid : other = loraId
        · subst hid
          rw [beq_self_eq_true, if_pos rfl, if_pos rfl]
          omega
        · rw [if_neg (by simpa using Ne.symm hid), if_neg hid]
          omega
      refine ⟨fun other count' hget => ?_, fun other hget => ?_, fun other => ?_, h.requests, h.names, fun name other hn => ?_,
        h.unloading, fun other hother => ?_, fun other hother => ?_⟩
      · by_cases hid : other = loraId
        · subst hid
          obtain rfl := Option.some.inj ((Dict.get?_set_self _ _ _).symm.trans hget)
          have hbefore := h.counts other count hcount
          rw [huse other, if_pos rfl] at hbefore
          show count - 1 = (inUse _ other : Int)
          simp only [inUse, unsentFor] at hbefore ⊢
          omega
        · have hbefore := h.counts other count' ((Dict.get?_set_ne _ _ hid).symm.trans hget)
          rw [huse other, if_neg hid] at hbefore
          exact hbefore
      · by_cases hid : other = loraId
        · subst hid
          cases (Dict.get?_set_self _ _ _).symm.trans hget
        · have hbefore := h.absent other ((Dict.get?_set_ne _ _ hid).symm.trans hget)
          rw [huse other, if_neg hid] at hbefore
          exact hbefore
      · have hbefore := h.once other
        rw [huse other] at hbefore
        have hlast : [loraId].count other = if other = loraId then 1 else 0 := by
          by_cases hid : other = loraId
          · rw [hid, List.count_singleton_self, if_pos rfl]
          · rw [List.count_singleton, if_neg (by simpa using Ne.symm hid), if_neg hid]
        simp only [inUse, unsentFor, List.count_append, hlast] at hbefore ⊢
        omega
      · obtain ⟨hused, ⟨count', hcount'⟩, hnot⟩ := h.registered name other hn
        by_cases hid : other = loraId
        · exact ⟨hused, ⟨count - 1, hid ▸ Dict.get?_set_self _ _ _⟩, hnot⟩
        · exact ⟨hused, ⟨count', (Dict.get?_set_ne _ _ hid).trans hcount'⟩, hnot⟩
      · obtain ⟨hused, hgone⟩ := h.unloaded other hother
        refine ⟨hused, (Dict.get?_set_ne _ _ ?_).trans hgone⟩
        rintro rfl
        rw [hcount] at hgone
        cases hgone
      · obtain ⟨count', hcount'⟩ := hother
        by_cases hid : other = loraId
        · exact h.used other ⟨count, hid ▸ hcount⟩
        · exact h.used other ⟨count', (Dict.get?_set_ne _ _ hid).symm.trans hcount'⟩
  next => cases hstep

/-- Each id in the list adds one to its counter, which is there. -/
theorem increments_ok {loraIds : List String} {counters counters' : Dict String Int}
    (hrun : loraIds.foldlM LoraRegistry.increment counters = some counters') (loraId : String) :
    counters'.get? loraId = (counters.get? loraId).map (· + (loraIds.count loraId : Int)) ∧
      (counters.get? loraId = none → loraIds.count loraId = 0) := by
  induction loraIds generalizing counters with
  | nil =>
    cases hrun
    simp
  | cons head rest ih =>
    rw [List.foldlM_cons] at hrun
    obtain ⟨next, hnext, hrest⟩ := Option.bind_eq_some_iff.mp hrun
    obtain ⟨count, hcount, rfl⟩ := Option.map_eq_some_iff.mp hnext
    obtain ⟨hget, hnone⟩ := ih hrest
    by_cases hid : loraId = head
    · subst hid
      rw [Dict.get?_set_self] at hget
      refine ⟨?_, fun habsent => ?_⟩
      · rw [hget, hcount, List.count_cons_self, Option.map_some, Option.map_some, Option.some.injEq]
        omega
      · rw [hcount] at habsent
        cases habsent
    · rw [Dict.get?_set_ne _ _ hid] at hget hnone
      rw [List.count_cons_of_ne (Ne.symm hid)]
      exact ⟨hget, hnone⟩

theorem count_reduceOption (loraIds : List (Option String)) (loraId : String) (call : Nat) :
    (loraIds.map fun id => (call, id)).countP (fun entry => decide (entry.2 = some loraId)) =
      loraIds.reduceOption.count loraId := by
  induction loraIds with
  | nil => rfl
  | cons head rest ih =>
    rw [List.map_cons, List.countP_cons, ih]
    cases head with
    | none => simp [List.reduceOption_cons_of_none]
    | some other => simp [List.reduceOption_cons_of_some, List.count_cons]

theorem acquire (h : LoraUseInv s) {call : Nat} {loraNames : List (Option String)}
    (hstep : s.acquire call loraNames = some s') : LoraUseInv s' := by
  unfold LoraTraffic.acquire LoraRegistry.acquire at hstep
  obtain ⟨⟨loraIds, registry⟩, hacquire, rfl⟩ := Option.map_eq_some_iff.mp hstep
  obtain ⟨looked, hlooked, hincrement⟩ := Option.bind_eq_some_iff.mp hacquire
  obtain ⟨counters, hcounters, hresult⟩ := Option.bind_eq_some_iff.mp hincrement
  cases hresult
  have huse : ∀ other, inUse { s with
      registry := { s.registry with counters := counters }
      unsent := s.unsent ++ loraIds.map fun loraId => (call, loraId)
      acquired := s.acquired ++ loraIds.reduceOption } other = inUse s other + loraIds.reduceOption.count other := by
    intro other
    simp only [inUse, unsentFor, List.countP_append, count_reduceOption]
    omega
  have hcount : ∀ other count, s.registry.counters.get? other = some count → ∃ count', counters.get? other = some count' := by
    intro other count hget
    refine ⟨count + (loraIds.reduceOption.count other : Int), (increments_ok hcounters other).1.trans ?_⟩
    rw [hget]
    rfl
  refine ⟨fun other count hget => ?_, fun other hget => ?_, fun other => ?_, h.requests, h.names, fun name other hn => ?_,
    h.unloading, fun other hother => ?_, fun other hother => ?_⟩
  · rw [huse]
    have hboth := (increments_ok hcounters other).1.symm.trans hget
    obtain ⟨before, hbefore, rfl⟩ := Option.map_eq_some_iff.mp hboth
    have := h.counts other before hbefore
    omega
  · rw [huse]
    have hnone : s.registry.counters.get? other = none :=
      Option.map_eq_none_iff.mp ((increments_ok hcounters other).1.symm.trans hget)
    rw [h.absent other hnone, (increments_ok hcounters other).2 hnone]
  · rw [huse]
    have := h.once other
    simp only [List.count_append]
    omega
  · obtain ⟨hused, ⟨count, hget⟩, hnot⟩ := h.registered name other hn
    exact ⟨hused, hcount other count hget, hnot⟩
  · obtain ⟨hused, hgone⟩ := h.unloaded other hother
    refine ⟨hused, (increments_ok hcounters other).1.trans ?_⟩
    rw [hgone]
    rfl
  · obtain ⟨count, hget⟩ := hother
    obtain ⟨before, hbefore, -⟩ := Option.map_eq_some_iff.mp ((increments_ok hcounters other).1.symm.trans hget)
    exact h.used other ⟨before, hbefore⟩

theorem step (h : LoraUseInv s) {label : LoraUseLabel} (hguard : EndsByRelease s label)
    (hstep : LoraTraffic.step label s = some s') : LoraUseInv s' := by
  cases label with
  | load loraName loraId => exact h.load hstep
  | unload loraName => exact h.unload hstep
  | sendUnload loraId => exact h.sendUnload hstep
  | acquire call loraNames => exact h.acquire hstep
  | send call loraId => exact h.send hstep
  | warm call loraId =>
    obtain rfl : loraId = none := hguard
    exact h.warm hstep
  | endCall call =>
    cases hstep
    exact h.endCall hguard
  | finishOutput i reason => exact h.finishOutput hguard hstep
  | abortReq i reason => exact h.abortReq hguard hstep
  | wake i => exact h.wake hstep
  | disconnect i => exact h.disconnect hguard hstep
  | runRelease loraId => exact h.runRelease hstep

end LoraUseInv

/-- In every run whose requests end by a handler that releases, once for each acquisition, the
counters are exact and an adapter is unloaded when nothing uses it. -/
theorem lora_counts_exact {s : LoraTraffic} (h : loraUseMachine.Reach EndsByRelease (· = LoraTraffic.new) s) :
    LoraCountsExact s := by
  refine (Machine.Reach.invariant (fun s hs => ?_) (fun _ _ _ hinv hguard hstep => hinv.step hguard hstep) h
    : LoraUseInv s).exact
  rw [hs]
  exact .new

/-! ### Two calls -/

def lengthReason : FinishReason := ⟨"length", "", none⟩

def abortBeforePrefill : FinishReason := ⟨"abort", "Abort before prefill", none⟩

/-- Two calls use an adapter, end by length, and the adapter is unloaded. -/
def twoCalls : List LoraUseLabel :=
  [.load "a" "a0", .acquire 0 [some "a"], .send 0 (some "a0"), .acquire 1 [some "a"], .unload "a",
    .finishOutput 0 lengthReason, .wake 0, .runRelease "a0", .send 1 (some "a0"), .finishOutput 1 lengthReason, .wake 1,
    .runRelease "a0", .sendUnload "a0"]

theorem counters_of_two_calls : ∃ s, LoraCountsExact s ∧ s.unloaded = ["a0"] ∧ s.acquired = ["a0", "a0"] ∧
    s.released = ["a0", "a0"] := by
  have hview : (loraUseMachine.run twoCalls .new).map (fun s => (s.unloaded, s.acquired, s.released)) =
      some (["a0"], ["a0", "a0"], ["a0", "a0"]) := by
    decide +kernel
  obtain ⟨s, hrun, hs⟩ := Option.map_eq_some_iff.mp hview
  have hquiet : ¬RaisesHttp lengthReason := by
    rintro ⟨code, detail, hfailure⟩
    cases hfailure
  have hguard : ∀ label ∈ twoCalls, ∀ s, EndsByRelease s label := by
    intro label hlabel s
    simp only [twoCalls, List.mem_cons, List.not_mem_nil, or_false] at hlabel
    rcases hlabel with rfl | rfl | rfl | rfl | rfl | rfl | rfl | rfl | rfl | rfl | rfl | rfl | rfl <;>
      first | trivial | exact fun _ _ _ _ => hquiet
  have hreach : loraUseMachine.Reach EndsByRelease (· = LoraTraffic.new) s := .of_run hguard (.start rfl) hrun
  simp only [Prod.mk.injEq] at hs
  exact ⟨s, lora_counts_exact hreach, hs.1, hs.2.1, hs.2.2⟩

/-- An abort while queued releases nothing; parallel sampling releases once too often. -/
theorem counters_drift :
    (∃ s, loraUseMachine.Reach (fun _ _ => True) (· = LoraTraffic.new) s ∧ ¬LoraCountsExact s ∧
      s.registry.counters.get? "a0" = some 1 ∧ s.unsent = [] ∧ s.requests.all (fun r => !r.listening) = true) ∧
    ∃ s, loraUseMachine.Reach (fun _ _ => True) (· = LoraTraffic.new) s ∧ ¬LoraCountsExact s ∧
      s.registry.counters.get? "a0" = some (-1) := by
  refine ⟨?_, ?_⟩
  · have hview : (loraUseMachine.run [.load "a" "a0", .acquire 0 [some "a"], .send 0 (some "a0"),
        .abortReq 0 abortBeforePrefill, .wake 0] .new).map (fun s => (s.registry.counters.get? "a0", inUse s "a0",
          s.unsent.length, s.requests.all fun r => !r.listening)) = some (some 1, 0, 0, true) := by
      decide +kernel
    obtain ⟨s, hrun, hs⟩ := Option.map_eq_some_iff.mp hview
    simp only [Prod.mk.injEq] at hs
    have hreach : loraUseMachine.Reach (fun _ _ => True) (· = LoraTraffic.new) s :=
      .of_run (fun _ _ _ => trivial) (.start rfl) hrun
    refine ⟨s, hreach, fun hexact => ?_, hs.1, List.length_eq_zero_iff.mp hs.2.2.1, hs.2.2.2⟩
    have hcount := hexact.counts "a0" 1 hs.1
    rw [hs.2.1] at hcount
    cases hcount
  · have hview : (loraUseMachine.run [.load "a" "a0", .acquire 0 [some "a"], .warm 0 (some "a0"), .send 0 (some "a0"),
        .finishOutput 0 lengthReason, .runRelease "a0", .finishOutput 1 lengthReason, .runRelease "a0"] .new).map
          (fun s => s.registry.counters.get? "a0") = some (some (-1)) := by
      decide +kernel
    obtain ⟨s, hrun, hs⟩ := Option.map_eq_some_iff.mp hview
    have hreach : loraUseMachine.Reach (fun _ _ => True) (· = LoraTraffic.new) s :=
      .of_run (fun _ _ _ => trivial) (.start rfl) hrun
    refine ⟨s, hreach, fun hexact => ?_, hs⟩
    have hcount := hexact.counts "a0" (-1) hs
    omega

end QCFuse.Guarantees
