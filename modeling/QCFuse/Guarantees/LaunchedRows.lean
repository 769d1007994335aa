import QCFuse.Library.Dict
import QCFuse.Source.InputLogprobs

/-!
# The scored rows of a launched batch

Each request of a batch finds its own rows in the flat tuple of logprobs, and they are the scores of its
prompt from where the launch starts up to where it ends.
-/

set_option autoImplicit false

namespace QCFuse.Guarantees

open QCFuse.Library QCFuse.Source

variable {α τ υ : Type}

/-! ## The rows of a request -/

/-- The logprobs that the rows from `start` up to `stop` give of a prompt. -/
def scored (server : LogprobServer α τ υ) (ids : List Nat) (start stop : Nat) : List α :=
  (List.range' start (stop - start)).map fun p => server.logprob (ids.take (p + 1)) (ids.getD (p + 1) 0)

section Scored

variable (server : LogprobServer α τ υ) (ids : List Nat)

theorem length_scored (start stop : Nat) : (scored server ids start stop).length = stop - start := by
  rw [scored, List.length_map, List.length_range']

theorem scored_append {start mid stop : Nat} (h : mid ≤ stop) :
    scored server ids start mid ++ scored server ids (max mid start) stop = scored server ids start stop := by
  rw [scored, scored, scored, ← List.map_append]
  congr 1
  rcases Nat.le_total mid start with hle | hle
  · rw [max_eq_right hle, Nat.sub_eq_zero_of_le hle, List.range'_zero, List.nil_append]
  · rw [max_eq_left hle]
    obtain ⟨a, rfl⟩ := Nat.exists_eq_add_of_le hle
    obtain ⟨b, rfl⟩ := Nat.exists_eq_add_of_le h
    rw [Nat.add_sub_cancel_left, Nat.add_sub_cancel_left, Nat.add_assoc, Nat.add_sub_cancel_left,
      List.range'_append_1]

theorem getElem?_scored {start stop p : Nat} (h : start ≤ p) (hp : p < stop) :
    (scored server ids start stop)[p - start]? = some (server.logprob (ids.take (p + 1)) (ids.getD (p + 1) 0)) := by
  have hlt : p - start < stop - start := Nat.sub_lt_sub_right h hp
  rw [scored, List.getElem?_map, List.getElem?_range' hlt, Nat.one_mul, Nat.add_sub_cancel' h]
  rfl

theorem scored_dropLast {start stop : Nat} (h : start < stop) :
    (scored server ids start stop).dropLast = scored server ids start (stop - 1) := by
  have hone : stop - (stop - 1) = 1 := Nat.sub_sub_self (Nat.one_le_of_lt h)
  rw [← scored_append server ids (Nat.sub_le stop 1), max_eq_left (Nat.le_sub_one_of_lt h)]
  conv => enter [1, 1, 2]; rw [scored, hone]
  exact List.dropLast_concat

end Scored

/-- The rows of a request in what is left of the flat tuple. -/
def ownRows (rid : Nat) : List (PrefillEntry τ υ) → List α → Option (List α)
  | [], _ => none
  | entry :: entries, flat =>
    if entry.rid = rid then some (flat.take entry.numInputLogprobs)
    else ownRows rid entries (flat.drop entry.numInputLogprobs)

theorem ownRows_eq_none {rid : Nat} {entries : List (PrefillEntry τ υ)} {flat : List α} :
    ownRows rid entries flat = none ↔ rid ∉ entries.map (·.rid) := by
  induction entries generalizing flat with
  | nil => simp [ownRows]
  | cons entry entries ih =>
    rw [ownRows, List.map_cons, List.mem_cons, not_or]
    split
    next heq => simp [heq]
    next hne => rw [ih, and_iff_right (Ne.symm hne)]

/-- The rows of a request in the launched batches, the oldest first. -/
def pendingRows (rid : Nat) (queue : List (PrefillResult α τ υ)) : List (List α) :=
  queue.filterMap fun result => ownRows rid result.entries (result.inputTokenLogprobs.getD [])

theorem inFlight_eq_false {s : LogprobScheduler α τ υ} {rid : Nat} :
    s.inFlight rid = false ↔ pendingRows rid s.resultQueue = [] := by
  rw [pendingRows, List.filterMap_eq_nil_iff, LogprobScheduler.inFlight, List.any_eq_false]
  refine forall₂_congr fun result _ => ?_
  rw [ownRows_eq_none, Bool.not_eq_true, List.any_eq_false, List.mem_map]
  constructor
  · rintro h ⟨entry, hmem, rfl⟩
    exact h entry hmem (beq_self_eq_true _)
  · intro h entry hmem heq
    exact h ⟨entry, hmem, beq_iff_eq.mp heq⟩

/-! ## What a launched request scores -/

section Launch

variable (server : LogprobServer α τ υ)

/-- A request as `prepare_for_extend` leaves it. -/
def prepared (req : LogprobReq α τ υ) (choice : PrefillChoice) (isPrefillOnly : Bool) : LogprobReq α τ υ :=
  (req.nextRoundInput choice).prepareForExtend isPrefillOnly

theorem prepared_params (req : LogprobReq α τ υ) (choice : PrefillChoice) (isPrefillOnly : Bool) :
    (prepared req choice isPrefillOnly).toLogprobParams = req.toLogprobParams := by
  unfold prepared LogprobReq.nextRoundInput LogprobReq.prepareForExtend
  cases choice.truncLen <;> rfl

/-- What a launch leaves as it is. -/
structure SameCollected (req req' : LogprobReq α τ υ) : Prop where
  outputs : req'.outputIds = req.outputIds
  finished : req'.finished = req.finished
  acc : req'.inputTokenLogprobs = req.inputTokenLogprobs
  tempTop : req'.tempInputTopLogprobs = req.tempInputTopLogprobs
  tempTokenIds : req'.tempInputTokenIdsLogprobs = req.tempInputTokenIdsLogprobs
  val : req'.inputTokenLogprobsVal = req.inputTokenLogprobsVal
  idx : req'.inputTokenLogprobsIdx = req.inputTokenLogprobsIdx
  top : req'.inputTopLogprobs = req.inputTopLogprobs

theorem prepared_same (req : LogprobReq α τ υ) (choice : PrefillChoice) (isPrefillOnly : Bool) :
    SameCollected req (prepared req choice isPrefillOnly) := by
  unfold prepared LogprobReq.nextRoundInput LogprobReq.prepareForExtend
  cases choice.truncLen <;> exact ⟨rfl, rfl, rfl, rfl, rfl, rfl, rfl, rfl⟩

/-- Where the rows of a choice end. -/
def stopOf (req : LogprobReq α τ υ) (choice : PrefillChoice) : Nat :=
  match choice.truncLen with
  | none => req.seqlen
  | some truncLen => choice.prefixLen + truncLen

/-- The coordinates of a launched request. -/
structure Coordinates (req : LogprobReq α τ υ) (choice : PrefillChoice) (req' : LogprobReq α τ υ) : Prop where
  live : req'.isRetracted = false
  prefixLen : req'.prefixLen = choice.prefixLen
  fillIds : req'.fillIds = (req.originInputIds ++ req.outputIds).take (stopOf req choice)
  extendInputLen : req'.extendInputLen = stopOf req choice - choice.prefixLen
  isChunked : req'.isChunked = req.isChunked + choice.truncLen.isSome.toNat
  start : req.logprobStartLen < req.originInputIds.length → req'.extendLogprobStartLen =
    if choice.prefixLen ≤ req.logprobStartLen then
      min (min (req.logprobStartLen - choice.prefixLen) req'.extendInputLen) (req.seqlen - 1)
    else 0

theorem prepared_coordinates (req : LogprobReq α τ υ) (choice : PrefillChoice) (isPrefillOnly : Bool) :
    Coordinates req choice (prepared req choice isPrefillOnly) := by
  have hstart : ∀ {whole : Nat} {cut : Nat}, req.logprobStartLen < req.originInputIds.length →
      (if isPrefillOnly = true ∧ req.logprobStartLen = req.originInputIds.length then whole else cut) = cut :=
    fun hrange => if_neg fun heq => hrange.ne heq.2
  obtain ⟨rid, prefixLen, truncLen, nextTokenId, finishes⟩ := choice
  cases truncLen with
  | none =>
    refine ⟨rfl, rfl, (List.take_of_length_le (List.length_append).le).symm, ?_, rfl, fun hrange => ?_⟩
    · exact congrArg (· - _) List.length_append
    · exact congrArg (ite _ · 0) (hstart hrange)
  | some truncLen =>
    refine ⟨rfl, rfl, rfl, (Nat.add_sub_cancel_left _ _).symm, rfl, fun hrange => ?_⟩
    exact congrArg (ite _ · 0) (hstart hrange)

theorem length_inputRows (req : LogprobReq α τ υ) :
    req.inputRows.length = req.extendInputLen - req.extendLogprobStartLen := by
  rw [LogprobReq.inputRows, List.length_map, List.length_range']

theorem fillIds_prepared_le (req : LogprobReq α τ υ) (choice : PrefillChoice) (isPrefillOnly : Bool) :
    (prepared req choice isPrefillOnly).fillIds.length ≤
      (prepared req choice isPrefillOnly).prefixLen + (prepared req choice isPrefillOnly).extendInputLen := by
  unfold prepared LogprobReq.nextRoundInput LogprobReq.prepareForExtend
  cases choice.truncLen with
  | none => exact Nat.sub_le_iff_le_add'.mp le_rfl
  | some truncLen => exact List.length_take_le _ _

/-- The rows of a request and the token ids beside them are as many. -/
theorem length_extendInputLogprobTokenIds (req : LogprobReq α τ υ) (choice : PrefillChoice)
    (isPrefillOnly : Bool) : (prepared req choice isPrefillOnly).extendInputLogprobTokenIds.length =
      (prepared req choice isPrefillOnly).inputRows.length := by
  have hfill := fillIds_prepared_le req choice isPrefillOnly
  have hstart : ∃ only : Bool, (prepared req choice isPrefillOnly).extendLogprobStartLen =
      if (prepared req choice isPrefillOnly).prefixLen ≤ (prepared req choice isPrefillOnly).logprobStartLen then
        if only = true ∧ (prepared req choice isPrefillOnly).logprobStartLen =
            (prepared req choice isPrefillOnly).originInputIds.length then
          (prepared req choice isPrefillOnly).extendInputLen
        else min (min ((prepared req choice isPrefillOnly).logprobStartLen -
            (prepared req choice isPrefillOnly).prefixLen) (prepared req choice isPrefillOnly).extendInputLen)
          ((prepared req choice isPrefillOnly).seqlen - 1)
      else 0 := ⟨isPrefillOnly, rfl⟩
  generalize prepared req choice isPrefillOnly = req at hfill hstart
  obtain ⟨only, hstart⟩ := hstart
  have hseq : req.originInputIds.length ≤ req.seqlen := Nat.le_add_right _ _
  rw [length_inputRows, LogprobReq.extendInputLogprobTokenIds, List.length_append, List.length_replicate,
    List.length_drop, List.length_take]
  refine Nat.add_sub_cancel' ?_
  split at hstart
  next hle =>
    split at hstart
    next hall => omega
    next => omega
  next hlt => omega

/-- Padding with zeros does not change what is read with default zero. -/
theorem getD_append_replicate (xs : List Nat) (n i : Nat) :
    (xs ++ List.replicate n 0).getD i 0 = xs.getD i 0 := by
  rw [List.getD_eq_getElem?_getD, List.getD_eq_getElem?_getD, List.getElem?_append]
  split
  next => rfl
  next hge =>
    rw [List.getElem?_eq_none (not_lt.mp hge), List.getElem?_replicate]
    split <;> rfl

/-- What a prepared request has of the flat tuple. -/
def scores (req : LogprobReq α τ υ) : List α :=
  List.zipWith server.logprob req.inputRows req.extendInputLogprobTokenIds

theorem scores_eq {req : LogprobReq α τ υ} (hfill : req.fillIds = req.originInputIds.take req.fillIds.length)
    (hnum : req.extendInputLen - req.extendLogprobStartLen =
      req.fillIds.length - max req.prefixLen req.logprobStartLen)
    (hstart : req.extendLogprobStartLen < req.extendInputLen →
      req.prefixLen + req.extendLogprobStartLen = max req.prefixLen req.logprobStartLen)
    (hlen : req.extendInputLogprobTokenIds.length = req.inputRows.length) :
    scores server req =
      scored server req.originInputIds (max req.prefixLen req.logprobStartLen) req.fillIds.length := by
  refine List.ext_getElem ?_ fun i hi hi' => ?_
  · rw [scores, List.length_zipWith, hlen, min_self, length_inputRows, hnum, length_scored]
  · rw [length_scored, ← hnum] at hi'
    have hrow := hstart (Nat.lt_of_sub_pos (Nat.zero_lt_of_lt hi'))
    have hid : ∀ h : i < req.extendInputLogprobTokenIds.length, req.extendInputLogprobTokenIds[i] =
        req.originInputIds.getD (max req.prefixLen req.logprobStartLen + i + 1) 0 := by
      intro h
      rw [← List.getD_eq_getElem _ 0 h, LogprobReq.extendInputLogprobTokenIds, getD_append_replicate,
        List.getD_eq_getElem?_getD, List.getElem?_drop, List.getElem?_take_of_lt (by omega),
        ← List.getD_eq_getElem?_getD, Nat.add_right_comm]
    simp only [scores, scored, LogprobReq.inputRows, List.getElem_zipWith, List.getElem_map,
      List.getElem_range', hid, Nat.one_mul]
    rw [← Nat.add_assoc, hrow, hfill, List.take_take, min_eq_left (by omega)]

/-- Each request finds its own scores in the flat tuple of its batch. -/
theorem ownRows_launched (ready : PrefillChoice → LogprobReq α τ υ) {choices : List PrefillChoice}
    (hnodup : (choices.map (·.rid)).Nodup)
    (hlen : ∀ c ∈ choices, (ready c).extendInputLogprobTokenIds.length = (ready c).inputRows.length)
    {c : PrefillChoice} (hc : c ∈ choices) :
    ownRows c.rid (choices.map fun c => (ready c).launched server c)
      (List.zipWith server.logprob ((choices.map ready).flatMap (·.inputRows))
        ((choices.map ready).flatMap (·.extendInputLogprobTokenIds))) = some (scores server (ready c)) := by
  induction choices with
  | nil => cases hc
  | cons first choices ih =>
    obtain ⟨hfirst, hlen⟩ := List.forall_mem_cons.mp hlen
    rw [List.map_cons, List.nodup_cons] at hnodup
    have hnum : (scores server (ready first)).length = ((ready first).launched server first).numInputLogprobs := by
      rw [scores, List.length_zipWith, hfirst, min_self, length_inputRows]
      rfl
    rw [List.map_cons, List.map_cons, List.flatMap_cons, List.flatMap_cons, List.zipWith_append hfirst.symm,
      ownRows, ← hnum]
    change (if first.rid = c.rid then some ((scores server (ready first) ++ _).take _)
      else ownRows _ _ ((scores server (ready first) ++ _).drop _)) = _
    rw [List.take_left, List.drop_left]
    rcases List.mem_cons.mp hc with rfl | hc
    · rw [if_pos rfl]
    · have hne : first.rid ≠ c.rid := fun heq => hnodup.1 (heq ▸ List.mem_map_of_mem hc)
      rw [if_neg hne]
      exact ih hnodup.2 hlen hc

/-- A launched batch: distinct requests, each with as many rows everywhere. -/
structure ResultShaped (result : PrefillResult α τ υ) : Prop where
  nodup : (result.entries.map (·.rid)).Nodup
  top : ∀ entry ∈ result.entries, entry.inputTopLogprobs.length = entry.numInputLogprobs
  tokenIds : ∀ entry ∈ result.entries, entry.inputTokenIdsLogprobs.length = entry.numInputLogprobs
  rows : result.returnLogprob = true → ∀ entry ∈ result.entries, ∃ rows,
    ownRows entry.rid result.entries (result.inputTokenLogprobs.getD []) = some rows ∧
      rows.length = entry.numInputLogprobs

variable {reqs : Nat → LogprobReq α τ υ} {choices : List PrefillChoice}

/-- Whether the batch of the choices is prefill-only. -/
def onlyPrefill (reqs : Nat → LogprobReq α τ υ) (choices : List PrefillChoice) : Bool :=
  choices.all fun c => (reqs c.rid).isPrefillOnly

theorem launch_reqs (hnodup : (choices.map (·.rid)).Nodup) {c : PrefillChoice} (hc : c ∈ choices) :
    (server.launch reqs choices).1 c.rid = prepared (reqs c.rid) c (onlyPrefill reqs choices) := by
  simp only [LogprobServer.launch]
  rw [find?_key hnodup hc]
  rfl

theorem launch_reqs_of_notMem {rid : Nat} (h : rid ∉ choices.map (·.rid)) :
    (server.launch reqs choices).1 rid = reqs rid := by
  simp only [LogprobServer.launch]
  rw [find?_key_eq_none.mpr h]

theorem launch_entries : (server.launch reqs choices).2.entries = choices.map fun c =>
    (prepared (reqs c.rid) c (onlyPrefill reqs choices)).launched server c := rfl

theorem launch_rids : ((server.launch reqs choices).2.entries.map (·.rid)) = choices.map (·.rid) := by
  rw [launch_entries, List.map_map]
  rfl

theorem launch_ownRows (hnodup : (choices.map (·.rid)).Nodup)
    (hret : (server.launch reqs choices).2.returnLogprob = true) {c : PrefillChoice} (hc : c ∈ choices) :
    ownRows c.rid (server.launch reqs choices).2.entries
        ((server.launch reqs choices).2.inputTokenLogprobs.getD []) =
      some (scores server (prepared (reqs c.rid) c (onlyPrefill reqs choices))) := by
  have hflat : (server.launch reqs choices).2.inputTokenLogprobs.getD [] = List.zipWith server.logprob
      ((choices.map fun c => prepared (reqs c.rid) c (onlyPrefill reqs choices)).flatMap (·.inputRows))
      ((choices.map fun c => prepared (reqs c.rid) c (onlyPrefill reqs choices)).flatMap
        (·.extendInputLogprobTokenIds)) := by
    change (ite _ _ _ : Option (List α)).getD [] = _
    split
    next => rfl
    next hnone =>
      have hempty : ∀ req ∈ choices.map fun c => prepared (reqs c.rid) c (onlyPrefill reqs choices),
          req.inputRows = [] := by
        intro req hreq
        have hany := Bool.eq_false_iff.mpr fun hany => hnone ⟨hret, hany⟩
        have hno := List.any_eq_false.mp hany req hreq
        rw [decide_eq_true_eq, not_lt] at hno
        rw [LogprobReq.inputRows, Nat.sub_eq_zero_of_le hno]
        rfl
      rw [List.flatMap_eq_nil_iff.mpr hempty, List.zipWith_nil_left]
      rfl
  rw [hflat, launch_entries]
  exact ownRows_launched server _ hnodup
    (fun c _ => length_extendInputLogprobTokenIds (reqs c.rid) c (onlyPrefill reqs choices)) hc

theorem length_scores (req : LogprobReq α τ υ) (choice : PrefillChoice) (isPrefillOnly : Bool) :
    (scores server (prepared req choice isPrefillOnly)).length =
      (prepared req choice isPrefillOnly).extendInputLen -
        (prepared req choice isPrefillOnly).extendLogprobStartLen := by
  rw [scores, List.length_zipWith, length_extendInputLogprobTokenIds, min_self, length_inputRows]

theorem resultShaped_launch (hnodup : (choices.map (·.rid)).Nodup) :
    ResultShaped (server.launch reqs choices).2 where
  nodup := (launch_rids server).symm ▸ hnodup
  top := by
    rw [launch_entries, List.forall_mem_map]
    intro c _
    exact (List.length_map _).trans (length_inputRows _)
  tokenIds := by
    rw [launch_entries, List.forall_mem_map]
    intro c _
    exact (List.length_map _).trans (length_inputRows _)
  rows := by
    intro hret entry hentry
    rw [launch_entries] at hentry
    obtain ⟨c, hc, rfl⟩ := List.mem_map.mp hentry
    exact ⟨_, launch_ownRows server hnodup hret hc, length_scores server _ c _⟩

end Launch

end QCFuse.Guarantees
