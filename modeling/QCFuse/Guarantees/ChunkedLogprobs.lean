import QCFuse.Guarantees.LaunchedRows

/-!
# Input logprobs do not depend on scheduling

The logprobs a request has collected and those still in launched batches are the scores of its prompt rows
so far. A step keeps that where no row is skipped ahead of a request that reads rows, and no retracted
request holds logprobs of token ids.
-/

set_option autoImplicit false

namespace QCFuse.Guarantees

open QCFuse.Library QCFuse.Source

variable {α τ υ : Type}

/-! ## What is claimed of a request -/

/-- Once the prompt is prefilled, a first `None` and then, for each prompt position, the logprob of the token
at the next one. -/
def InputLogprobsRight (server : LogprobServer α τ υ) (req : LogprobReq α τ υ) : Prop :=
  req.returnLogprob = true → req.outputIds ≠ [] →
    ∃ vals, req.inputTokenLogprobsVal = some vals ∧
      vals.length = req.originInputIds.length - req.logprobStartLen ∧ vals[0]? = some none ∧
      ∀ (p : Nat) (h : p + 1 < req.originInputIds.length), req.logprobStartLen ≤ p →
        vals[p + 1 - req.logprobStartLen]? =
          some (some (server.logprob (req.originInputIds.take (p + 1)) req.originInputIds[p + 1]))

/-- The request takes rows out of the result. -/
def ReadsRows (server : LogprobServer α τ υ) (req : LogprobReq α τ υ) (entry : PrefillEntry τ υ) : Prop :=
  server.skips req = false ∧ req.returnLogprob = true ∧ req.inputTokenLogprobsVal = none ∧
    0 < entry.numInputLogprobs

/-- No request that is passed over has rows ahead of a request that reads rows. -/
def NoRowsSkipped (server : LogprobServer α τ υ) (reqs : Nat → LogprobReq α τ υ)
    (entries : List (PrefillEntry τ υ)) : Prop :=
  entries.Pairwise fun entry later => server.skips (reqs entry.rid) = true → 0 < entry.numInputLogprobs →
    ¬ ReadsRows server (reqs later.rid) later

/-- The steps that keep the logprobs. -/
def LogprobsKept (server : LogprobServer α τ υ) (s : LogprobScheduler α τ υ) : LogprobStep → Prop
  | .processResult => ∀ result ∈ s.resultQueue.head?, NoRowsSkipped server s.reqs result.entries
  | .retract rid => (s.reqs rid).tempInputTokenIdsLogprobs.getD [] = []
  | _ => True

instance (server : LogprobServer α τ υ) (req : LogprobReq α τ υ) (entry : PrefillEntry τ υ) :
    Decidable (ReadsRows server req entry) :=
  inferInstanceAs (Decidable (_ ∧ _ ∧ _ ∧ _))

instance (server : LogprobServer α τ υ) (reqs : Nat → LogprobReq α τ υ)
    (entries : List (PrefillEntry τ υ)) : Decidable (NoRowsSkipped server reqs entries) :=
  inferInstanceAs (Decidable (entries.Pairwise fun entry later => server.skips (reqs entry.rid) = true →
    0 < entry.numInputLogprobs → ¬ ReadsRows server (reqs later.rid) later))

instance [DecidableEq υ] (server : LogprobServer α τ υ) (s : LogprobScheduler α τ υ) (label : LogprobStep) :
    Decidable (LogprobsKept server s label) :=
  match label with
  | .processResult =>
    inferInstanceAs (Decidable (∀ result ∈ s.resultQueue.head?, NoRowsSkipped server s.reqs result.entries))
  | .retract rid => inferInstanceAs (Decidable ((s.reqs rid).tempInputTokenIdsLogprobs.getD [] = []))
  | .arrive _ _ _ | .launch _ | .decode _ _ => .isTrue trivial

/-! ## One request of a result -/

/-- What `input_token_logprobs_val` is to become. -/
def expectedVals (server : LogprobServer α τ υ) (req : LogprobReq α τ υ) : List (Option α) :=
  none :: (scored server req.originInputIds req.logprobStartLen (req.originInputIds.length - 1)).map some

/-- A request whose input logprobs are still to be put together, with its rows in the launched batches. -/
structure Collecting (server : LogprobServer α τ υ) (req : LogprobReq α τ υ) (stage : LogprobStage)
    (pending : List (List α)) : Prop where
  idx : req.inputTokenLogprobsIdx = none
  top : req.inputTopLogprobs = none
  outputs : req.outputIds = []
  unfinished : req.finished = false
  topCount : 0 < req.topLogprobsNum →
    (req.tempInputTopLogprobs.getD []).flatten.length = (req.inputTokenLogprobs.getD []).length
  tokenIdsCount : req.tokenIdsLogprob.isSome = true →
    (req.tempInputTokenIdsLogprobs.getD []).flatten.length = (req.inputTokenLogprobs.getD []).length
  waiting : stage = .waiting → req.inputTokenLogprobs.getD [] = [] ∧ req.isChunked = 0 ∧
    (pending ≠ [] → req.isRetracted = true)
  launched : stage = .chunked ∨ stage = .running → req.isRetracted = false ∧
    req.inputTokenLogprobs.getD [] ++ pending.flatten =
      scored server req.originInputIds req.logprobStartLen req.fillIds.length
  chunked : stage = .chunked → req.isChunked = pending.length ∧ req.fillIds.length < req.originInputIds.length
  running : stage = .running → req.isChunked + 1 = pending.length ∧
    req.fillIds.length = req.originInputIds.length ∧ ∀ rows ∈ pending.getLast?, rows ≠ []

/-- A request that asks for logprobs. -/
structure RequestInv (server : LogprobServer α τ υ) (req : LogprobReq α τ υ) (stage : LogprobStage)
    (pending : List (List α)) : Prop where
  inRange : req.logprobStartLen < req.originInputIds.length
  settled : req.inputTokenLogprobsVal = none ∨ req.inputTokenLogprobsVal = some (expectedVals server req)
  collecting : req.inputTokenLogprobsVal = none → Collecting server req stage pending

theorem RequestInv.right {server : LogprobServer α τ υ} {req : LogprobReq α τ υ} {stage : LogprobStage}
    {pending : List (List α)} (h : RequestInv server req stage pending) : InputLogprobsRight server req := by
  intro _ houtputs
  have hrange := h.inRange
  rcases h.settled with hnone | hval
  · exact absurd (h.collecting hnone).outputs houtputs
  · refine ⟨_, hval, ?_, rfl, fun p hp hstart => ?_⟩
    · rw [expectedVals, List.length_cons, List.length_map, length_scored]
      omega
    · rw [expectedVals, Nat.sub_add_comm hstart, List.getElem?_cons_succ, List.getElem?_map,
        getElem?_scored server _ hstart (by omega), List.getD_eq_getElem _ 0 hp]
      rfl

/-- A request whose values are there keeps them. -/
theorem RequestInv.of_settled {server : LogprobServer α τ υ} {req req' : LogprobReq α τ υ}
    {stage : LogprobStage} {pending : List (List α)} (hrange : req.logprobStartLen < req.originInputIds.length)
    (hparams : req'.toLogprobParams = req.toLogprobParams)
    (hval : req'.inputTokenLogprobsVal = some (expectedVals server req)) :
    RequestInv server req' stage pending where
  inRange := by rw [hparams]; exact hrange
  settled := .inr (by rw [hval, expectedVals, expectedVals, hparams])
  collecting := by
    intro hnone
    rw [hval] at hnone
    cases hnone

section Process

variable {server : LogprobServer α τ υ} {req : LogprobReq α τ υ} {entry : PrefillEntry τ υ} {flat : List α}
  {pt : Nat}

theorem addInput_of_val {vals : List (Option α)} (hval : req.inputTokenLogprobsVal = some vals) (last : Bool) :
    req.addInputLogprobReturnValues server (some flat) pt entry last = some req.startCollecting := by
  unfold LogprobReq.addInputLogprobReturnValues
  exact if_pos (by rw [LogprobReq.startCollecting, hval]; rfl)

theorem addInput_chunk (hval : req.inputTokenLogprobsVal = none) :
    req.addInputLogprobReturnValues server (some flat) pt entry false =
      some (req.startCollecting.collect (slice flat pt entry.numInputLogprobs) entry) := by
  unfold LogprobReq.addInputLogprobReturnValues
  refine (if_neg ?_).trans rfl
  rw [LogprobReq.startCollecting, hval]
  exact Bool.false_ne_true

/-- The lists of a request whose last chunk has come in. -/
def processed (vocabSize : Nat) (req : LogprobReq α τ υ) (logprobs : List α) : LogprobReq α τ υ :=
  ((req.processInputTokenLogprobs vocabSize logprobs).processInputTopLogprobs).processInputTokenIdsLogprobs

section Processed

variable (vocabSize : Nat) (req : LogprobReq α τ υ) (logprobs : List α)

theorem processed_params : (processed vocabSize req logprobs).toLogprobParams = req.toLogprobParams := by
  unfold processed LogprobReq.processInputTokenIdsLogprobs LogprobReq.processInputTopLogprobs
  split <;> split <;> rfl

theorem processed_val : (processed vocabSize req logprobs).inputTokenLogprobsVal =
    some (none :: logprobs.dropLast.map some) := by
  unfold processed LogprobReq.processInputTokenIdsLogprobs LogprobReq.processInputTopLogprobs
  split <;> split <;> rfl

theorem processed_idx : (processed vocabSize req logprobs).inputTokenLogprobsIdx =
    some ((req.originInputIds.drop req.logprobStartLen).map fun x => if x + 1 < vocabSize then x else 0) := by
  unfold processed LogprobReq.processInputTokenIdsLogprobs LogprobReq.processInputTopLogprobs
  split <;> split <;> rfl

theorem processed_top (h : req.topLogprobsNum ≠ 0) : (processed vocabSize req logprobs).inputTopLogprobs =
    some (none :: (req.tempInputTopLogprobs.getD []).flatten.map some).dropLast := by
  unfold processed LogprobReq.processInputTokenIdsLogprobs LogprobReq.processInputTopLogprobs
  rw [if_neg (show (req.processInputTokenLogprobs vocabSize logprobs).topLogprobsNum ≠ 0 from h)]
  split <;> rfl

theorem processed_tokenIds (h : req.tokenIdsLogprob.isNone = false) :
    (processed vocabSize req logprobs).inputTokenIdsLogprobs =
      some (none :: (req.tempInputTokenIdsLogprobs.getD []).flatten.map some).dropLast := by
  unfold processed LogprobReq.processInputTokenIdsLogprobs LogprobReq.processInputTopLogprobs
  split <;> exact congrArg LogprobReq.inputTokenIdsLogprobs (if_neg (Bool.eq_false_iff.mp h))

end Processed

theorem length_dropLast_cons_map {β : Type} (xs : List β) :
    ((none :: xs.map some : List (Option β)).dropLast).length = xs.length := by
  rw [List.length_dropLast, List.length_cons, List.length_map, Nat.add_sub_cancel]

theorem lengthsAsserted_processed {vocabSize : Nat} {logprobs : List α}
    (hrange : req.logprobStartLen < req.originInputIds.length)
    (hcount : logprobs.length = req.originInputIds.length - req.logprobStartLen)
    (htop : 0 < req.topLogprobsNum → (req.tempInputTopLogprobs.getD []).flatten.length = logprobs.length)
    (hids : req.tokenIdsLogprob.isSome = true →
      (req.tempInputTokenIdsLogprobs.getD []).flatten.length = logprobs.length) :
    (processed vocabSize req logprobs).lengthsAsserted = true := by
  have hlen : (processed vocabSize req logprobs).relevantTokensLen =
      some (req.originInputIds.length - req.logprobStartLen) := by
    rw [LogprobReq.relevantTokensLen, processed_params]
    exact if_pos hrange.le
  rw [LogprobReq.lengthsAsserted, hlen, processed_val, processed_idx, processed_params]
  simp only [Bool.and_eq_true, Bool.or_eq_true, beq_iff_eq, Option.map_some, Option.some.injEq,
    List.length_cons, List.length_map, List.length_dropLast, List.length_drop, and_true]
  refine ⟨⟨by omega, ?_⟩, ?_⟩
  · rcases Nat.eq_zero_or_pos req.topLogprobsNum with hzero | hpos
    · exact .inl hzero
    · refine .inr ?_
      rw [processed_top _ _ _ hpos.ne', Option.map_some, length_dropLast_cons_map, htop hpos, hcount]
  · cases hask : req.tokenIdsLogprob.isNone with
    | true => exact .inl rfl
    | false =>
      refine .inr ?_
      rw [processed_tokenIds _ _ _ hask, Option.map_some, length_dropLast_cons_map,
        hids (Option.isNone_eq_false_iff.mp hask), hcount]

theorem length_collect_top (rows : List α) (h : 0 < req.topLogprobsNum) :
    ((req.startCollecting.collect rows entry).tempInputTopLogprobs.getD []).flatten.length =
      (req.tempInputTopLogprobs.getD []).flatten.length + entry.inputTopLogprobs.length := by
  rw [LogprobReq.collect, if_pos (show 0 < req.startCollecting.topLogprobsNum from h), Option.getD_some,
    List.flatten_append, List.length_append, List.flatten_singleton]
  rfl

theorem length_collect_tokenIds (rows : List α) (h : req.tokenIdsLogprob.isSome = true) :
    ((req.startCollecting.collect rows entry).tempInputTokenIdsLogprobs.getD []).flatten.length =
      (req.tempInputTokenIdsLogprobs.getD []).flatten.length + entry.inputTokenIdsLogprobs.length := by
  rw [LogprobReq.collect, if_pos (show req.startCollecting.tokenIdsLogprob.isSome = true from h), Option.getD_some,
    List.flatten_append, List.length_append, List.flatten_singleton]
  rfl

/-- The last chunk of a request that has collected the rows before it. -/
theorem addInput_last (hrange : req.logprobStartLen < req.originInputIds.length)
    (hval : req.inputTokenLogprobsVal = none) (hidx : req.inputTokenLogprobsIdx = none)
    (htop : req.inputTopLogprobs = none) {rows : List α} (hrows : slice flat pt entry.numInputLogprobs = rows)
    (hcount : (req.inputTokenLogprobs.getD [] ++ rows).length = req.originInputIds.length - req.logprobStartLen)
    (htopCount : 0 < req.topLogprobsNum → (req.tempInputTopLogprobs.getD []).flatten.length +
      entry.inputTopLogprobs.length = (req.inputTokenLogprobs.getD [] ++ rows).length)
    (hidsCount : req.tokenIdsLogprob.isSome = true → (req.tempInputTokenIdsLogprobs.getD []).flatten.length +
      entry.inputTokenIdsLogprobs.length = (req.inputTokenLogprobs.getD [] ++ rows).length) :
    ∃ req', req.addInputLogprobReturnValues server (some flat) pt entry true = some req' ∧
      req'.toLogprobParams = req.toLogprobParams ∧
      req'.inputTokenLogprobsVal =
        some (none :: (req.inputTokenLogprobs.getD [] ++ rows).dropLast.map some) := by
  subst hrows
  let rows := slice flat pt entry.numInputLogprobs
  let collected := { req.startCollecting.collect rows entry with inputTokenLogprobs := none }
  have htops : 0 < req.topLogprobsNum → (collected.tempInputTopLogprobs.getD []).flatten.length =
      (req.inputTokenLogprobs.getD [] ++ rows).length := by
    intro h
    rw [← htopCount h]
    exact length_collect_top rows h
  have hids : req.tokenIdsLogprob.isSome = true → (collected.tempInputTokenIdsLogprobs.getD []).flatten.length =
      (req.inputTokenLogprobs.getD [] ++ rows).length := by
    intro h
    rw [← hidsCount h]
    exact length_collect_tokenIds rows h
  have hasserted : (processed server.vocabSize collected
      (req.inputTokenLogprobs.getD [] ++ rows)).lengthsAsserted = true :=
    lengthsAsserted_processed hrange hcount htops hids
  have hopen : ¬ req.startCollecting.inputTokenLogprobsVal.isSome = true := by
    rw [LogprobReq.startCollecting, hval]
    exact Bool.false_ne_true
  have hclear : ¬ (collected.inputTokenLogprobsIdx.isSome = true ∨ collected.inputTopLogprobs.isSome = true) := by
    rintro (hsome | hsome)
    · exact Bool.false_ne_true (Eq.trans (congrArg Option.isSome hidx).symm hsome)
    · exact Bool.false_ne_true (Eq.trans (congrArg Option.isSome htop).symm hsome)
  exact ⟨_, (if_neg hopen).trans ((if_pos rfl).trans ((if_neg hclear).trans (if_pos hasserted))),
    processed_params server.vocabSize collected _, processed_val server.vocabSize collected _⟩

variable {stage : LogprobStage} {rows : List α} {pending : List (List α)}

/-- A launched request is not passed over, -/
theorem Collecting.not_skipped (h : Collecting server req stage pending)
    (hstage : stage = .chunked ∨ stage = .running) : server.skips req = false := by
  rw [LogprobServer.skips, (h.launched hstage).1, h.unfinished, Bool.and_false, Bool.false_and, Bool.or_self,
    Bool.and_false, Bool.or_self, Bool.or_self]

/-- and one that waits is where it has been retracted. -/
theorem Collecting.launched_of_not_skipped (h : Collecting server req stage (rows :: pending))
    (hskip : server.skips req = false) (hstage : stage ≠ .absent) : stage = .chunked ∨ stage = .running := by
  cases stage with
  | absent => exact absurd rfl hstage
  | waiting =>
    rw [LogprobServer.skips, (h.waiting rfl).2.2 (List.cons_ne_nil _ _), Bool.or_true] at hskip
    cases hskip
  | chunked => exact .inl rfl
  | running => exact .inr rfl

/-- A result that is passed over. -/
theorem Collecting.skip (h : Collecting server req stage (rows :: pending)) (hskip : server.skips req = true) :
    Collecting server req stage pending where
  idx := h.idx
  top := h.top
  outputs := h.outputs
  unfinished := h.unfinished
  topCount := h.topCount
  tokenIdsCount := h.tokenIdsCount
  waiting := fun hwait =>
    have ⟨hempty, hchunks, hretracted⟩ := h.waiting hwait
    ⟨hempty, hchunks, fun _ => hretracted (List.cons_ne_nil _ _)⟩
  launched := fun hstage => absurd ((h.not_skipped hstage).symm.trans hskip) Bool.noConfusion
  chunked := fun hstage => absurd ((h.not_skipped (.inl hstage)).symm.trans hskip) Bool.noConfusion
  running := fun hstage => absurd ((h.not_skipped (.inr hstage)).symm.trans hskip) Bool.noConfusion

/-- The rows of a chunk that is not the last come in. -/
theorem Collecting.chunk {acc : Option (List α)} {tops : Option (List (List τ))} {ids : Option (List (List υ))}
    (h : Collecting server req stage (rows :: pending)) (hstage : stage = .chunked ∨ stage = .running)
    (hchunked : req.isChunked ≠ 0) (hacc : acc.getD [] = req.inputTokenLogprobs.getD [] ++ rows)
    (htops : 0 < req.topLogprobsNum → (tops.getD []).flatten.length = (acc.getD []).length)
    (hids : req.tokenIdsLogprob.isSome = true → (ids.getD []).flatten.length = (acc.getD []).length) :
    Collecting server { req with
      isChunked := req.isChunked - 1
      inputTokenLogprobs := acc
      tempInputTopLogprobs := tops
      tempInputTokenIdsLogprobs := ids } stage pending where
  idx := h.idx
  top := h.top
  outputs := h.outputs
  unfinished := h.unfinished
  topCount := htops
  tokenIdsCount := hids
  waiting := by
    rintro rfl
    rcases hstage with hstage | hstage <;> cases hstage
  launched := by
    intro _
    obtain ⟨hlive, hrows⟩ := h.launched hstage
    exact ⟨hlive, by rw [hacc, List.append_assoc, ← List.flatten_cons, hrows]⟩
  chunked := by
    intro hchunk
    obtain ⟨hcount, hlt⟩ := h.chunked hchunk
    exact ⟨by rw [hcount]; rfl, hlt⟩
  running := by
    intro hrun
    obtain ⟨hcount, hwhole, hlast⟩ := h.running hrun
    rw [List.length_cons, Nat.add_right_cancel_iff] at hcount
    refine ⟨(Nat.succ_pred_eq_of_ne_zero hchunked).trans hcount, hwhole, fun last hmem => hlast last ?_⟩
    rw [List.getLast?_cons_of_ne_nil]
    · exact hmem
    · rintro rfl
      cases hmem

/-- The rows of the last chunk complete the prompt. -/
theorem Collecting.last (h : Collecting server req stage (rows :: pending))
    (hstage : stage = .chunked ∨ stage = .running) (hchunked : req.isChunked = 0) :
    rows ≠ [] ∧ req.inputTokenLogprobs.getD [] ++ rows =
      scored server req.originInputIds req.logprobStartLen req.originInputIds.length := by
  rcases hstage with hstage | hstage
  · have hcount := (h.chunked hstage).1
    rw [hchunked] at hcount
    cases hcount
  · obtain ⟨hcount, hwhole, hlast⟩ := h.running hstage
    rw [hchunked, List.length_cons, Nat.add_right_cancel_iff] at hcount
    obtain rfl := List.eq_nil_of_length_eq_zero hcount.symm
    refine ⟨hlast rows rfl, ?_⟩
    rw [← hwhole, ← (h.launched (.inr hstage)).2, List.flatten_cons, List.flatten_nil, List.append_nil]

/-- How far a request moves `logprob_pt`. -/
def moves (server : LogprobServer α τ υ) (result : PrefillResult α τ υ) (entry : PrefillEntry τ υ)
    (req : LogprobReq α τ υ) : Nat :=
  if server.skips req = true ∨ result.returnLogprob = false then 0 else entry.numInputLogprobs

/-- What is known of a request of a result before it is processed. -/
structure EntryReady (server : LogprobServer α τ υ) (result : PrefillResult α τ υ) (entry : PrefillEntry τ υ)
    (req : LogprobReq α τ υ) (stage : LogprobStage) (rows : List α) (pending : List (List α)) : Prop where
  top : entry.inputTopLogprobs.length = entry.numInputLogprobs
  tokenIds : entry.inputTokenIdsLogprobs.length = entry.numInputLogprobs
  asks : req.returnLogprob = true → result.returnLogprob = true
  count : result.returnLogprob = true → rows.length = entry.numInputLogprobs
  present : result.returnLogprob = true → 0 < entry.numInputLogprobs →
    ∃ flat, result.inputTokenLogprobs = some flat
  arrived : stage ≠ .absent
  inv : req.returnLogprob = true → RequestInv server req stage (rows :: pending)

/-- The last chunk of a request that asks for logprobs. -/
theorem addLogprobReturnValues_keeps {result : PrefillResult α τ υ}
    (h : EntryReady server result entry req stage rows pending) (hask : req.returnLogprob = true)
    (hskip : server.skips req = false) (hchunked : req.isChunked = 0)
    (hslice : ReadsRows server req entry →
      slice (result.inputTokenLogprobs.getD []) pt entry.numInputLogprobs = rows)
    {req₁ : LogprobReq α τ υ} (hreq₁ : req₁ = { req with
      outputIds := req.outputIds ++ [entry.nextTokenId]
      finished := req.finished || entry.finishes }) :
    ∃ req', req₁.addLogprobReturnValues server result.inputTokenLogprobs pt entry = some req' ∧
      req'.toLogprobParams = req.toLogprobParams ∧ RequestInv server req' stage pending := by
  have hinv := h.inv hask
  have hret := h.asks hask
  unfold LogprobReq.addLogprobReturnValues
  rcases Nat.eq_zero_or_pos entry.numInputLogprobs with hzero | hpos
  · rw [if_neg (not_lt.mpr hzero.le)]
    refine ⟨_, rfl, by rw [hreq₁]; rfl, ?_⟩
    rcases hinv.settled with hnone | hval
    · -- the last chunk of a request that still collects has rows
      have hcol := hinv.collecting hnone
      have hrows := (hcol.last (hcol.launched_of_not_skipped hskip h.arrived) hchunked).1
      exact absurd (List.eq_nil_of_length_eq_zero ((h.count hret).trans hzero)) hrows
    · refine .of_settled hinv.inRange (by rw [hreq₁]; rfl) ?_
      rw [hreq₁]
      exact congrArg (fun vals => some (Option.getD vals [])) hval
  · rw [if_pos hpos]
    obtain ⟨flat, hflat⟩ := h.present hret hpos
    rw [hflat] at hslice ⊢
    rcases hinv.settled with hnone | hval
    · have hcol := hinv.collecting hnone
      obtain ⟨-, hall⟩ := hcol.last (hcol.launched_of_not_skipped hskip h.arrived) hchunked
      have hcount : (req.inputTokenLogprobs.getD [] ++ rows).length =
          req.originInputIds.length - req.logprobStartLen := by
        rw [hall, length_scored]
      obtain ⟨req', heq, hparams, hval⟩ : ∃ req',
          req₁.addInputLogprobReturnValues server (some flat) pt entry true = some req' ∧
            req'.toLogprobParams = req₁.toLogprobParams ∧ req'.inputTokenLogprobsVal =
              some (none :: (req₁.inputTokenLogprobs.getD [] ++ rows).dropLast.map some) := addInput_last
        (by rw [hreq₁]; exact hinv.inRange) (by rw [hreq₁]; exact hnone) (by rw [hreq₁]; exact hcol.idx)
        (by rw [hreq₁]; exact hcol.top) (hslice ⟨hskip, hask, hnone, hpos⟩) (by rw [hreq₁]; exact hcount)
        (by
          rw [hreq₁]
          intro htop
          rw [List.length_append, h.top, h.count hret]
          exact congrArg (· + _) (hcol.topCount htop))
        (by
          rw [hreq₁]
          intro hids
          rw [List.length_append, h.tokenIds, h.count hret]
          exact congrArg (· + _) (hcol.tokenIdsCount hids))
      have hparams' : req'.toLogprobParams = req.toLogprobParams := by rw [hparams, hreq₁]
      refine ⟨req', heq, hparams', .of_settled hinv.inRange hparams' ?_⟩
      rw [hval, hreq₁]
      change some (none :: (req.inputTokenLogprobs.getD [] ++ rows).dropLast.map some) = _
      rw [hall, expectedVals, scored_dropLast server _ hinv.inRange]
    · refine ⟨_, addInput_of_val (by rw [hreq₁]; exact hval) true, by rw [hreq₁]; rfl, ?_⟩
      exact .of_settled hinv.inRange (by rw [hreq₁]; rfl) (by rw [hreq₁]; exact hval)

theorem moves_of_skips {result : PrefillResult α τ υ} (h : server.skips req = true) :
    moves server result entry req = 0 :=
  if_pos (.inl h)

theorem moves_of_not_asked {result : PrefillResult α τ υ} (h : ¬ result.returnLogprob = true) :
    moves server result entry req = 0 :=
  if_pos (.inr (Bool.eq_false_iff.mpr h))

theorem moves_of_asked {result : PrefillResult α τ υ} (hskip : ¬ server.skips req = true)
    (h : result.returnLogprob = true) : moves server result entry req = entry.numInputLogprobs :=
  if_neg fun hno => hno.elim hskip fun hfalse => Bool.noConfusion (h.symm.trans hfalse)

/-- A chunk that is not the last, of a request that asks for logprobs. -/
theorem processChunk_keeps {result : PrefillResult α τ υ}
    (h : EntryReady server result entry req stage rows pending) (hask : req.returnLogprob = true)
    (hskip : server.skips req = false) (hchunked : req.isChunked ≠ 0)
    (hslice : ReadsRows server req entry →
      slice (result.inputTokenLogprobs.getD []) pt entry.numInputLogprobs = rows)
    (hpos : 0 < entry.numInputLogprobs)
    {req₁ : LogprobReq α τ υ} (hreq₁ : req₁ = { req with isChunked := req.isChunked - 1 }) :
    ∃ req', req₁.addInputLogprobReturnValues server result.inputTokenLogprobs pt entry false = some req' ∧
      req'.toLogprobParams = req.toLogprobParams ∧ RequestInv server req' stage pending := by
  have hinv := h.inv hask
  have hret := h.asks hask
  obtain ⟨flat, hflat⟩ := h.present hret hpos
  rw [hflat] at hslice ⊢
  rcases hinv.settled with hnone | hval
  · have hcol := hinv.collecting hnone
    have hrows := hslice ⟨hskip, hask, hnone, hpos⟩
    refine ⟨_, addInput_chunk (by rw [hreq₁]; exact hnone), by rw [hreq₁]; rfl, ?_⟩
    rw [show slice flat pt entry.numInputLogprobs = rows from hrows, hreq₁]
    refine ⟨hinv.inRange, .inl hnone, fun _ => hcol.chunk (hcol.launched_of_not_skipped hskip h.arrived)
      hchunked rfl (fun htop => ?_) (fun hids => ?_)⟩
    · refine (length_collect_top rows htop).trans ?_
      rw [Option.getD_some, List.length_append, h.top, h.count hret]
      exact congrArg (· + _) (hcol.topCount htop)
    · refine (length_collect_tokenIds rows hids).trans ?_
      rw [Option.getD_some, List.length_append, h.tokenIds, h.count hret]
      exact congrArg (· + _) (hcol.tokenIdsCount hids)
  · refine ⟨_, addInput_of_val (by rw [hreq₁]; exact hval) false, by rw [hreq₁]; rfl, ?_⟩
    exact .of_settled hinv.inRange (by rw [hreq₁]; rfl) (by rw [hreq₁]; exact hval)

/-- A chunk without rows. -/
theorem emptyChunk_keeps {result : PrefillResult α τ υ}
    (h : EntryReady server result entry req stage rows pending) (hask : req.returnLogprob = true)
    (hskip : server.skips req = false) (hchunked : req.isChunked ≠ 0) (hzero : entry.numInputLogprobs = 0) :
    RequestInv server { req with isChunked := req.isChunked - 1 } stage pending := by
  have hinv := h.inv hask
  have hrows := List.eq_nil_of_length_eq_zero ((h.count (h.asks hask)).trans hzero)
  refine ⟨hinv.inRange, hinv.settled, fun hnone => ?_⟩
  have hcol := hinv.collecting hnone
  exact hcol.chunk (hcol.launched_of_not_skipped hskip h.arrived) hchunked
    (by rw [hrows, List.append_nil]) hcol.topCount hcol.tokenIdsCount

theorem processEntry_keeps {result : PrefillResult α τ υ}
    (h : EntryReady server result entry req stage rows pending)
    (hslice : ReadsRows server req entry →
      slice (result.inputTokenLogprobs.getD []) pt entry.numInputLogprobs = rows) :
    ∃ req', server.processEntry result pt entry req = some (req', moves server result entry req) ∧
      req'.toLogprobParams = req.toLogprobParams ∧
      (req.returnLogprob = true → RequestInv server req' stage pending) := by
  unfold LogprobServer.processEntry
  by_cases hskip : server.skips req = true
  · rw [if_pos hskip, moves_of_skips hskip]
    refine ⟨req, rfl, rfl, fun hask => ?_⟩
    have hinv := h.inv hask
    exact ⟨hinv.inRange, hinv.settled, fun hnone => (hinv.collecting hnone).skip hskip⟩
  · rw [if_neg hskip]
    by_cases hret : result.returnLogprob = true
    · rw [moves_of_asked hskip hret]
      by_cases hask : req.returnLogprob = true
      · have hlive := Bool.eq_false_iff.mpr hskip
        by_cases hchunked : req.isChunked = 0
        · obtain ⟨req', heq, hparams, hinv⟩ := addLogprobReturnValues_keeps h hask hlive hchunked hslice rfl
          refine ⟨req', ?_, hparams, fun _ => hinv⟩
          rw [if_pos hchunked, if_pos hret, if_pos hask, heq]
          rfl
        · rw [if_neg hchunked]
          rcases Nat.eq_zero_or_pos entry.numInputLogprobs with hzero | hpos
          · refine ⟨{ req with isChunked := req.isChunked - 1 }, ?_, rfl,
              fun _ => emptyChunk_keeps h hask hlive hchunked hzero⟩
            rw [if_neg fun hlt => (Nat.sub_pos_of_lt hlt.2).ne' hzero, hzero]
          · obtain ⟨req', heq, hparams, hinv⟩ := processChunk_keeps h hask hlive hchunked hslice hpos rfl
            refine ⟨req', ?_, hparams, fun _ => hinv⟩
            rw [if_pos ⟨hret, Nat.lt_of_sub_pos hpos⟩, if_pos hask, heq]
            rfl
      · by_cases hchunked : req.isChunked = 0
        · rw [if_pos hchunked, if_pos hret]
          exact ⟨_, if_neg hask, rfl, fun h => absurd h hask⟩
        · rw [if_neg hchunked]
          refine ⟨{ req with isChunked := req.isChunked - 1 }, ?_, rfl, fun h => absurd h hask⟩
          split
          next => exact if_neg hask
          next hempty =>
            rw [PrefillEntry.numInputLogprobs, Nat.sub_eq_zero_of_le (not_lt.mp fun hlt => hempty ⟨hret, hlt⟩)]
    · -- no request of the batch asks for logprobs
      have hask : ¬ req.returnLogprob = true := fun hask => hret (h.asks hask)
      rw [moves_of_not_asked hret]
      by_cases hchunked : req.isChunked = 0
      · rw [if_pos hchunked]
        exact ⟨_, if_neg hret, rfl, fun h => absurd h hask⟩
      · rw [if_neg hchunked]
        exact ⟨_, if_neg fun h => hret h.1, rfl, fun h => absurd h hask⟩

/-- The loop over a result whose rows are where `logprob_pt` is, unless no request reads them. -/
theorem processEntries_keeps {result : PrefillResult α τ υ} (stageOf : Nat → LogprobStage)
    (rowsOf : Nat → List α) (pendingOf : Nat → List (List α)) (entries : List (PrefillEntry τ υ)) (pt : Nat)
    (left : List α) (reqs : Nat → LogprobReq α τ υ) (hnodup : (entries.map (·.rid)).Nodup)
    (hown : result.returnLogprob = true →
      ∀ entry ∈ entries, ownRows entry.rid entries left = some (rowsOf entry.rid))
    (hready : ∀ entry ∈ entries, EntryReady server result entry (reqs entry.rid) (stageOf entry.rid)
      (rowsOf entry.rid) (pendingOf entry.rid))
    (hkept : NoRowsSkipped server reqs entries)
    (hplace : (result.inputTokenLogprobs.getD []).drop pt = left ∨
      ∀ entry ∈ entries, ¬ ReadsRows server (reqs entry.rid) entry) :
    ∃ reqs', server.processEntries result pt entries reqs = some reqs' ∧
      (∀ rid ∉ entries.map (·.rid), reqs' rid = reqs rid) ∧
      ∀ entry ∈ entries, (reqs' entry.rid).toLogprobParams = (reqs entry.rid).toLogprobParams ∧
        ((reqs entry.rid).returnLogprob = true →
          RequestInv server (reqs' entry.rid) (stageOf entry.rid) (pendingOf entry.rid)) := by
  induction entries generalizing pt left reqs with
  | nil => exact ⟨reqs, rfl, fun _ _ => rfl, fun entry h => absurd h List.not_mem_nil⟩
  | cons first entries ih =>
    rw [List.map_cons, List.nodup_cons] at hnodup
    obtain ⟨hfirst, hready⟩ := List.forall_mem_cons.mp hready
    obtain ⟨hover, hkept⟩ := List.pairwise_cons.mp hkept
    have hne : ∀ entry ∈ entries, entry.rid ≠ first.rid := fun entry hmem heq =>
      hnodup.1 (heq ▸ List.mem_map_of_mem hmem)
    have hslice : ReadsRows server (reqs first.rid) first →
        slice (result.inputTokenLogprobs.getD []) pt first.numInputLogprobs = rowsOf first.rid := by
      intro hreads
      have hrows := hown (hfirst.asks hreads.2.1) first List.mem_cons_self
      rw [ownRows, if_pos rfl, Option.some.injEq] at hrows
      rcases hplace with hplace | hnone
      · rw [slice, hplace, hrows]
      · exact absurd hreads (hnone first List.mem_cons_self)
    obtain ⟨req', heq, hparams, hinv⟩ := processEntry_keeps hfirst hslice
    have hsame : ∀ entry ∈ entries, Function.update reqs first.rid req' entry.rid = reqs entry.rid :=
      fun entry hmem => Function.update_of_ne (hne entry hmem) _ _
    have hmoved : (result.inputTokenLogprobs.getD []).drop
          (pt + moves server result first (reqs first.rid)) = left.drop first.numInputLogprobs ∨
        ∀ entry ∈ entries, ¬ ReadsRows server (reqs entry.rid) entry := by
      rcases hplace with hplace | hnone
      · by_cases hret : result.returnLogprob = true
        · by_cases hskip : server.skips (reqs first.rid) = true
          · rcases Nat.eq_zero_or_pos first.numInputLogprobs with hzero | hpos
            · rw [moves_of_skips hskip, hzero, Nat.add_zero, List.drop_zero]
              exact .inl hplace
            · exact .inr fun entry hmem => hover entry hmem hskip hpos
          · rw [moves_of_asked hskip hret, ← List.drop_drop, hplace]
            exact .inl rfl
        · exact .inr fun entry hmem hreads => hret ((hready entry hmem).asks hreads.2.1)
      · exact .inr fun entry hmem => hnone entry (List.mem_cons_of_mem _ hmem)
    obtain ⟨reqs', hrun, hframe, hall⟩ := ih (pt + moves server result first (reqs first.rid))
      (left.drop first.numInputLogprobs) (Function.update reqs first.rid req') hnodup.2
      (fun hret entry hmem => by
        have hrows := hown hret entry (List.mem_cons_of_mem _ hmem)
        rwa [ownRows, if_neg (hne entry hmem).symm] at hrows)
      (fun entry hmem => (hsame entry hmem).symm ▸ hready entry hmem)
      (hkept.imp_of_mem fun hmem hmem' h => by rwa [hsame _ hmem, hsame _ hmem'])
      (hmoved.imp_right fun hnone entry hmem => (hsame entry hmem).symm ▸ hnone entry hmem)
    refine ⟨reqs', ?_, fun rid hnot => ?_, fun entry hmem => ?_⟩
    · rw [LogprobServer.processEntries, heq]
      exact hrun
    · rw [List.map_cons, List.mem_cons, not_or] at hnot
      rw [hframe rid hnot.2, Function.update_of_ne hnot.1]
    · rcases List.mem_cons.mp hmem with rfl | hmem
      · rw [hframe _ hnodup.1, Function.update_self]
        exact ⟨hparams, hinv⟩
      · have hrest := hall entry hmem
        rwa [hsame entry hmem] at hrest

/-- A request that is launched again scores on from where it was. -/
theorem Collecting.launch {choice : PrefillChoice} {isPrefillOnly : Bool}
    (h : Collecting server req stage pending) (hrange : req.logprobStartLen < req.originInputIds.length)
    (hbegins : choice.prefixLen < req.originInputIds.length)
    (hcount : req.isChunked = pending.length)
    (hrows : req.inputTokenLogprobs.getD [] ++ pending.flatten =
      scored server req.originInputIds req.logprobStartLen choice.prefixLen)
    (htrunc : ∀ truncLen ∈ choice.truncLen, 0 < truncLen ∧ choice.prefixLen + truncLen < req.seqlen) :
    Collecting server (prepared req choice isPrefillOnly)
      (if choice.truncLen.isSome then .chunked else .running)
      (pending ++ [scores server (prepared req choice isPrefillOnly)]) := by
  have hseq : req.seqlen = req.originInputIds.length := by
    rw [LogprobReq.seqlen, h.outputs]
    rfl
  have hstop : choice.prefixLen < stopOf req choice ∧ stopOf req choice ≤ req.originInputIds.length ∧
      (choice.truncLen.isSome = true → stopOf req choice < req.originInputIds.length) ∧
      (choice.truncLen.isSome = false → stopOf req choice = req.originInputIds.length) := by
    unfold stopOf
    cases hcut : choice.truncLen with
    | none => exact ⟨hseq ▸ hbegins, hseq.le, Bool.noConfusion, fun _ => hseq⟩
    | some truncLen =>
      obtain ⟨hpos, hlt⟩ := htrunc truncLen hcut
      rw [hseq] at hlt
      exact ⟨Nat.lt_add_of_pos_right hpos, hlt.le, fun _ => hlt, Bool.noConfusion⟩
  obtain ⟨hpre, hle, hcut, hwhole⟩ := hstop
  have hplace := prepared_coordinates req choice isPrefillOnly
  have hsame := prepared_same req choice isPrefillOnly
  have hparams := prepared_params req choice isPrefillOnly
  have hids := length_extendInputLogprobTokenIds req choice isPrefillOnly
  generalize prepared req choice isPrefillOnly = req' at hplace hsame hparams hids ⊢
  have hfill : req'.fillIds = req.originInputIds.take (stopOf req choice) := by
    rw [hplace.fillIds, h.outputs, List.append_nil]
  have hlen : req'.fillIds.length = stopOf req choice := by
    rw [hfill, List.length_take, min_eq_left hle]
  have hrel := hplace.start hrange
  rw [hplace.extendInputLen, hseq] at hrel
  have hscores : scores server req' = scored server req.originInputIds
      (max choice.prefixLen req.logprobStartLen) (stopOf req choice) := by
    have heq : scores server req' = scored server req'.originInputIds
        (max req'.prefixLen req'.logprobStartLen) req'.fillIds.length := scores_eq server
      (by rw [hlen, hparams, hfill])
      (by rw [hplace.prefixLen, hplace.extendInputLen, hlen, hparams, hrel]; split <;> omega)
      (by rw [hplace.prefixLen, hplace.extendInputLen, hparams, hrel]; split <;> omega) hids
    rwa [hplace.prefixLen, hlen, hparams] at heq
  exact {
    idx := hsame.idx.trans h.idx
    top := hsame.top.trans h.top
    outputs := hsame.outputs.trans h.outputs
    unfinished := hsame.finished.trans h.unfinished
    topCount := by
      rw [hparams, hsame.tempTop, hsame.acc]
      exact h.topCount
    tokenIdsCount := by
      rw [hparams, hsame.tempTokenIds, hsame.acc]
      exact h.tokenIdsCount
    waiting := by
      intro hwait
      split at hwait <;> cases hwait
    launched := by
      intro _
      refine ⟨hplace.live, ?_⟩
      rw [hsame.acc, List.flatten_append, List.flatten_singleton, ← List.append_assoc, hrows, hscores, hlen,
        hparams, scored_append server _ hpre.le]
    chunked := by
      intro hchunk
      split at hchunk
      next hsome =>
        rw [hplace.isChunked, hsome, hcount, hlen, hparams, List.length_append]
        exact ⟨rfl, hcut hsome⟩
      next => cases hchunk
    running := by
      intro hrun
      split at hrun
      next => cases hrun
      next hnone =>
        have hnone := Bool.eq_false_iff.mpr hnone
        rw [hplace.isChunked, hnone, hcount, hlen, hparams, List.length_append, List.getLast?_concat]
        refine ⟨rfl, hwhole hnone, fun rows hmem hempty => ?_⟩
        obtain rfl := Option.mem_some_iff.mp hmem
        have hzero := congrArg List.length (hscores.symm.trans hempty)
        rw [length_scored, hwhole hnone, List.length_nil] at hzero
        omega }

end Process

/-! ## The steps of the scheduler -/

/-- Every launched batch is well shaped, and every request that asks for logprobs is on its way. -/
structure LogprobInv (server : LogprobServer α τ υ) (s : LogprobScheduler α τ υ) : Prop where
  shaped : ∀ result ∈ s.resultQueue, ResultShaped result
  asks : ∀ result ∈ s.resultQueue, ∀ entry ∈ result.entries,
    (s.reqs entry.rid).returnLogprob = true → result.returnLogprob = true
  absent : ∀ rid, s.stage rid = .absent → pendingRows rid s.resultQueue = []
  reqs : ∀ rid, s.stage rid ≠ .absent → (s.reqs rid).returnLogprob = true →
    RequestInv server (s.reqs rid) (s.stage rid) (pendingRows rid s.resultQueue)

section Steps

variable {server : LogprobServer α τ υ} {s : LogprobScheduler α τ υ}

theorem LogprobInv.initial (h : s.Initial) : LogprobInv server s where
  shaped := by
    rw [h.1]
    exact fun _ hmem => absurd hmem List.not_mem_nil
  asks := by
    rw [h.1]
    exact fun _ hmem => absurd hmem List.not_mem_nil
  absent := by
    rw [h.1]
    exact fun _ _ => rfl
  reqs := fun rid hstage => absurd (h.2 rid) hstage

/-- A launched request has arrived. -/
theorem LogprobInv.arrived (h : LogprobInv server s) {result : PrefillResult α τ υ}
    (hmem : result ∈ s.resultQueue) {entry : PrefillEntry τ υ} (hentry : entry ∈ result.entries) :
    s.stage entry.rid ≠ .absent := by
  intro habsent
  have hnone := List.filterMap_eq_nil_iff.mp (h.absent entry.rid habsent) result hmem
  exact ownRows_eq_none.mp hnone (List.mem_map_of_mem hentry)

theorem LogprobInv.arrive (h : LogprobInv server s) {rid : Nat} {params : LogprobParams} {aborted : Bool}
    (habsent : s.stage rid = .absent) (haccepted : LogprobScheduler.Accepted params aborted) :
    LogprobInv server { s with
      reqs := Function.update s.reqs rid (.new params aborted)
      stage := Function.update s.stage rid .waiting } where
  shaped := h.shaped
  asks := by
    intro result hmem entry hentry
    have hne : entry.rid ≠ rid := fun heq => h.arrived hmem hentry (heq ▸ habsent)
    simp only [Function.update_of_ne hne]
    exact h.asks result hmem entry hentry
  absent := by
    intro rid' hstage
    by_cases heq : rid' = rid
    · rw [heq]
      exact h.absent rid habsent
    · simp only [Function.update_of_ne heq] at hstage
      exact h.absent rid' hstage
  reqs := by
    intro rid' hstage hask
    by_cases heq : rid' = rid
    · subst heq
      simp only [Function.update_self] at hask ⊢
      obtain ⟨hrange, hfresh⟩ := haccepted.2 hask
      have hnone := h.absent rid' habsent
      refine ⟨hrange, .inl rfl, fun _ => ?_⟩
      exact {
        idx := rfl
        top := rfl
        outputs := rfl
        unfinished := hfresh
        topCount := fun _ => rfl
        tokenIdsCount := fun _ => rfl
        waiting := fun _ => ⟨rfl, rfl, fun hne => absurd hnone hne⟩
        launched := fun hstage => by rcases hstage with hstage | hstage <;> cases hstage
        chunked := fun hstage => by cases hstage
        running := fun hstage => by cases hstage }
    · simp only [Function.update_of_ne heq] at hstage hask ⊢
      exact h.reqs rid' hstage hask

/-- A change of one request that has arrived. -/
theorem LogprobInv.update (h : LogprobInv server s) {rid : Nat} {req : LogprobReq α τ υ} {stage : LogprobStage}
    (harrived : s.stage rid ≠ .absent) (hstage : stage ≠ .absent)
    (hparams : req.toLogprobParams = (s.reqs rid).toLogprobParams)
    (hreq : (s.reqs rid).returnLogprob = true → RequestInv server req stage (pendingRows rid s.resultQueue)) :
    LogprobInv server { s with
      reqs := Function.update s.reqs rid req
      stage := Function.update s.stage rid stage } where
  shaped := h.shaped
  asks := by
    intro result hmem entry hentry hask
    refine h.asks result hmem entry hentry ?_
    by_cases heq : entry.rid = rid
    · simp only [heq, Function.update_self, hparams] at hask
      rw [heq, hask]
    · simp only [Function.update_of_ne heq] at hask
      exact hask
  absent := by
    intro rid' habsent
    by_cases heq : rid' = rid
    · subst heq
      simp only [Function.update_self] at habsent
      exact absurd habsent hstage
    · simp only [Function.update_of_ne heq] at habsent
      exact h.absent rid' habsent
  reqs := by
    intro rid' hstage' hask
    by_cases heq : rid' = rid
    · subst heq
      simp only [Function.update_self, hparams] at hask ⊢
      exact hreq hask
    · simp only [Function.update_of_ne heq] at hstage' hask ⊢
      exact h.reqs rid' hstage' hask

theorem LogprobInv.retract (h : LogprobInv server s) {rid : Nat} (hstage : s.stage rid = .running)
    (hkept : (s.reqs rid).tempInputTokenIdsLogprobs.getD [] = []) :
    LogprobInv server { s with
      reqs := Function.update s.reqs rid (s.reqs rid).retract
      stage := Function.update s.stage rid .waiting } := by
  have harrived : s.stage rid ≠ .absent := by
    rw [hstage]
    exact LogprobStage.noConfusion
  refine h.update harrived LogprobStage.noConfusion rfl fun hask => ?_
  have hinv := h.reqs rid harrived hask
  refine ⟨hinv.inRange, hinv.settled, fun hnone => ?_⟩
  have hcol := hinv.collecting hnone
  exact {
    idx := hcol.idx
    top := hcol.top
    outputs := hcol.outputs
    unfinished := hcol.unfinished
    topCount := fun _ => rfl
    tokenIdsCount := fun _ => congrArg (List.length ∘ List.flatten) hkept
    waiting := fun _ => ⟨rfl, rfl, fun _ => rfl⟩
    launched := fun hstage => by rcases hstage with hstage | hstage <;> cases hstage
    chunked := fun hstage => by cases hstage
    running := fun hstage => by cases hstage }

theorem LogprobInv.decode (h : LogprobInv server s) {rid token : Nat} (hstage : s.stage rid = .running)
    (houtputs : (s.reqs rid).outputIds ≠ []) :
    LogprobInv server { s with
      reqs := Function.update s.reqs rid { s.reqs rid with outputIds := (s.reqs rid).outputIds ++ [token] } } := by
  have harrived : s.stage rid ≠ .absent := by
    rw [hstage]
    exact LogprobStage.noConfusion
  have hupdate : LogprobInv server { s with
      reqs := Function.update s.reqs rid { s.reqs rid with outputIds := (s.reqs rid).outputIds ++ [token] }
      stage := Function.update s.stage rid (s.stage rid) } := by
    refine h.update harrived harrived rfl fun hask => ?_
    have hinv := h.reqs rid harrived hask
    rcases hinv.settled with hnone | hval
    · exact absurd (hinv.collecting hnone).outputs houtputs
    · exact .of_settled hinv.inRange rfl hval
  rwa [Function.update_eq_self] at hupdate

theorem pendingRows_append_of_notMem {rid : Nat} {queue : List (PrefillResult α τ υ)}
    {result : PrefillResult α τ υ} (h : rid ∉ result.entries.map (·.rid)) :
    pendingRows rid (queue ++ [result]) = pendingRows rid queue := by
  rw [pendingRows, List.filterMap_append, List.filterMap_cons, ownRows_eq_none.mpr h, List.filterMap_nil,
    List.append_nil]
  rfl

theorem pendingRows_append {rid : Nat} {queue : List (PrefillResult α τ υ)} {result : PrefillResult α τ υ}
    {rows : List α} (h : ownRows rid result.entries (result.inputTokenLogprobs.getD []) = some rows) :
    pendingRows rid (queue ++ [result]) = pendingRows rid queue ++ [rows] := by
  rw [pendingRows, List.filterMap_append, List.filterMap_cons, h, List.filterMap_nil]
  rfl

/-- A request that the scheduler chooses goes on from its prefix. -/
theorem RequestInv.launch {choice : PrefillChoice} {isPrefillOnly : Bool} (hadmissible : s.Admissible choice)
    (hask : (s.reqs choice.rid).returnLogprob = true)
    (h : RequestInv server (s.reqs choice.rid) (s.stage choice.rid) (pendingRows choice.rid s.resultQueue)) :
    RequestInv server (prepared (s.reqs choice.rid) choice isPrefillOnly)
      (if choice.truncLen.isSome then .chunked else .running)
      (pendingRows choice.rid s.resultQueue ++
        [scores server (prepared (s.reqs choice.rid) choice isPrefillOnly)]) := by
  have hparams := prepared_params (s.reqs choice.rid) choice isPrefillOnly
  have hval := (prepared_same (s.reqs choice.rid) choice isPrefillOnly).val
  rcases h.settled with hnone | hsome
  · refine ⟨by rw [hparams]; exact h.inRange, .inl (hval.trans hnone), fun _ => ?_⟩
    have hcol := h.collecting hnone
    obtain ⟨hwhere, htrunc⟩ := hadmissible
    have hrange := h.inRange
    rcases hwhere with ⟨hwait, hhit, hidle⟩ | ⟨hchunk, hnext⟩
    · obtain ⟨hacc, hchunks, -⟩ := hcol.waiting hwait
      have hpending := inFlight_eq_false.mp hidle
      rw [LogprobReq.maxPrefixLen, if_pos hask, LogprobReq.seqlen, hcol.outputs, le_min_iff] at hhit
      refine hcol.launch hrange ?_ (by rw [hchunks, hpending]; rfl) ?_ htrunc
      · exact lt_of_le_of_lt hhit.2 hrange
      · rw [hacc, hpending, scored, Nat.sub_eq_zero_of_le hhit.2]
        rfl
    · obtain ⟨hcount, hlt⟩ := hcol.chunked hchunk
      refine hcol.launch hrange (by rw [hnext]; exact hlt) hcount ?_ htrunc
      rw [hnext]
      exact (hcol.launched (.inl hchunk)).2
  · exact .of_settled h.inRange hparams (hval.trans hsome)

theorem LogprobInv.launch (h : LogprobInv server s) {choices : List PrefillChoice}
    (hnodup : (choices.map (·.rid)).Nodup) (hadmissible : ∀ c ∈ choices, s.Admissible c) :
    LogprobInv server {
      reqs := (server.launch s.reqs choices).1
      stage := fun rid => match choices.find? fun c => c.rid == rid with
        | some c => if c.truncLen.isSome then .chunked else .running
        | none => s.stage rid
      resultQueue := s.resultQueue ++ [(server.launch s.reqs choices).2] } := by
  have hparams : ∀ rid, ((server.launch s.reqs choices).1 rid).toLogprobParams = (s.reqs rid).toLogprobParams := by
    intro rid
    by_cases hmem : rid ∈ choices.map (·.rid)
    · obtain ⟨c, hc, rfl⟩ := List.mem_map.mp hmem
      rw [launch_reqs server hnodup hc, prepared_params]
    · rw [launch_reqs_of_notMem server hmem]
  have hrets : ∀ c ∈ choices, (s.reqs c.rid).returnLogprob = true →
      (server.launch s.reqs choices).2.returnLogprob = true := fun c hc hask =>
    List.any_eq_true.mpr ⟨c, hc, hask⟩
  refine ⟨?_, ?_, fun rid hstage => ?_, fun rid hstage hask => ?_⟩
  · rw [List.forall_mem_append, List.forall_mem_singleton]
    exact ⟨h.shaped, resultShaped_launch server hnodup⟩
  · rw [List.forall_mem_append, List.forall_mem_singleton]
    simp only [hparams]
    refine ⟨h.asks, fun entry hentry hask => ?_⟩
    obtain ⟨c, hc, rfl⟩ := List.mem_map.mp hentry
    exact hrets c hc hask
  · by_cases hmem : rid ∈ choices.map (·.rid)
    · obtain ⟨c, hc, rfl⟩ := List.mem_map.mp hmem
      simp only [find?_key hnodup hc] at hstage
      split at hstage <;> cases hstage
    · simp only [find?_key_eq_none.mpr hmem] at hstage
      rw [pendingRows_append_of_notMem (by rwa [launch_rids])]
      exact h.absent rid hstage
  · rw [hparams] at hask
    by_cases hmem : rid ∈ choices.map (·.rid)
    · obtain ⟨c, hc, rfl⟩ := List.mem_map.mp hmem
      have harrived : s.stage c.rid ≠ .absent := by
        rcases (hadmissible c hc).1 with ⟨hwait, -⟩ | ⟨hchunk, -⟩
        · exact fun habsent => LogprobStage.noConfusion (hwait.symm.trans habsent)
        · exact fun habsent => LogprobStage.noConfusion (hchunk.symm.trans habsent)
      simp only [find?_key hnodup hc, launch_reqs server hnodup hc]
      rw [pendingRows_append (launch_ownRows server hnodup (hrets c hc hask) hc)]
      exact (h.reqs c.rid harrived hask).launch (hadmissible c hc) hask
    · simp only [find?_key_eq_none.mpr hmem] at hstage ⊢
      rw [pendingRows_append_of_notMem (by rwa [launch_rids]), launch_reqs_of_notMem server hmem]
      exact h.reqs rid hstage hask

theorem ownRows_nil {rid : Nat} {entries : List (PrefillEntry τ υ)} {rows : List α}
    (h : ownRows rid entries [] = some rows) : rows = [] := by
  induction entries with
  | nil => cases h
  | cons entry entries ih =>
    rw [ownRows, List.take_nil, List.drop_nil] at h
    split at h
    next => exact (Option.some.inj h).symm
    next => exact ih h

theorem pendingRows_cons {rid : Nat} {queue : List (PrefillResult α τ υ)} {result : PrefillResult α τ υ}
    {rows : List α} (h : ownRows rid result.entries (result.inputTokenLogprobs.getD []) = some rows) :
    pendingRows rid (result :: queue) = rows :: pendingRows rid queue := by
  rw [pendingRows, List.filterMap_cons, h]
  rfl

theorem pendingRows_cons_of_notMem {rid : Nat} {queue : List (PrefillResult α τ υ)}
    {result : PrefillResult α τ υ} (h : rid ∉ result.entries.map (·.rid)) :
    pendingRows rid (result :: queue) = pendingRows rid queue := by
  rw [pendingRows, List.filterMap_cons, ownRows_eq_none.mpr h]
  rfl

/-- The rows of a request in the oldest result. -/
def oldestRows (result : PrefillResult α τ υ) (rid : Nat) : List α :=
  (ownRows rid result.entries (result.inputTokenLogprobs.getD [])).getD []

theorem LogprobInv.entryReady (h : LogprobInv server s) {result : PrefillResult α τ υ}
    {rest : List (PrefillResult α τ υ)} (hqueue : s.resultQueue = result :: rest)
    {entry : PrefillEntry τ υ} (hentry : entry ∈ result.entries) :
    ownRows entry.rid result.entries (result.inputTokenLogprobs.getD []) = some (oldestRows result entry.rid) ∧
      EntryReady server result entry (s.reqs entry.rid) (s.stage entry.rid) (oldestRows result entry.rid)
        (pendingRows entry.rid rest) := by
  have hmem : result ∈ s.resultQueue := by
    rw [hqueue]
    exact List.mem_cons_self
  have hshaped := h.shaped result hmem
  have hown : ownRows entry.rid result.entries (result.inputTokenLogprobs.getD []) =
      some (oldestRows result entry.rid) := by
    cases hrows : ownRows entry.rid result.entries (result.inputTokenLogprobs.getD []) with
    | none => exact absurd (List.mem_map_of_mem hentry) (ownRows_eq_none.mp hrows)
    | some rows => rw [oldestRows, hrows, Option.getD_some]
  have harrived := h.arrived hmem hentry
  have hcount : result.returnLogprob = true → (oldestRows result entry.rid).length = entry.numInputLogprobs := by
    intro hret
    obtain ⟨rows, hrows, hcount⟩ := hshaped.rows hret entry hentry
    rw [hown, Option.some.injEq] at hrows
    rw [hrows, hcount]
  refine ⟨hown, hshaped.top entry hentry, hshaped.tokenIds entry hentry, h.asks result hmem entry hentry, hcount,
    fun hret hpos => ?_, harrived, fun hask => ?_⟩
  · cases hflat : result.inputTokenLogprobs with
    | some flat => exact ⟨flat, rfl⟩
    | none =>
      rw [hflat] at hown
      rw [← hcount hret, ownRows_nil hown] at hpos
      exact absurd hpos (lt_irrefl 0)
  · rw [← pendingRows_cons hown, ← hqueue]
    exact h.reqs entry.rid harrived hask

/-- The result at the head of the queue is processed. -/
theorem LogprobInv.processResult (h : LogprobInv server s) {result : PrefillResult α τ υ}
    {rest : List (PrefillResult α τ υ)} (hqueue : s.resultQueue = result :: rest)
    (hkept : NoRowsSkipped server s.reqs result.entries) :
    ∃ reqs, server.processBatchResultPrefill result s.reqs = some reqs ∧
      LogprobInv server { s with reqs, resultQueue := rest } := by
  have hsub : ∀ other ∈ rest, other ∈ s.resultQueue := by
    rw [hqueue]
    exact fun other => List.mem_cons_of_mem _
  have hmem : result ∈ s.resultQueue := by
    rw [hqueue]
    exact List.mem_cons_self
  obtain ⟨reqs, hrun, hframe, hall⟩ := processEntries_keeps s.stage (oldestRows result)
    (pendingRows · rest) result.entries 0 (result.inputTokenLogprobs.getD []) s.reqs
    (h.shaped result hmem).nodup (fun _ entry hentry => (h.entryReady hqueue hentry).1)
    (fun entry hentry => (h.entryReady hqueue hentry).2) hkept (.inl rfl)
  have hparams : ∀ rid, (reqs rid).toLogprobParams = (s.reqs rid).toLogprobParams := by
    intro rid
    by_cases hin : rid ∈ result.entries.map (·.rid)
    · obtain ⟨entry, hentry, rfl⟩ := List.mem_map.mp hin
      exact (hall entry hentry).1
    · rw [hframe rid hin]
  refine ⟨reqs, hrun, fun other hother => h.shaped other (hsub other hother), fun other hother entry hentry => ?_,
    fun rid habsent => ?_, fun rid hstage hask => ?_⟩
  · simp only [hparams]
    exact h.asks other (hsub other hother) entry hentry
  · have hnone := h.absent rid habsent
    rw [hqueue, pendingRows_cons_of_notMem] at hnone
    · exact hnone
    · intro hin
      obtain ⟨entry, hentry, rfl⟩ := List.mem_map.mp hin
      exact h.arrived hmem hentry habsent
  · rw [hparams] at hask
    by_cases hin : rid ∈ result.entries.map (·.rid)
    · obtain ⟨entry, hentry, rfl⟩ := List.mem_map.mp hin
      exact (hall entry hentry).2 hask
    · have hinv := h.reqs rid hstage hask
      rw [hqueue, pendingRows_cons_of_notMem hin] at hinv
      simp only [hframe rid hin]
      exact hinv

theorem logprobInv_step {s' : LogprobScheduler α τ υ} {label : LogprobStep} (h : LogprobInv server s)
    (hkept : LogprobsKept server s label) (hstep : (LogprobScheduler.machine server).step label s = some s') :
    LogprobInv server s' := by
  cases label with
  | arrive rid params aborted =>
    obtain ⟨⟨habsent, haccepted⟩, heq⟩ := Option.ite_none_right_eq_some.mp hstep
    cases heq
    exact h.arrive habsent haccepted
  | launch choices =>
    obtain ⟨⟨hnodup, hadmissible⟩, heq⟩ := Option.ite_none_right_eq_some.mp hstep
    cases heq
    exact h.launch hnodup hadmissible
  | processResult =>
    cases hqueue : s.resultQueue with
    | nil =>
      simp only [LogprobScheduler.machine, hqueue] at hstep
      cases hstep
    | cons result rest =>
      obtain ⟨reqs, hrun, hinv⟩ := h.processResult hqueue (hkept result (by rw [hqueue]; rfl))
      simp only [LogprobScheduler.machine, hqueue, hrun, Option.map_some, Option.some.injEq] at hstep
      exact hstep ▸ hinv
  | retract rid =>
    obtain ⟨hstage, heq⟩ := Option.ite_none_right_eq_some.mp hstep
    cases heq
    exact h.retract hstage hkept
  | decode rid token =>
    obtain ⟨⟨hstage, houtputs⟩, heq⟩ := Option.ite_none_right_eq_some.mp hstep
    cases heq
    exact h.decode hstage houtputs

end Steps

/-! ## Runs -/

/-- In every run that keeps the logprobs, the input logprobs of a prefilled prompt are those of its rows, and
no assertion fails on the next result. -/
theorem input_logprobs_right (server : LogprobServer α τ υ) (s : LogprobScheduler α τ υ)
    (h : (LogprobScheduler.machine server).Reach (LogprobsKept server) LogprobScheduler.Initial s) :
    (∀ rid, s.stage rid ≠ .absent → InputLogprobsRight server (s.reqs rid)) ∧
      (s.resultQueue ≠ [] → LogprobsKept server s .processResult →
        ((LogprobScheduler.machine server).step .processResult s).isSome = true) := by
  have hinv : LogprobInv server s :=
    h.invariant (fun _ => LogprobInv.initial) fun _ _ _ hinv hkept hstep => logprobInv_step hinv hkept hstep
  refine ⟨fun rid hstage hask => (hinv.reqs rid hstage hask).right hask, fun hne hkept => ?_⟩
  cases hqueue : s.resultQueue with
  | nil => exact absurd hqueue hne
  | cons result rest =>
    obtain ⟨reqs, hrun, -⟩ := hinv.processResult hqueue (hkept result (by rw [hqueue]; rfl))
    simp only [LogprobScheduler.machine, hqueue, hrun, Option.map_some, Option.isSome_some]

/-- A server whose logprobs show what they are of. -/
def pairServer : LogprobServer (List Nat × Nat) Unit Unit where
  enableOverlap := true
  isMixedChunk := false
  vocabSize := 100
  logprob := Prod.mk
  topLogprobs := fun _ _ => ()
  tokenIdsLogprobs := fun _ _ => ()

def noRequests : LogprobScheduler (List Nat × Nat) Unit Unit where
  reqs := fun _ => .new ⟨[], false, 0, 0, none, false⟩ false
  stage := fun _ => .absent
  resultQueue := []

theorem noRequests_initial : noRequests.Initial := ⟨rfl, fun _ => rfl⟩

/-- A prompt prefilled in two chunks beside another request, and again after a retraction. -/
def twoChunksRun : List LogprobStep :=
  [.arrive 0 ⟨[5, 6, 7, 8], true, 1, 1, some [9], false⟩ false,
    .arrive 1 ⟨[3, 4], false, 1, 0, none, false⟩ false,
    .launch [⟨1, 0, none, 20, false⟩, ⟨0, 0, some 2, 21, false⟩], .launch [⟨0, 2, none, 22, false⟩],
    .processResult, .processResult, .decode 0 23, .retract 0, .launch [⟨0, 0, none, 24, false⟩], .processResult]

theorem input_logprobs_right_twoChunks : ∃ s, (LogprobScheduler.machine pairServer).guardedRun
      (LogprobsKept pairServer) twoChunksRun noRequests = some s ∧
    InputLogprobsRight pairServer (s.reqs 0) ∧
    (s.reqs 0).inputTokenLogprobsVal = some [none, some ([5, 6], 7), some ([5, 6, 7], 8)] := by
  have hrun : ((LogprobScheduler.machine pairServer).guardedRun
      (LogprobsKept pairServer) twoChunksRun noRequests).isSome = true := by decide
  obtain ⟨s, hs⟩ := Option.isSome_iff_exists.mp hrun
  have hstage : s.stage 0 = .running := by
    have h : ((LogprobScheduler.machine pairServer).guardedRun (LogprobsKept pairServer) twoChunksRun
      noRequests).map (·.stage 0) = some .running := by decide
    rw [hs] at h
    exact Option.some.inj h
  have hval : ((LogprobScheduler.machine pairServer).guardedRun (LogprobsKept pairServer) twoChunksRun
      noRequests).map (fun s => (s.reqs 0).inputTokenLogprobsVal) =
        some (some [none, some ([5, 6], 7), some ([5, 6, 7], 8)]) := by decide
  rw [hs] at hval
  have hreach := (Machine.Reach.start noRequests_initial).of_guardedRun hs
  refine ⟨s, hs, (input_logprobs_right pairServer s hreach).1 0 ?_, Option.some.inj hval⟩
  rw [hstage]
  exact LogprobStage.noConfusion

/-- A request is retracted before the result of its prefill is processed. -/
def retractedAheadRun : List LogprobStep :=
  [.arrive 0 ⟨[1, 2], false, 1, 0, none, false⟩ false, .arrive 1 ⟨[3, 4, 5], true, 0, 0, none, false⟩ false,
    .launch [⟨0, 0, none, 20, false⟩, ⟨1, 0, none, 21, false⟩], .retract 0, .processResult]

/-- The next request of its batch reads its rows. -/
theorem retraction_shifts_logprobs : ¬ ∀ s,
    (LogprobScheduler.machine pairServer).Reach (fun _ _ => True) LogprobScheduler.Initial s →
      ∀ rid, s.stage rid ≠ .absent → InputLogprobsRight pairServer (s.reqs rid) := by
  intro h
  have hrun : ((LogprobScheduler.machine pairServer).run retractedAheadRun noRequests).isSome = true := by decide
  obtain ⟨s, hs⟩ := Option.isSome_iff_exists.mp hrun
  have hfacts : ∀ s ∈ (LogprobScheduler.machine pairServer).run retractedAheadRun noRequests,
      s.stage 1 = .running ∧ (s.reqs 1).returnLogprob = true ∧ (s.reqs 1).outputIds = [21] ∧
        (s.reqs 1).inputTokenLogprobsVal = some [none, some ([1, 2], 0), some ([3], 4)] ∧
        (s.reqs 1).originInputIds = [3, 4, 5] ∧ (s.reqs 1).logprobStartLen = 0 := by decide
  obtain ⟨hstage, hask, houtputs, hval, hids, hstart⟩ := hfacts s hs
  have hright := h s (.of_run (fun _ _ _ => trivial) (.start noRequests_initial) hs) 1
    (by rw [hstage]; exact LogprobStage.noConfusion) hask (by rw [houtputs]; exact List.cons_ne_nil _ _)
  obtain ⟨vals, hvals, -, -, hall⟩ := hright
  rw [hval, Option.some.injEq] at hvals
  have hone := hall 0 (by rw [hids]; decide) (by rw [hstart])
  rw [hstart, ← hvals] at hone
  have hrow : [1, 2] = (s.reqs 1).originInputIds.take 1 := congrArg Prod.fst (Option.some.inj (Option.some.inj hone))
  rw [hids] at hrow
  exact absurd hrow (by decide)

-- retracted with the logprobs of its first chunk, a request fails an assertion when it is prefilled again
example : ((LogprobScheduler.machine pairServer).run
    [.arrive 0 ⟨[5, 6, 7, 8], true, 0, 0, some [9], false⟩ false, .launch [⟨0, 0, some 2, 20, false⟩],
      .launch [⟨0, 2, none, 21, false⟩], .processResult, .retract 0, .processResult,
      .launch [⟨0, 0, none, 22, false⟩], .processResult] noRequests).isNone = true := by decide

end QCFuse.Guarantees
