import QCFuse.Library.Slices
import QCFuse.Library.Transition

/-!
# Input logprobs across the scheduler's rounds

`prepare_for_extend` and `process_batch_result_prefill` with the logprob coordinates they share, and the
steps of a scheduler around them. An assertion that fails is `none`. The `_val` and `_idx` lists that are
always written together are one list of pairs; multi-item scoring is off.
-/

set_option autoImplicit false

namespace QCFuse.Source

open QCFuse.Library

/-- What a request asks for. -/
structure LogprobParams where
  originInputIds : List Nat
  returnLogprob : Bool
  logprobStartLen : Nat
  topLogprobsNum : Nat
  tokenIdsLogprob : Option (List Nat)
  isPrefillOnly : Bool
  deriving DecidableEq

/-- `α` is a logprob, `τ` what a row has of its top tokens, `υ` what it has of the requested token ids. -/
structure LogprobReq (α τ υ : Type) extends LogprobParams where
  outputIds : List Nat
  /-- `len(prefix_indices)`. -/
  prefixLen : Nat
  fillIds : List Nat
  extendInputLen : Nat
  extendLogprobStartLen : Nat
  isChunked : Nat
  isRetracted : Bool
  finished : Bool
  inputTokenLogprobs : Option (List α)
  tempInputTopLogprobs : Option (List (List τ))
  tempInputTokenIdsLogprobs : Option (List (List υ))
  inputTokenLogprobsVal : Option (List (Option α))
  inputTokenLogprobsIdx : Option (List Nat)
  inputTopLogprobs : Option (List (Option τ))
  inputTokenIdsLogprobs : Option (List (Option υ))

/-- The settings of the scheduler, and the scores of a row: of a token, of the first `k` tokens and of given
tokens, after the tokens of the row. -/
structure LogprobServer (α τ υ : Type) where
  enableOverlap : Bool
  isMixedChunk : Bool
  vocabSize : Nat
  logprob : List Nat → Nat → α
  topLogprobs : List Nat → Nat → τ
  tokenIdsLogprobs : List Nat → List Nat → υ

/-- A request of a new prefill batch: the prefix it hits or continues, the length it is cut to, and what the
forward pass samples for it. -/
structure PrefillChoice where
  rid : Nat
  prefixLen : Nat
  truncLen : Option Nat
  nextTokenId : Nat
  /-- `check_finished()` after that token. -/
  finishes : Bool

/-- A request of a launched batch with its places in the lists of the result. -/
structure PrefillEntry (τ υ : Type) where
  rid : Nat
  nextTokenId : Nat
  finishes : Bool
  extendInputLen : Nat
  extendLogprobStartLen : Nat
  inputTopLogprobs : List τ
  inputTokenIdsLogprobs : List υ

/-- `_calculate_num_input_logprobs`. -/
def PrefillEntry.numInputLogprobs {τ υ : Type} (entry : PrefillEntry τ υ) : Nat :=
  entry.extendInputLen - entry.extendLogprobStartLen

structure PrefillResult (α τ υ : Type) where
  returnLogprob : Bool
  entries : List (PrefillEntry τ υ)
  inputTokenLogprobs : Option (List α)

namespace LogprobReq

variable {α τ υ : Type} (req : LogprobReq α τ υ)

/-- `Req(...)`, finished where it was aborted on its way in. -/
def new (params : LogprobParams) (finished : Bool) : LogprobReq α τ υ :=
  { params with
    outputIds := [], prefixLen := 0, fillIds := [], extendInputLen := 0, extendLogprobStartLen := 0
    isChunked := 0, isRetracted := false, finished
    inputTokenLogprobs := none, tempInputTopLogprobs := none, tempInputTokenIdsLogprobs := none
    inputTokenLogprobsVal := none, inputTokenLogprobsIdx := none, inputTopLogprobs := none
    inputTokenIdsLogprobs := none }

def seqlen : Nat := req.originInputIds.length + req.outputIds.length

/-- The most `init_next_round_input` takes from the cache. -/
def maxPrefixLen : Nat :=
  if req.returnLogprob then min (req.seqlen - 1) req.logprobStartLen else req.seqlen - 1

/-- `init_next_round_input`, and the cut of `add_chunked_req` or `add_one_req`. -/
def nextRoundInput (choice : PrefillChoice) : LogprobReq α τ υ :=
  let fillIds := req.originInputIds ++ req.outputIds
  match choice.truncLen with
  | none =>
    { req with prefixLen := choice.prefixLen, fillIds, extendInputLen := fillIds.length - choice.prefixLen }
  | some truncLen =>
    { req with
      prefixLen := choice.prefixLen
      fillIds := fillIds.take (choice.prefixLen + truncLen)
      extendInputLen := truncLen
      isChunked := req.isChunked + 1 }

/-- The part of `prepare_for_extend` about one request. -/
def prepareForExtend (isPrefillOnly : Bool) : LogprobReq α τ υ :=
  { req with
    isRetracted := false
    extendLogprobStartLen :=
      if req.prefixLen ≤ req.logprobStartLen then
        if isPrefillOnly = true ∧ req.logprobStartLen = req.originInputIds.length then req.extendInputLen
        else min (min (req.logprobStartLen - req.prefixLen) req.extendInputLen) (req.seqlen - 1)
      else 0 }

/-- What a request adds to `extend_input_logprob_token_ids`. -/
def extendInputLogprobTokenIds : List Nat :=
  let globalStartIdx := max req.prefixLen req.logprobStartLen
  let logprobTokenIds := (req.originInputIds.take (req.fillIds.length + 1)).drop (globalStartIdx + 1)
  logprobTokenIds ++
    List.replicate (req.extendInputLen - req.extendLogprobStartLen - logprobTokenIds.length) 0

/-- The rows the logits processor scores for a request, each by the tokens up to it. -/
def inputRows : List (List Nat) :=
  (List.range' req.extendLogprobStartLen (req.extendInputLen - req.extendLogprobStartLen)).map fun i =>
    req.fillIds.take (req.prefixLen + i + 1)

def launched (server : LogprobServer α τ υ) (choice : PrefillChoice) : PrefillEntry τ υ where
  rid := choice.rid
  nextTokenId := choice.nextTokenId
  finishes := choice.finishes
  extendInputLen := req.extendInputLen
  extendLogprobStartLen := req.extendLogprobStartLen
  inputTopLogprobs := req.inputRows.map fun row => server.topLogprobs row req.topLogprobsNum
  inputTokenIdsLogprobs := req.inputRows.map fun row =>
    server.tokenIdsLogprobs row (req.tokenIdsLogprob.getD [])

/-- `_calculate_relevant_tokens_len`; `none` where it would be negative. -/
def relevantTokensLen : Option Nat :=
  if req.logprobStartLen ≤ req.originInputIds.length then
    some (req.originInputIds.length - req.logprobStartLen)
  else none

/-- The empty lists that `add_input_logprob_return_values` starts from. -/
def startCollecting : LogprobReq α τ υ :=
  { req with
    inputTokenLogprobs := some (req.inputTokenLogprobs.getD [])
    tempInputTopLogprobs := some (req.tempInputTopLogprobs.getD [])
    tempInputTokenIdsLogprobs := some (req.tempInputTokenIdsLogprobs.getD []) }

/-- What one prefill batch adds to the lists. -/
def collect (inputTokenLogprobs : List α) (entry : PrefillEntry τ υ) : LogprobReq α τ υ :=
  { req with
    inputTokenLogprobs := some (req.inputTokenLogprobs.getD [] ++ inputTokenLogprobs)
    tempInputTopLogprobs :=
      if 0 < req.topLogprobsNum then some (req.tempInputTopLogprobs.getD [] ++ [entry.inputTopLogprobs])
      else req.tempInputTopLogprobs
    tempInputTokenIdsLogprobs :=
      if req.tokenIdsLogprob.isSome then
        some (req.tempInputTokenIdsLogprobs.getD [] ++ [entry.inputTokenIdsLogprobs])
      else req.tempInputTokenIdsLogprobs }

/-- `_process_input_token_logprobs`. -/
def processInputTokenLogprobs (vocabSize : Nat) (inputTokenLogprobs : List α) : LogprobReq α τ υ :=
  { req with
    inputTokenLogprobsVal := some (none :: inputTokenLogprobs.dropLast.map some)
    inputTokenLogprobsIdx := some <| (req.originInputIds.drop req.logprobStartLen).map fun x =>
      if x + 1 < vocabSize then x else 0 }

/-- `_process_input_top_logprobs`. -/
def processInputTopLogprobs : LogprobReq α τ υ :=
  if req.topLogprobsNum = 0 then req
  else { req with
    inputTopLogprobs := some (none :: (req.tempInputTopLogprobs.getD []).flatten.map some).dropLast
    tempInputTopLogprobs := none }

/-- `_process_input_token_ids_logprobs`. -/
def processInputTokenIdsLogprobs : LogprobReq α τ υ :=
  if req.tokenIdsLogprob.isNone then req
  else { req with
    inputTokenIdsLogprobs :=
      some (none :: (req.tempInputTokenIdsLogprobs.getD []).flatten.map some).dropLast
    tempInputTokenIdsLogprobs := none }

/-- The assertions on the lengths. -/
def lengthsAsserted : Bool :=
  req.inputTokenLogprobsVal.map List.length == req.relevantTokensLen &&
    req.inputTokenLogprobsIdx.map List.length == req.relevantTokensLen &&
    (req.topLogprobsNum == 0 || req.inputTopLogprobs.map List.length == req.relevantTokensLen) &&
    (req.tokenIdsLogprob.isNone || req.inputTokenIdsLogprobs.map List.length == req.relevantTokensLen)

/-- `add_input_logprob_return_values`, for a request that asks for logprobs. -/
def addInputLogprobReturnValues (server : LogprobServer α τ υ) (output : Option (List α)) (logprobPt : Nat)
    (entry : PrefillEntry τ υ) (lastPrefillChunk : Bool) : Option (LogprobReq α τ υ) :=
  match output with
  | none => none
  | some inputTokenLogprobs =>
    let req := req.startCollecting
    if req.inputTokenLogprobsVal.isSome then some req
    else
      let req := req.collect (slice inputTokenLogprobs logprobPt entry.numInputLogprobs) entry
      if lastPrefillChunk then
        let inputTokenLogprobs := req.inputTokenLogprobs.getD []
        let req := { req with inputTokenLogprobs := none }
        if req.inputTokenLogprobsIdx.isSome ∨ req.inputTopLogprobs.isSome then none
        else
          let req := ((req.processInputTokenLogprobs server.vocabSize inputTokenLogprobs).processInputTopLogprobs
            ).processInputTokenIdsLogprobs
          if req.lengthsAsserted then some req else none
      else some req

/-- `_initialize_empty_logprob_containers`. -/
def initializeEmptyLogprobContainers : LogprobReq α τ υ :=
  { req with
    inputTokenLogprobsVal := some (req.inputTokenLogprobsVal.getD [])
    inputTokenLogprobsIdx := some (req.inputTokenLogprobsIdx.getD [])
    inputTopLogprobs := some (req.inputTopLogprobs.getD [])
    inputTokenIdsLogprobs := some (req.inputTokenIdsLogprobs.getD []) }

/-- `add_logprob_return_values`. -/
def addLogprobReturnValues (server : LogprobServer α τ υ) (output : Option (List α)) (pt : Nat)
    (entry : PrefillEntry τ υ) : Option (LogprobReq α τ υ) :=
  if 0 < entry.numInputLogprobs then req.addInputLogprobReturnValues server output pt entry true
  else some req.initializeEmptyLogprobContainers

/-- `reset_for_retract`. -/
def retract : LogprobReq α τ υ :=
  { req with
    prefixLen := 0
    extendInputLen := 0
    isRetracted := true
    inputTokenLogprobs := none
    tempInputTopLogprobs := none
    extendLogprobStartLen := 0
    isChunked := 0 }

end LogprobReq

section Batches

variable {α τ υ : Type} (server : LogprobServer α τ υ)

/-- `prepare_for_extend` and the forward pass of a new batch. -/
def LogprobServer.launch (reqs : Nat → LogprobReq α τ υ) (choices : List PrefillChoice) :
    (Nat → LogprobReq α τ υ) × PrefillResult α τ υ :=
  let isPrefillOnly := choices.all fun c => (reqs c.rid).isPrefillOnly
  let returnLogprob := choices.any fun c => (reqs c.rid).returnLogprob
  let prepared := fun c => ((reqs c.rid).nextRoundInput c).prepareForExtend isPrefillOnly
  let batch := choices.map prepared
  let extendReturnLogprob := batch.any fun req => req.extendLogprobStartLen < req.extendInputLen
  (fun rid => match choices.find? fun c => c.rid == rid with
    | some c => prepared c
    | none => reqs rid,
  { returnLogprob
    entries := choices.map fun c => (prepared c).launched server c
    inputTokenLogprobs :=
      if returnLogprob ∧ extendReturnLogprob then
        some (List.zipWith server.logprob (batch.flatMap (·.inputRows))
          (batch.flatMap (·.extendInputLogprobTokenIds)))
      else none })

/-- Whether `process_batch_result_prefill` goes on to the next request. -/
def LogprobServer.skips (req : LogprobReq α τ υ) : Bool :=
  (server.enableOverlap && req.isRetracted && !req.outputIds.isEmpty) ||
    (server.isMixedChunk && server.enableOverlap && (req.finished || req.isRetracted)) ||
    req.isRetracted

/-- One request of `process_batch_result_prefill`, and how far it moves `logprob_pt`. -/
def LogprobServer.processEntry (result : PrefillResult α τ υ) (logprobPt : Nat) (entry : PrefillEntry τ υ)
    (req : LogprobReq α τ υ) : Option (LogprobReq α τ υ × Nat) :=
  if server.skips req then some (req, 0)
  else if req.isChunked = 0 then
    let req := { req with
      outputIds := req.outputIds ++ [entry.nextTokenId]
      finished := req.finished || entry.finishes }
    if result.returnLogprob then
      if req.returnLogprob then
        (req.addLogprobReturnValues server result.inputTokenLogprobs logprobPt entry).map
          fun req => (req, entry.numInputLogprobs)
      else some (req, entry.numInputLogprobs)
    else some (req, 0)
  else
    let req := { req with isChunked := req.isChunked - 1 }
    if result.returnLogprob ∧ entry.extendLogprobStartLen < entry.extendInputLen then
      if req.returnLogprob then
        (req.addInputLogprobReturnValues server result.inputTokenLogprobs logprobPt entry false).map
          fun req => (req, entry.numInputLogprobs)
      else some (req, entry.numInputLogprobs)
    else some (req, 0)

/-- The loop of `process_batch_result_prefill`. -/
def LogprobServer.processEntries (result : PrefillResult α τ υ) :
    Nat → List (PrefillEntry τ υ) → (Nat → LogprobReq α τ υ) → Option (Nat → LogprobReq α τ υ)
  | _, [], reqs => some reqs
  | logprobPt, entry :: entries, reqs =>
    (server.processEntry result logprobPt entry (reqs entry.rid)).bind fun (req, moved) =>
      LogprobServer.processEntries result (logprobPt + moved) entries (Function.update reqs entry.rid req)

def LogprobServer.processBatchResultPrefill (result : PrefillResult α τ υ)
    (reqs : Nat → LogprobReq α τ υ) : Option (Nat → LogprobReq α τ υ) :=
  server.processEntries result 0 result.entries reqs

end Batches

/-! ## The scheduler around them -/

/-- Where the scheduler has a request: nowhere yet, in the waiting queue, as the chunked request, or in a
running batch. -/
inductive LogprobStage where
  | absent
  | waiting
  | chunked
  | running
  deriving DecidableEq

structure LogprobScheduler (α τ υ : Type) where
  reqs : Nat → LogprobReq α τ υ
  stage : Nat → LogprobStage
  /-- Launched batches whose result is not processed, the oldest first. -/
  resultQueue : List (PrefillResult α τ υ)

inductive LogprobStep where
  | arrive (rid : Nat) (params : LogprobParams) (aborted : Bool)
  | launch (choices : List PrefillChoice)
  | processResult
  | retract (rid : Nat)
  | decode (rid : Nat) (token : Nat)

namespace LogprobScheduler

variable {α τ υ : Type} (s : LogprobScheduler α τ υ)

def inFlight (rid : Nat) : Bool :=
  s.resultQueue.any fun result => result.entries.any fun entry => entry.rid == rid

/-- A choice the scheduler can make: a waiting request with what it hits in the cache, which no result is
outstanding for, or the next chunk of the chunked request; whole, or cut before its end. -/
def Admissible (choice : PrefillChoice) : Prop :=
  (s.stage choice.rid = .waiting ∧ choice.prefixLen ≤ (s.reqs choice.rid).maxPrefixLen ∧
      s.inFlight choice.rid = false ∨
    s.stage choice.rid = .chunked ∧ choice.prefixLen = (s.reqs choice.rid).fillIds.length) ∧
  ∀ truncLen ∈ choice.truncLen, 0 < truncLen ∧ choice.prefixLen + truncLen < (s.reqs choice.rid).seqlen

instance (choice : PrefillChoice) : Decidable (s.Admissible choice) :=
  inferInstanceAs (Decidable ((_ ∧ _ ∧ _ ∨ _ ∧ _) ∧
    ∀ truncLen ∈ choice.truncLen, 0 < truncLen ∧ choice.prefixLen + truncLen < (s.reqs choice.rid).seqlen))

/-- A request as `handle_generate_request` accepts it; an aborted one asks for no logprobs. -/
def Accepted (params : LogprobParams) (aborted : Bool) : Prop :=
  params.originInputIds ≠ [] ∧ (params.returnLogprob = true →
    params.logprobStartLen < params.originInputIds.length ∧ aborted = false)

instance (params : LogprobParams) (aborted : Bool) : Decidable (Accepted params aborted) :=
  inferInstanceAs (Decidable (_ ∧ (_ → _ ∧ _)))

/-- A step of the scheduler; an assertion that fails stops it. -/
def machine (server : LogprobServer α τ υ) : Machine (LogprobScheduler α τ υ) LogprobStep where
  step
    | .arrive rid params aborted, s =>
      if s.stage rid = .absent ∧ Accepted params aborted then
        some { s with
          reqs := Function.update s.reqs rid (.new params aborted)
          stage := Function.update s.stage rid .waiting }
      else none
    | .launch choices, s =>
      if (choices.map (·.rid)).Nodup ∧ ∀ c ∈ choices, s.Admissible c then
        let (reqs, result) := server.launch s.reqs choices
        some {
          reqs
          stage := fun rid => match choices.find? fun c => c.rid == rid with
            | some c => if c.truncLen.isSome then .chunked else .running
            | none => s.stage rid
          resultQueue := s.resultQueue ++ [result] }
      else none
    | .processResult, s =>
      match s.resultQueue with
      | [] => none
      | result :: rest =>
        (server.processBatchResultPrefill result s.reqs).map fun reqs =>
          { s with reqs, resultQueue := rest }
    | .retract rid, s =>
      if s.stage rid = .running then
        some { s with
          reqs := Function.update s.reqs rid (s.reqs rid).retract
          stage := Function.update s.stage rid .waiting }
      else none
    | .decode rid token, s =>
      if s.stage rid = .running ∧ (s.reqs rid).outputIds ≠ [] then
        some { s with
          reqs := Function.update s.reqs rid
            { s.reqs rid with outputIds := (s.reqs rid).outputIds ++ [token] } }
      else none

/-- No request has arrived. -/
def Initial : Prop := s.resultQueue = [] ∧ ∀ rid, s.stage rid = .absent

end LogprobScheduler

end QCFuse.Source
