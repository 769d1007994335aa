import Mathlib.Data.Rat.Defs

/-!
# Responses of one request

The part of `_handle_batch_output` that one entry of a message runs through, and the generator
`_wait_one_response` that takes what it leaves. Log probabilities are not modelled here, nor are
metrics and dumps.
-/

set_option autoImplicit false

namespace QCFuse.Source

/-- A finish reason as it is sent. -/
structure FinishReason where
  type : String
  message : String
  statusCode : Option Nat
  deriving DecidableEq, Repr

/-- What an entry of a message holds beside the counts. -/
inductive OutputBody where
  | str (outputStr : String) (outputIds : List Int)
  | tokenIds (outputIds : List Int)
  | multimodal
  | embedding (embedding : List Rat)
  deriving DecidableEq

/-- One entry of `BatchStrOutput`, `BatchTokenIDOutput`, `BatchMultimodalOutput` or
`BatchEmbeddingOutput`. -/
structure RecvOutput where
  finishedReason : Option FinishReason
  promptTokens : Nat
  completionTokens : Nat
  cachedTokens : Nat
  outputHiddenStates : Option (List Rat)
  body : OutputBody
  deriving DecidableEq

structure OutMetaInfo where
  id : String
  finishReason : Option FinishReason
  promptTokens : Nat
  weightVersion : String
  completionTokens : Option Nat
  cachedTokens : Option Nat
  hiddenStates : Option (List Rat)
  deriving DecidableEq

/-- `out_dict`. -/
structure OutDict where
  text : Option String
  outputIds : List Int
  embedding : Option (List Rat)
  metaInfo : OutMetaInfo
  deriving DecidableEq

structure ServerOutputArgs where
  streamOutput : Bool
  weightVersion : String

/-- `ReqState`. -/
structure ReqState where
  rid : String
  stream : Bool
  outList : List OutDict
  finished : Bool
  event : Bool
  text : String
  outputIds : List Int
  lastOutputOffset : Nat

namespace ReqState

def new (rid : String) (stream : Bool) : ReqState := ⟨rid, stream, [], false, false, "", [], 0⟩

def metaInfo (state : ReqState) (args : ServerOutputArgs) (recv : RecvOutput) : OutMetaInfo where
  id := state.rid
  finishReason := recv.finishedReason
  promptTokens := recv.promptTokens
  weightVersion := args.weightVersion
  completionTokens := match recv.body with
    | .embedding _ => none
    | _ => some recv.completionTokens
  cachedTokens := match recv.body with
    | .embedding _ => none
    | _ => some recv.cachedTokens
  hiddenStates := recv.outputHiddenStates

/-- The new token ids, or all of them, and the state that knows them. -/
def takeOutputIds (state : ReqState) (incremental : Bool) (outputIds : List Int) : List Int × ReqState :=
  let outputIds := state.outputIds ++ outputIds
  if incremental then
    (outputIds.drop state.lastOutputOffset,
      { state with outputIds := outputIds, lastOutputOffset := outputIds.length })
  else (outputIds, { state with outputIds := outputIds })

/-- `out_dict`; a `BatchMultimodalOutput` raises `NotImplementedError`. -/
def outDict (state : ReqState) (args : ServerOutputArgs) (recv : RecvOutput) : Option (OutDict × ReqState) :=
  let metaInfo := state.metaInfo args recv
  match recv.body with
  | .str outputStr outputIds =>
    let state := { state with text := state.text ++ outputStr }
    let (outputTokenIds, state) := state.takeOutputIds state.stream outputIds
    some (⟨some state.text, outputTokenIds, none, metaInfo⟩, state)
  | .tokenIds outputIds =>
    let (outputTokenIds, state) := state.takeOutputIds (args.streamOutput && state.stream) outputIds
    some (⟨none, outputTokenIds, none, metaInfo⟩, state)
  | .multimodal => none
  | .embedding embedding => some (⟨none, [], some embedding, metaInfo⟩, state)

/-- One turn of the loop of `_handle_batch_output`. -/
def handleBatchOutput (state : ReqState) (args : ServerOutputArgs) (recv : RecvOutput) : Option ReqState :=
  (state.outDict args recv).map fun (out, state) =>
    { state with finished := recv.finishedReason.isSome, outList := state.outList ++ [out], event := true }

end ReqState

inductive ResponseFailure where
  | valueError (message : String)
  | httpException (statusCode : Nat) (detail : String)
  | indexError
  deriving DecidableEq, Repr

/-- An abort or an error made by the scheduler is answered by an exception. -/
def FinishReason.failure (reason : FinishReason) : Option ResponseFailure :=
  if reason.type = "abort" then
    match reason.statusCode with
    | some 400 => some (.valueError reason.message)
    | some 503 => some (.httpException 503 reason.message)
    | some 500 => some (.httpException 500 reason.message)
    | _ => none
  else none

/-- Where the generator is. -/
inductive ResponseConsumer where
  | waiting
  | yielded
  | lastYielded
  | stopped
  | raised (failure : ResponseFailure)
  deriving DecidableEq, Repr

/-- A request with its generator: whether `rid_to_state` has it, the entries handled so far, how
many of them were there when the generator last ran, and its chunks with that number. -/
structure ResponseStream where
  known : Bool
  state : ReqState
  consumer : ResponseConsumer
  received : List RecvOutput
  consumed : Nat
  chunks : List (OutDict × Nat)

namespace ResponseStream

def new (rid : String) (stream : Bool) : ResponseStream := ⟨true, .new rid stream, .waiting, [], 0, []⟩

/-- An entry for the request arrives; its state is deleted when it is finished. -/
def deliver (s : ResponseStream) (args : ServerOutputArgs) (recv : RecvOutput) : Option ResponseStream :=
  if s.known then
    (s.state.handleBatchOutput args recv).map fun state =>
      { s with known := recv.finishedReason.isNone, state := state, received := s.received ++ [recv] }
  else some s

/-- The generator from `state.event.wait()` to its next suspension. -/
def wake (s : ResponseStream) : Option ResponseStream :=
  if s.consumer = .waiting ∧ s.state.event then
    match s.state.outList.getLast? with
    | none => some { s with consumer := .raised .indexError }
    | some out =>
      let taken := { s with state := { s.state with outList := [] }, consumed := s.received.length }
      if s.state.finished then
        match out.metaInfo.finishReason.bind FinishReason.failure with
        | some failure => some { taken with consumer := .raised failure }
        | none => some { taken with consumer := .lastYielded, chunks := s.chunks ++ [(out, s.received.length)] }
      else
        let taken := { taken with state := { taken.state with event := false } }
        if s.state.stream then
          some { taken with consumer := .yielded, chunks := s.chunks ++ [(out, s.received.length)] }
        else some taken
  else none

/-- The wait times out; the client may be gone. -/
def timeout (s : ResponseStream) (disconnected : Bool) : Option ResponseStream :=
  if s.consumer = .waiting then
    if disconnected then
      some { s with consumer := .raised (.valueError
        "Request is disconnected from the client side (type 1). Abort request") }
    else some s
  else none

/-- The caller asks for the next chunk. -/
def next (s : ResponseStream) : Option ResponseStream :=
  match s.consumer with
  | .yielded => some { s with consumer := .waiting }
  | .lastYielded => some { s with consumer := .stopped }
  | _ => none

end ResponseStream

end QCFuse.Source
