import QCFuse.Source.Python

/-!
# `Req.check_finished`

When a request ends as tokens are accepted, and how much of its output counts. A set is the list of its
members in the order it is iterated; `re.search` is a parameter.
-/

set_option autoImplicit false

namespace QCFuse.Source

abbrev Text := List Char

structure ReqTokenizer where
  encode : Text → List Int
  decode : List Int → Text
  eosTokenId : Option Int
  additionalStopTokenIds : List Int

/-- The fields of `SamplingParams` that `check_finished` reads, normalized. -/
structure StopParams (R : Type) where
  maxNewTokens : Nat
  stopTokenIds : List Int
  ignoreEos : Bool
  stopStrs : List Text
  stopStrMaxLen : Nat
  stopRegexStrs : List R
  stopRegexMaxLen : Nat

inductive StopReason (R : Type) where
  | matchedToken (matched : Int)
  | matchedStr (matched : Text)
  | matchedRegex (matched : R)
  | length (length : Nat)
  | abort (message : Option String)

/-- What `check_finished` reads and writes of a request. -/
structure StopReq (R : Type) where
  samplingParams : StopParams R
  outputIds : List Int
  decodedText : Text
  vocabSize : Nat
  eosTokenIds : List Int
  tokenizer : Option ReqTokenizer
  /-- `grammar.is_terminated()`, where there is a grammar. -/
  grammar : Option Bool
  toAbort : Bool
  toAbortMessage : Option String
  finishedReason : Option (StopReason R)
  finishedLen : Option Nat

/-- `xs[-n:]`. -/
def lastTokens (xs : List Int) (n : Nat) : List Int := if n = 0 then xs else xs.drop (xs.length - n)

namespace StopReq

variable {R : Type} (search : R → Text → Bool) (req : StopReq R)

def finished : Bool := req.finishedReason.isSome

def outputIdsThroughStop : List Int :=
  match req.finishedLen with
  | some finishedLen => req.outputIds.take finishedLen
  | none => req.outputIds

/-- What sets `matched_eos` for a token. -/
def isStopToken (tokenId : Int) : Bool :=
  req.samplingParams.stopTokenIds.contains tokenId || req.eosTokenIds.contains tokenId ||
    req.tokenizer.any fun tokenizer =>
      tokenizer.eosTokenId == some tokenId || tokenizer.additionalStopTokenIds.contains tokenId

/-- `_check_token_based_finish`; `none` for `False`. -/
def checkTokenBasedFinish (newAcceptedTokens : List Int) : Option (StopReq R) :=
  if req.samplingParams.ignoreEos then none
  else (newAcceptedTokens.findIdx? req.isStopToken).map fun i =>
    let matchedPos := req.outputIds.length - newAcceptedTokens.length + i
    { req with
      finishedReason := some (.matchedToken (newAcceptedTokens.getD i 0))
      finishedLen := some (matchedPos + 1) }

/-- The token written over one that is out of the vocabulary. -/
def writtenToken (tokenId : Int) : Int :=
  req.eosTokenIds.headD (req.samplingParams.stopTokenIds.headD tokenId)

/-- `_check_vocab_boundary_finish`; `none` for `False`. -/
def checkVocabBoundaryFinish (newAcceptedTokens : List Int) : Option (StopReq R) :=
  (newAcceptedTokens.findIdx? fun tokenId : Int => req.vocabSize < tokenId || tokenId < 0).map fun i =>
    let offset := req.outputIds.length - newAcceptedTokens.length + i
    { req with
      outputIds := req.outputIds.set offset (req.writtenToken (newAcceptedTokens.getD i 0))
      finishedReason := some (.matchedStr "NaN happened".toList)
      finishedLen := some (offset + 1) }

/-- `tail_str`, called with a stop string or a stop regex only. -/
def tailStr : Py Text :=
  match req.tokenizer with
  | none => .error (.attributeError "'NoneType' object has no attribute 'decode'")
  | some tokenizer =>
    let maxLenTailStr := max (req.samplingParams.stopStrMaxLen + 1) (req.samplingParams.stopRegexMaxLen + 1)
    let tailLen := min (maxLenTailStr + 1) req.outputIds.length
    .ok (tokenizer.decode (lastTokens req.outputIds tailLen))

/-- `_check_str_based_finish`; `none` for `False`. -/
def checkStrBasedFinish : Py (Option (StopReq R)) :=
  if req.samplingParams.stopStrs = [] ∧ req.samplingParams.stopRegexStrs.isEmpty then .ok none
  else do
    let tailStr ← req.tailStr
    match req.samplingParams.stopStrs.find? fun stopStr =>
        stopStr <:+: tailStr ∨ stopStr <:+: req.decodedText with
    | some stopStr => return some { req with finishedReason := some (.matchedStr stopStr) }
    | none =>
      return (req.samplingParams.stopRegexStrs.find? fun regex => search regex tailStr).map fun regex =>
        { req with finishedReason := some (.matchedRegex regex) }

/-- `check_finished`. -/
def checkFinished (newAcceptedLen : Nat) : Py (StopReq R) :=
  if req.finished then .ok req
  else if req.toAbort then .ok { req with finishedReason := some (.abort req.toAbortMessage) }
  else if req.samplingParams.maxNewTokens ≤ req.outputIds.length then
    .ok { req with
      finishedReason := some (.length req.samplingParams.maxNewTokens)
      finishedLen := some req.samplingParams.maxNewTokens }
  else if req.grammar = some true then do
    let matched ← pyIndex req.outputIds (-1)
    return { req with finishedReason := some (.matchedToken matched) }
  else
    let newAcceptedTokens := lastTokens req.outputIds newAcceptedLen
    match req.checkTokenBasedFinish newAcceptedTokens with
    | some ended => .ok ended
    | none =>
      match req.checkVocabBoundaryFinish newAcceptedTokens with
      | some ended => .ok ended
      | none => do
        let ended ← req.checkStrBasedFinish search
        return ended.getD req

/-- A step with the tokens a running request accepts; a finished one drops them. -/
def accept (newAcceptedTokens : List Int) : Py (StopReq R) :=
  if req.finished then .ok req
  else { req with outputIds := req.outputIds ++ newAcceptedTokens }.checkFinished search newAcceptedTokens.length

/-- The request after the steps of the batches. -/
def acceptAll (batches : List (List Int)) : Py (StopReq R) := batches.foldlM (accept search) req

end StopReq

end QCFuse.Source
