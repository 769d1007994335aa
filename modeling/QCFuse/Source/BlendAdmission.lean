import QCFuse.Source.BlendRequest
import QCFuse.Source.Python

/-!
# A blend prompt on its way to the batch

The tokenizer manager checks the length of a prompt and splits it at the separator; the scheduler
truncates or aborts it, and it waits. Text or token input of one of the styles with a separator;
no multimodal data and no input embeddings. `tokenizer.encode` and the tokenizer called on a whole
text are functions of the tokenizer.
-/

set_option autoImplicit false

namespace QCFuse.Source

/-- `texts` as a whole, and a segment on its own. -/
structure Tokenizer where
  encodeText : String → List Nat
  encodeSegment : String → List Nat

structure TokenizerManager where
  tokenizer : Option Tokenizer
  contextLen : Nat
  reserveInputTokenNum : Nat
  allowAutoTruncate : Bool

/-- A prompt of a blend call. What the checks of hidden states, logit processors and sampling
parameters raise does not depend on its tokens. -/
structure BlendCall where
  blendStyle : BlendStyle
  text : Option String
  inputIds : Option (List Nat)
  separator : Option String
  maxNewTokens : Option Int
  otherError : Option PyError

/-- `TokenizedGenerateReqInput`. -/
structure BlendTokenized where
  inputText : Option String
  inputIds : List Nat
  blendLocList : Option (List Int)
  deriving DecidableEq

/-! ## `CacheBlender` -/

/-- `_find_pattern_matches_numpy`: where the separator starts, overlapping or not. -/
def findPatternMatches (inputIds sepToken : List Nat) : List Nat :=
  (List.range (inputIds.length + 1 - sepToken.length)).filter fun i =>
    (inputIds.drop i).take sepToken.length = sepToken

/-- `input_arr[keep_mask]`. -/
def keptIds (inputIds : List Nat) (patternMatches : List Nat) (sepLen : Nat) : List Nat :=
  (inputIds.zipIdx.filter fun entry =>
    patternMatches.all fun matchIdx => !(decide (matchIdx ≤ entry.2) && decide (entry.2 < matchIdx + sepLen))).map Prod.fst

/-- The loop over the matches, and the `current_new_pos` appended behind it. -/
def segmentStarts (sepLen : Nat) : List Nat → Int → Int → List Int
  | [], currentNewPos, _ => [currentNewPos]
  | matchIdx :: rest, currentNewPos, prevEnd =>
    currentNewPos :: segmentStarts sepLen rest (currentNewPos + (matchIdx - prevEnd)) (matchIdx + sepLen)

/-- `split_tokens`. -/
def splitTokens (inputText : Option String) (inputIds : List Nat) (separator : String) (sepToken : List Nat) :
    BlendTokenized :=
  if sepToken.length = 0 ∨ inputIds.length < sepToken.length then ⟨inputText, inputIds, none⟩
  else
    let patternMatches := findPatternMatches inputIds sepToken
    if patternMatches = [] then ⟨inputText, inputIds, some [0, (inputIds.length : Int)]⟩
    else
      let newInputIds := keptIds inputIds patternMatches sepToken.length
      ⟨inputText.map fun text => text.replace separator "", newInputIds,
        some (segmentStarts sepToken.length patternMatches 0 0 ++ [(newInputIds.length : Int)])⟩

/-- The loop of `split_text_tokens`. -/
def tokenizeSegments (encodeSegment : String → List Nat) : List String → List Nat → List Nat × List Int
  | [], inputIds => (inputIds, [])
  | part :: parts, inputIds =>
    let inputIds := inputIds ++ encodeSegment part
    let (allIds, locs) := tokenizeSegments encodeSegment parts inputIds
    (allIds, (inputIds.length : Int) :: locs)

/-- `split_text_tokens`. -/
def splitTextTokens (inputText separator : String) (tokenizer : Tokenizer) : BlendTokenized :=
  let parts := inputText.splitOn separator
  let (inputIds, locs) := tokenizeSegments tokenizer.encodeSegment parts []
  ⟨some (String.join parts), inputIds, some (0 :: locs)⟩

/-! ## The tokenizer manager -/

namespace TokenizerManager

/-- `_tokenize_texts` of a string. -/
def tokenizeTexts (tm : TokenizerManager) (text : Option String) : Py (List Nat) :=
  match text, tm.tokenizer with
  | some text, some tokenizer =>
    if text = "" then .error (.valueError "texts cannot be empty and tokenizer must be initialized")
    else .ok (tokenizer.encodeText text)
  | _, _ => .error (.valueError "texts cannot be empty and tokenizer must be initialized")

/-- `_validate_one_request`: the ids and `max_new_tokens` as it leaves them. -/
def validateOneRequest (tm : TokenizerManager) (inputIds : List Nat) (maxNewTokens : Option Int) :
    Py (List Nat × Option Int) := do
  let (inputIds, inputTokenNum) ←
    if tm.contextLen ≤ inputIds.length + tm.reserveInputTokenNum then
      if tm.allowAutoTruncate then
        .ok (inputIds.take tm.contextLen, (inputIds.take tm.contextLen).length)
      else .error (.valueError ("The input (" ++ toString (inputIds.length + tm.reserveInputTokenNum) ++
        " tokens) is longer than the model's context length (" ++ toString tm.contextLen ++ " tokens)."))
    else .ok (inputIds, inputIds.length + tm.reserveInputTokenNum)
  match maxNewTokens with
  | none => .ok (inputIds, none)
  | some maxNew =>
    if (tm.contextLen : Int) ≤ maxNew + inputTokenNum then
      if tm.allowAutoTruncate then .ok (inputIds, some (max 0 ((tm.contextLen : Int) - inputTokenNum)))
      else .error (.valueError ("Requested token count exceeds the model's maximum context length of " ++
        toString tm.contextLen ++ " tokens. You requested a total of " ++ toString (maxNew + inputTokenNum) ++
        " tokens: " ++ toString inputTokenNum ++ " tokens from the input messages and " ++ toString maxNew ++
        " tokens for the completion. Please reduce the number of tokens in the input messages or the " ++
        "completion to fit within the limit."))
    else .ok (inputIds, some maxNew)

/-- The ids `_tokenize_one_request` passes on, checked against the context length. -/
def checkedIds (tm : TokenizerManager) (call : BlendCall) : Py (List Nat) := do
  let inputIds ←
    match call.inputIds with
    | some inputIds => .ok inputIds
    | none => tm.tokenizeTexts call.text
  let (inputIds, _) ← tm.validateOneRequest inputIds call.maxNewTokens
  return inputIds

/-- `_create_tokenized_object`; the separator is not empty there. -/
def createTokenizedObject (tm : TokenizerManager) (call : BlendCall) (inputIds sepToken : List Nat) :
    BlendTokenized :=
  match call.text, call.separator, tm.tokenizer with
  | some text, some separator, some tokenizer =>
    if 1 < (text.splitOn separator).length then splitTextTokens text separator tokenizer
    else splitTokens (some text) inputIds separator sepToken
  | text, separator, _ => splitTokens text inputIds (separator.getD "") sepToken

/-- `generate_request` up to the message to the scheduler. -/
def generateRequest (tm : TokenizerManager) (call : BlendCall) : Py BlendTokenized := do
  let sepToken ← tm.tokenizeTexts call.separator
  let inputIds ← tm.checkedIds call
  match call.otherError with
  | some error => .error error
  | none => return tm.createTokenizedObject call inputIds sepToken

end TokenizerManager

/-! ## The scheduler -/

/-- A request of the scheduler. -/
structure QueuedReq where
  originInputIds : List Nat
  blendStyle : Option BlendStyle
  blendLocList : Option (List Int)
  finishedReason : Option String
  deriving DecidableEq

/-- `set_finish_with_abort`. -/
def QueuedReq.setFinishWithAbort (req : QueuedReq) (errorMsg : String) : QueuedReq :=
  { req with originInputIds := [0], finishedReason := some errorMsg }

/-- What becomes of the grammar of a request: it has none, it is refused, it is in the cache, or the
request waits for it and may be aborted there. -/
inductive GrammarPath where
  | none
  | refused (errorMsg : String)
  | cached
  | waits (aborted : Option String)

/-- What decides the way of a request besides its tokens. -/
structure AdmissionPath where
  missingSession : Option String
  returnLogprob : Bool
  logprobStartLen : Int
  isPrefillOnly : Bool
  grammar : GrammarPath
  /-- Rejected by a full queue, or aborted while in the waiting queue. -/
  leavesQueue : Bool

structure AdmissionLimits where
  maxReqInputLen : Nat
  allowAutoTruncate : Bool

/-- `validate_input_length`. -/
def validateInputLength (limits : AdmissionLimits) (req : QueuedReq) : Except String QueuedReq :=
  if limits.maxReqInputLen ≤ req.originInputIds.length then
    if limits.allowAutoTruncate then .ok { req with originInputIds := req.originInputIds.take limits.maxReqInputLen }
    else .error ("Input length (" ++ toString req.originInputIds.length ++
      " tokens) exceeds the maximum allowed length (" ++ toString limits.maxReqInputLen ++
      " tokens). Use a shorter input or enable --allow-auto-truncate.")
  else .ok req

/-- The check of `logprob_start_len` fails. -/
def AdmissionPath.logprobsPast (path : AdmissionPath) (inputLen : Nat) : Bool :=
  path.returnLogprob && decide (path.logprobStartLen ≠ -1) && !path.isPrefillOnly &&
    decide ((inputLen : Int) ≤ path.logprobStartLen)

/-- The grammar part of `handle_generate_request`, and the grammar queue. -/
def QueuedReq.awaitGrammar (req : QueuedReq) : GrammarPath → QueuedReq
  | .none => req
  | .refused errorMsg => req.setFinishWithAbort errorMsg
  | .cached => req
  | .waits (some errorMsg) => req.setFinishWithAbort errorMsg
  | .waits none => req

/-- `handle_generate_request` and the queues, on the request it constructs. -/
def handleBlendReq (limits : AdmissionLimits) (path : AdmissionPath) (req : QueuedReq) : QueuedReq :=
  match path.missingSession with
  | some sessionId => req.setFinishWithAbort ("Invalid request: session id " ++ sessionId ++ " does not exist")
  | none =>
    match validateInputLength limits req with
    | .error errorMsg => req.setFinishWithAbort errorMsg
    | .ok req =>
      if path.logprobsPast req.originInputIds.length then
        req.setFinishWithAbort ("req.logprob_start_len=" ++ toString path.logprobStartLen ++
          " is higher than the number of input tokens len(req.origin_input_ids)=" ++
          toString req.originInputIds.length ++ ". Please use a smaller logprob_start_len.")
      else req.awaitGrammar path.grammar

/-- The request as it is prefilled; `none` if it left the queue. -/
def admitBlendReq (limits : AdmissionLimits) (path : AdmissionPath) (blendStyle : BlendStyle)
    (recvReq : BlendTokenized) : Option QueuedReq :=
  if path.leavesQueue then none
  else some (handleBlendReq limits path ⟨recvReq.inputIds, some blendStyle, recvReq.blendLocList, none⟩)

end QCFuse.Source
