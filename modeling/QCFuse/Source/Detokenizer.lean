import QCFuse.Source.FinishCheck

/-!
# Incremental detokenization

`init_incremental_detokenize` and what `stream_output` sends of it, and `handle_batch_token_id_out` of the
detokenizer with `trim_matched_stop` and `find_printable_text`. A request ends by its length or by a stop
token here; no status is evicted. The tokenizer is a parameter.
-/

set_option autoImplicit false

namespace QCFuse.Source

structure DecodeFlags where
  skipSpecialTokens : Bool
  spacesBetweenSpecialTokens : Bool
  deriving DecidableEq, Repr

/-- `FINISH_LENGTH` and `FINISH_MATCHED_TOKEN`. -/
inductive OutputEnd where
  | length (length : Nat)
  | matchedToken (matched : Nat)
  deriving DecidableEq, Repr

/-! ## The scheduler's side -/

/-- `INIT_INCREMENTAL_DETOKENIZATION_OFFSET`. -/
def initIncrementalDetokenizationOffset : Nat := 5

structure StreamedReq where
  originInputIdsUnpadded : List Nat
  /-- `output_ids_through_stop`. -/
  outputIds : List Nat
  finishedReason : Option OutputEnd
  flags : DecodeFlags
  noStopTrim : Bool
  decodedText : Text
  surrOffset : Option Nat
  readOffset : Option Nat
  surrAndDecodeIds : List Nat
  curDecodeIdsLen : Nat
  sendDecodeIdOffset : Nat
  deriving DecidableEq

/-- An entry of `BatchTokenIDOutput`. -/
structure TokenIdOutput where
  rid : Nat
  finishedReason : Option OutputEnd
  decodedText : Text
  decodeIds : List Nat
  readOffset : Nat
  flags : DecodeFlags
  noStopTrim : Bool

namespace StreamedReq

def new (originInputIdsUnpadded : List Nat) (flags : DecodeFlags) (noStopTrim : Bool) : StreamedReq :=
  ⟨originInputIdsUnpadded, [], none, flags, noStopTrim, [], none, none, [], 0, 0⟩

/-- `init_incremental_detokenize`. -/
def initIncrementalDetokenize (req : StreamedReq) : StreamedReq × List Nat × Nat :=
  match req.surrOffset, req.readOffset with
  | some surrOffset, some readOffset =>
    let surrAndDecodeIds := req.surrAndDecodeIds ++ req.outputIds.drop req.curDecodeIdsLen
    ({ req with surrAndDecodeIds, curDecodeIdsLen := req.outputIds.length }, surrAndDecodeIds,
      readOffset - surrOffset)
  | _, _ =>
    let readOffset := req.originInputIdsUnpadded.length
    let surrOffset := readOffset - initIncrementalDetokenizationOffset
    let surrAndDecodeIds := req.originInputIdsUnpadded.drop surrOffset ++ req.outputIds
    ({ req with
      surrOffset := some surrOffset
      readOffset := some readOffset
      surrAndDecodeIds
      curDecodeIdsLen := req.outputIds.length }, surrAndDecodeIds, readOffset - surrOffset)

/-- What `stream_output_generation` sends of a request. -/
def streamOutput (req : StreamedReq) (rid : Nat) : StreamedReq × TokenIdOutput :=
  let (req, decodeIds, readOffset) := req.initIncrementalDetokenize
  ({ req with sendDecodeIdOffset := decodeIds.length },
    ⟨rid, req.finishedReason, req.decodedText, decodeIds.drop req.sendDecodeIdOffset, readOffset, req.flags,
      req.noStopTrim⟩)

end StreamedReq

/-! ## The detokenizer -/

/-- `_is_chinese_char`. -/
def isChineseChar (c : Char) : Bool :=
  let cp := c.toNat
  (0x4E00 ≤ cp && cp ≤ 0x9FFF) || (0x3400 ≤ cp && cp ≤ 0x4DBF) || (0x20000 ≤ cp && cp ≤ 0x2A6DF) ||
    (0x2A700 ≤ cp && cp ≤ 0x2B73F) || (0x2B740 ≤ cp && cp ≤ 0x2B81F) || (0x2B820 ≤ cp && cp ≤ 0x2CEAF) ||
    (0xF900 ≤ cp && cp ≤ 0xFAFF) || (0x2F800 ≤ cp && cp ≤ 0x2FA1F)

/-- `text[: text.rfind(" ") + 1]`. -/
def throughLastSpace (text : Text) : Text := (text.reverse.dropWhile fun c => c ≠ ' ').reverse

/-- `find_printable_text`. -/
def findPrintableText (text : Text) : Text :=
  if text.getLast? = some '\n' then text
  else if text.getLast?.any isChineseChar then text
  else if text.dropLast.getLast?.any isChineseChar then text.dropLast
  else throughLastSpace text

structure DecodeStatus where
  decodedText : Text
  decodeIds : List Nat
  surrOffset : Nat
  readOffset : Nat
  sentOffset : Nat
  deriving DecidableEq

structure DetokenizerManager where
  /-- `tokenizer.decode`; `batch_decode` decodes each list. -/
  decode : DecodeFlags → List Nat → Text
  isToolCallParserGptOss : Bool
  disableTokenizerBatchDecode : Bool
  decodeStatus : Nat → Option DecodeStatus

namespace DetokenizerManager

variable (m : DetokenizerManager)

/-- `trim_matched_stop` of token ids; a text is left alone by the two reasons there are here. -/
def trimMatchedStop (output : List Nat) (finishedReason : Option OutputEnd) (noStopTrim : Bool) : Py (List Nat) :=
  match noStopTrim, finishedReason with
  | false, some (.matchedToken matched) =>
    -- a matched token 0 is as good as none
    if matched = 0 then .ok output
    else
      match output.getLast? with
      | none => .error .indexError
      | some last =>
        if last = 200012 ∧ m.isToolCallParserGptOss then .ok output
        else .ok output.dropLast
  | _, _ => .ok output

/-- A request's status once its ids are added. -/
def statusOf (recv : TokenIdOutput) : DecodeStatus :=
  match m.decodeStatus recv.rid with
  | none => ⟨recv.decodedText, recv.decodeIds, 0, recv.readOffset, 0⟩
  | some s => { s with decodeIds := s.decodeIds ++ recv.decodeIds }

/-- A turn of the first loop, which collects `surr_ids` and `read_ids`. -/
def collect (acc : DetokenizerManager × List (List Nat × List Nat)) (recv : TokenIdOutput) :
    Py (DetokenizerManager × List (List Nat × List Nat)) := do
  let s := acc.1.statusOf recv
  let readIds ← acc.1.trimMatchedStop (s.decodeIds.drop s.surrOffset) recv.finishedReason recv.noStopTrim
  let surrIds := (s.decodeIds.take s.readOffset).drop s.surrOffset
  return ({ acc.1 with decodeStatus := Function.update acc.1.decodeStatus recv.rid (some s) },
    acc.2 ++ [(surrIds, readIds)])

/-- The flags that each entry is decoded with. -/
def decodeFlags (recvObj : List TokenIdOutput) : Py (List DecodeFlags) :=
  if m.disableTokenizerBatchDecode then .ok (recvObj.map TokenIdOutput.flags)
  else
    match recvObj with
    | [] => .error .indexError
    | first :: _ => .ok (recvObj.map fun _ => first.flags)

/-- What the second loop makes of a request's two texts: its status and its increment. -/
def increment (s : DecodeStatus) (finishedReason : Option OutputEnd) (surrText readText : Text) :
    DecodeStatus × Text :=
  let newText := readText.drop surrText.length
  let (s, newText) :=
    if finishedReason.isNone then
      if 0 < newText.length ∧ newText.getLast? ≠ some (Char.ofNat 0xFFFD) then
        ({ s with
          decodedText := s.decodedText ++ newText
          surrOffset := s.readOffset
          readOffset := s.decodeIds.length }, [])
      else (s, findPrintableText newText)
    else (s, newText)
  let outputStr := s.decodedText ++ newText
  ({ s with sentOffset := outputStr.length }, outputStr.drop s.sentOffset)

/-- A turn of the second loop. -/
def emit (acc : DetokenizerManager × List Text) (entry : TokenIdOutput × Text × Text) :
    Py (DetokenizerManager × List Text) :=
  match acc.1.decodeStatus entry.1.rid with
  | none => .error (.runtimeError "Decode status not found for request")
  | some s =>
    let (s, incrementalOutput) := increment s entry.1.finishedReason entry.2.1 entry.2.2
    .ok ({ acc.1 with decodeStatus := Function.update acc.1.decodeStatus entry.1.rid (some s) },
      acc.2 ++ [incrementalOutput])

/-- `handle_batch_token_id_out`, with the `output_strs` it returns. -/
def handleBatchTokenIdOut (recvObj : List TokenIdOutput) : Py (DetokenizerManager × List Text) := do
  let (m, windows) ← recvObj.foldlM collect (m, [])
  let flags ← m.decodeFlags recvObj
  let texts := List.zipWith (fun flags (window : List Nat × List Nat) =>
    (m.decode flags window.1, m.decode flags window.2)) flags windows
  (recvObj.zip texts).foldlM emit (m, [])

end DetokenizerManager

/-! ## Both sides -/

/-- A request's part of a batch: the tokens since its last one, and whether it has ended. -/
structure OutputPart where
  rid : Nat
  newIds : List Nat
  ended : Option OutputEnd

/-- The scheduler's requests, the detokenizer, and for each request the `output_strs` sent so far. -/
structure TextService where
  manager : DetokenizerManager
  reqs : Nat → Option StreamedReq
  texts : Nat → Text

namespace TextService

variable (w : TextService)

def arrive (rid : Nat) (originInputIdsUnpadded : List Nat) (flags : DecodeFlags) (noStopTrim : Bool) : TextService :=
  { w with reqs := Function.update w.reqs rid (some (.new originInputIdsUnpadded flags noStopTrim)) }

/-- The request of a part, and what is sent of it. -/
def streamPart (part : OutputPart) : Option (StreamedReq × TokenIdOutput) :=
  (w.reqs part.rid).map fun req =>
    { req with outputIds := req.outputIds ++ part.newIds, finishedReason := part.ended }.streamOutput part.rid

/-- A batch is streamed and handled. -/
def send (parts : List OutputPart) : Option TextService := do
  let streamed ← parts.mapM w.streamPart
  match w.manager.handleBatchTokenIdOut (streamed.map Prod.snd) with
  | .error _ => none
  | .ok (manager, outputStrs) =>
    return {
      manager
      reqs := fun rid => ((streamed.find? fun part => part.2.rid == rid).map Prod.fst).or (w.reqs rid)
      texts := fun rid =>
        w.texts rid ++ (((streamed.zip outputStrs).find? fun part => part.1.2.rid == rid).map Prod.snd).getD [] }

end TextService

end QCFuse.Source
