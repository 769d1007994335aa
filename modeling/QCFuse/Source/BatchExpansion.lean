import QCFuse.Source.Python
import QCFuse.Source.SaltedRequest

/-!
# The prompts of one call

`GenerateReqInput` with the fields that `normalize_batch_and_arguments` and `__getitem__` read; `lora_id` is set
later. The prompts are in one of `text`, `input_ids` and `input_embeds`. A batch that is normalised has a list in each
of its fields, so it is a structure of its own. The items, the dictionaries and the fields that every prompt gets as
they are have any type.
-/

set_option autoImplicit false

namespace QCFuse.Source

inductive Prompt where
  | text (text : String)
  | inputIds (inputIds : List Int)
  | inputEmbeds (inputEmbeds : List (List Rat))
  deriving DecidableEq, Repr

inductive Prompts where
  | one (prompt : Prompt)
  | texts (text : List String)
  | inputIdLists (inputIds : List (List Int))
  | inputEmbedLists (inputEmbeds : List (List (List Rat)))
  deriving DecidableEq, Repr

/-- The prompts as a list; one prompt alone is wrapped. -/
def Prompts.toList : Prompts → List Prompt
  | .one prompt => [prompt]
  | .texts text => text.map .text
  | .inputIdLists inputIds => inputIds.map .inputIds
  | .inputEmbedLists inputEmbeds => inputEmbeds.map .inputEmbeds

/-- `MultimodalDataInputFormat`, by what the first entry is. The code also looks for entries that are `None`. -/
inductive MmData (μ : Type) where
  | item (x : μ)
  | items (xs : List (Option μ))
  | lists (first : List (Option μ)) (rest : List (Option (List (Option μ))))
  deriving DecidableEq, Repr

/-- `token_ids_logprob`, by what the first entry is; the type has no single id. -/
inductive TokenIds where
  | id (x : Int)
  | ids (xs : List Int)
  | idLists (first : List Int) (rest : List (List Int))
  deriving DecidableEq, Repr

/-- A dictionary of sampling parameters and its entry `"n"`. -/
structure SamplingDict (δ : Type) where
  n : Option Nat
  rest : δ
  deriving DecidableEq, Repr

structure GenerateCall (μ δ σ : Type) where
  prompts : Prompts
  imageData : Option (MmData μ)
  videoData : Option (MmData μ)
  audioData : Option (MmData μ)
  samplingParams : Option (PerPrompt (SamplingDict δ) (SamplingDict δ))
  rid : Option (PerPrompt String String)
  returnLogprob : Option (PerPrompt Bool Bool)
  logprobStartLen : Option (PerPrompt Int Int)
  topLogprobsNum : Option (PerPrompt Int Int)
  tokenIdsLogprob : Option TokenIds
  returnHiddenStates : PerPrompt Bool Bool
  modalities : Option (PerPrompt String (Option String))
  sessionParams : Option (PerPrompt δ δ)
  loraPath : Option (PerPrompt String (Option String))
  customLogitProcessor : Option (PerPrompt String (Option String))
  bootstrapHost : Option (PerPrompt String (Option String))
  bootstrapPort : Option (PerPrompt Int (Option Int))
  bootstrapRoom : Option (PerPrompt Int (Option Int))
  bootstrapPairKey : Option (PerPrompt String (Option String))
  extraKey : Option (PerPrompt String String)
  background : Bool
  httpWorkerIpc : Option String
  /-- The fields that `__getitem__` hands over as they are. -/
  shared : σ
  deriving DecidableEq

structure GenerateBatch (μ δ σ : Type) where
  prompts : List Prompt
  imageData : List (Option (MmData μ))
  videoData : List (Option (MmData μ))
  audioData : List (Option (MmData μ))
  samplingParams : List (SamplingDict δ)
  rid : List String
  returnLogprob : List Bool
  logprobStartLen : List Int
  topLogprobsNum : List Int
  tokenIdsLogprob : List (Option (List Int))
  returnHiddenStates : PerPrompt Bool Bool
  modalities : Option (List (Option String))
  sessionParams : Option (PerPrompt δ δ)
  loraPath : Option (List (Option String))
  customLogitProcessor : List (Option String)
  bootstrapHost : List (Option String)
  bootstrapPort : List (Option Int)
  bootstrapRoom : List (Option Int)
  bootstrapPairKey : List (Option String)
  extraKey : Option (PerPrompt String String)
  shared : σ
  deriving DecidableEq

/-- `xs * n`. -/
def pyRepeat {α : Type} (xs : List α) (n : Nat) : List α := (List.replicate n xs).flatten

namespace GenerateCall

variable {μ δ σ : Type}

/-- `_determine_batch_size`: `is_single` and `batch_size`. -/
def determineBatchSize : Prompts → Py (Bool × Nat)
  | .one (.text _) => .ok (true, 1)
  | .texts text => .ok (false, text.length)
  | .one (.inputIds []) | .inputIdLists [] => .error (.valueError "input_ids cannot be empty.")
  | .one (.inputIds (_ :: _)) => .ok (true, 1)
  | .inputIdLists (ids :: inputIds) => .ok (false, (ids :: inputIds).length)
  | .one (.inputEmbeds ((_ :: _) :: _)) => .ok (true, 1)
  | .inputEmbedLists ((row :: rows) :: inputEmbeds) => .ok (false, ((row :: rows) :: inputEmbeds).length)
  | .one (.inputEmbeds _) | .inputEmbedLists _ => .error .indexError

/-- `parallel_sample_num`. -/
def parallelSampleNum : Option (PerPrompt (SamplingDict δ) (SamplingDict δ)) → Py Nat
  | none => .ok 1
  | some (.one params) => .ok (params.n.getD 1)
  | some (.each []) => .error .indexError
  | some (.each (params :: rest)) =>
    if rest.all fun other => other.n.getD 1 = params.n.getD 1 then .ok (params.n.getD 1)
    else .error (.valueError "The parallel_sample_num should be the same for all samples in sample params.")

/-- `not self.token_ids_logprob`. -/
def noTokenIds : Option TokenIds → Bool
  | none => true
  | some (.id x) => x = 0
  | some (.ids xs) => xs.isEmpty
  | some (.idLists _ _) => false

/-- `_normalize_single_inputs`; `{}` is the empty dictionary. -/
def normalizeSingleInputs (empty : δ) (uuid : String) (call : GenerateCall μ δ σ) : GenerateCall μ δ σ :=
  { call with
    samplingParams := some (call.samplingParams.getD (.one ⟨none, empty⟩))
    rid := some (call.rid.getD (.one uuid))
    returnLogprob := some (call.returnLogprob.getD (.one false))
    logprobStartLen := some (call.logprobStartLen.getD (.one (-1)))
    topLogprobsNum := some (call.topLogprobsNum.getD (.one 0))
    tokenIdsLogprob := if noTokenIds call.tokenIdsLogprob then none else call.tokenIdsLogprob }

/-! ## The fields of a batch -/

/-- A field that is absent, given once, or given as a list that is repeated. -/
def expandField {α β : Type} (default : β) (once : Nat → α → β) (num parallelSampleNum : Nat) :
    Option (PerPrompt α β) → List β
  | none => List.replicate num default
  | some (.one x) => (List.range num).map (once · x)
  | some (.each xs) => pyRepeat xs parallelSampleNum

/-- `normalize_param`: a list is not for parallel sampling. -/
def normalizeParam {α β : Type} (default : β) (once : α → β) (num parallelSampleNum : Nat) (name : String) :
    Option (PerPrompt α β) → Py (List β)
  | none => .ok (List.replicate num default)
  | some (.one x) => .ok (List.replicate num (once x))
  | some (.each xs) =>
    if 1 < parallelSampleNum then
      .error (.valueError ("Cannot use list " ++ name ++ " with parallel_sample_num > 1"))
    else .ok xs

/-- `_normalize_rid(num)`. -/
def normalizeRid (uuids : Nat → String) (batchSize num : Nat) : Option (PerPrompt String String) → Py (List String)
  | none => .ok ((List.range num).map uuids)
  | some (.one rid) => .ok ((List.range num).map fun i => rid ++ "_" ++ toString i)
  | some (.each rids) =>
    if rids.length ≠ batchSize then
      .error (.valueError "The specified rids length mismatch with the batch_size for batch processing.")
    else .ok rids

/-- `_normalize_lora_paths(num)`. -/
def normalizeLoraPaths (num parallelSampleNum : Nat) :
    Option (PerPrompt String (Option String)) → Option (List (Option String))
  | none => none
  | some loraPath => some (expandField none (fun _ => some) num parallelSampleNum (some loraPath))

/-- The modality of the images of one prompt. -/
def modalityOf : Option (List (Option μ)) → Option String
  | none | some [none] | some [] => none
  | some [some _] => some "image"
  | some (_ :: _ :: _) => some "multi-images"

/-- `_normalize_image_data(num)`: the images and the modalities. -/
def normalizeImageData (batchSize num parallelSampleNum : Nat) (modalities : Option (List (Option String))) :
    Option (MmData μ) → Py (List (Option (MmData μ)) × Option (List (Option String)))
  | none | some (.items []) => .ok (List.replicate num none, modalities)
  | some (.item x) =>
    .ok (List.replicate num (some (.items [some x])), some (List.replicate num (some "image")))
  | some (.items (x :: xs)) =>
    if (x :: xs).length ≠ batchSize then
      .error (.valueError "The length of image_data should be equal to the batch size.")
    else
      .ok (pyRepeat ((x :: xs).map fun img => some (.items [img])) parallelSampleNum,
        some (List.replicate num (some "image")))
  | some (.lists first rest) =>
    if (some first :: rest).length ≠ batchSize then
      .error (.valueError "The length of image_data should be equal to the batch size.")
    else
      .ok (pyRepeat ((some first :: rest).map (Option.map .items)) parallelSampleNum,
        some (pyRepeat ((some first :: rest).map modalityOf) parallelSampleNum))

/-- Videos or audio, as one item or a list. -/
def mmEntries : MmData μ → PerPrompt μ (Option (MmData μ))
  | .item x => .one x
  | .items xs => .each (xs.map (Option.map .item))
  | .lists first rest => .each ((some first :: rest).map (Option.map .items))

/-- `_normalize_video_data(num)` and `_normalize_audio_data(num)`. -/
def normalizeMmData (num parallelSampleNum : Nat) (data : Option (MmData μ)) : List (Option (MmData μ)) :=
  expandField none (fun _ x => some (.item x)) num parallelSampleNum (data.map mmEntries)

/-- `token_ids_logprob` in `_normalize_logprob_params(num)`. -/
def normalizeTokenIds (num parallelSampleNum : Nat) (tokenIds : Option TokenIds) : Py (List (Option (List Int))) :=
  if noTokenIds tokenIds then .ok (List.replicate num none)
  else
    match tokenIds with
    | none => .ok (List.replicate num none)
    | some (.id x) => .ok (List.replicate num (some [x]))
    | some (.ids xs) => .ok (List.replicate num (some xs))
    | some (.idLists first rest) =>
      if 1 < parallelSampleNum then
        .error (.valueError "Cannot use list token_ids_logprob with parallel_sample_num > 1")
      else .ok ((first :: rest).map some)

/-- The list of modalities; a string is indexed by its characters. -/
def modalityList : Option (PerPrompt String (Option String)) → Option (List (Option String))
  | none => none
  | some (.one modality) => some (modality.toList.map fun c => some (String.singleton c))
  | some (.each modalities) => some modalities

/-- `_normalize_batch_inputs`. -/
def normalizeBatchInputs (empty : δ) (uuids : Nat → String) (batchSize parallelSampleNum : Nat)
    (call : GenerateCall μ δ σ) : Py (GenerateBatch μ δ σ) := do
  let num := if parallelSampleNum = 1 then batchSize else batchSize * parallelSampleNum
  let rid ← normalizeRid uuids batchSize num call.rid
  let (imageData, modalities) ←
    normalizeImageData batchSize num parallelSampleNum (modalityList call.modalities) call.imageData
  let returnLogprob ← normalizeParam false id num parallelSampleNum "return_logprob" call.returnLogprob
  let logprobStartLen ← normalizeParam (-1) id num parallelSampleNum "logprob_start_len" call.logprobStartLen
  let topLogprobsNum ← normalizeParam 0 id num parallelSampleNum "top_logprobs_num" call.topLogprobsNum
  let tokenIdsLogprob ← normalizeTokenIds num parallelSampleNum call.tokenIdsLogprob
  let customLogitProcessor ←
    normalizeParam none some num parallelSampleNum "custom_logit_processor" call.customLogitProcessor
  return {
    prompts := pyRepeat call.prompts.toList parallelSampleNum
    imageData, modalities, rid, returnLogprob, logprobStartLen, topLogprobsNum, tokenIdsLogprob, customLogitProcessor
    videoData := normalizeMmData num parallelSampleNum call.videoData
    audioData := normalizeMmData num parallelSampleNum call.audioData
    samplingParams := expandField ⟨none, empty⟩ (fun _ params => params) num parallelSampleNum call.samplingParams
    returnHiddenStates := call.returnHiddenStates
    sessionParams := call.sessionParams
    loraPath := normalizeLoraPaths num parallelSampleNum call.loraPath
    bootstrapHost := expandField none (fun _ => some) num parallelSampleNum call.bootstrapHost
    bootstrapPort := expandField none (fun _ => some) num parallelSampleNum call.bootstrapPort
    bootstrapRoom := expandField none (fun i room => some (room + i)) num parallelSampleNum call.bootstrapRoom
    bootstrapPairKey := expandField none (fun _ => some) num parallelSampleNum call.bootstrapPairKey
    extraKey := call.extraKey
    shared := call.shared }

/-- A call after `normalize_batch_and_arguments`, by `is_single`. -/
inductive Normalized (μ δ σ : Type) where
  | single (call : GenerateCall μ δ σ)
  | batch (batch : GenerateBatch μ δ σ)

/-- `normalize_batch_and_arguments()`. -/
def normalizeBatchAndArguments (empty : δ) (uuids : Nat → String) (call : GenerateCall μ δ σ) :
    Py (Normalized μ δ σ) := do
  let (isSingle, batchSize) ← determineBatchSize call.prompts
  let samples ← parallelSampleNum call.samplingParams
  if isSingle && !(1 < samples) then return .single (normalizeSingleInputs empty (uuids 0) call)
  let batch ← normalizeBatchInputs empty uuids batchSize samples call
  return .batch batch

end GenerateCall

/-- `x[i] if isinstance(x, list) else x`. -/
def PerPrompt.indexed {α : Type} (i : Nat) : PerPrompt α α → Py α
  | .one x => .ok x
  | .each xs => pyIndex xs i

/-- `self.modalities[i] if self.modalities else None`. -/
def modalityAt (modalities : Option (List (Option String))) (i : Nat) : Py (Option String) :=
  match modalities with
  | none | some [] => .ok none
  | some (modality :: modalities) => pyIndex (modality :: modalities) i

/-- `self.lora_path[i] if self.lora_path is not None else None`. -/
def loraPathAt (loraPath : Option (List (Option String))) (i : Nat) : Py (Option String) :=
  match loraPath with
  | none => .ok none
  | some loraPath => pyIndex loraPath i

/-- `__getitem__(i)`. -/
def GenerateBatch.getItem {μ δ σ : Type} (batch : GenerateBatch μ δ σ) (i : Nat) : Py (GenerateCall μ δ σ) := do
  let prompt ← pyIndex batch.prompts i
  let imageData ← pyIndex batch.imageData i
  let videoData ← pyIndex batch.videoData i
  let audioData ← pyIndex batch.audioData i
  let samplingParams ← pyIndex batch.samplingParams i
  let rid ← pyIndex batch.rid i
  let returnLogprob ← pyIndex batch.returnLogprob i
  let logprobStartLen ← pyIndex batch.logprobStartLen i
  let topLogprobsNum ← pyIndex batch.topLogprobsNum i
  let tokenIdsLogprob ← pyIndex batch.tokenIdsLogprob i
  let returnHiddenStates ← batch.returnHiddenStates.indexed i
  let modality ← modalityAt batch.modalities i
  let loraPath ← loraPathAt batch.loraPath i
  let customLogitProcessor ← pyIndex batch.customLogitProcessor i
  let bootstrapHost ← pyIndex batch.bootstrapHost i
  let bootstrapPort ← pyIndex batch.bootstrapPort i
  let bootstrapRoom ← pyIndex batch.bootstrapRoom i
  let bootstrapPairKey ← pyIndex batch.bootstrapPairKey i
  return {
    prompts := .one prompt
    imageData, videoData, audioData
    samplingParams := some (.one samplingParams)
    rid := some (.one rid)
    returnLogprob := some (.one returnLogprob)
    logprobStartLen := some (.one logprobStartLen)
    topLogprobsNum := some (.one topLogprobsNum)
    tokenIdsLogprob := tokenIdsLogprob.map .ids
    returnHiddenStates := .one returnHiddenStates
    modalities := modality.map .one
    sessionParams := batch.sessionParams
    loraPath := loraPath.map .one
    customLogitProcessor := customLogitProcessor.map .one
    bootstrapHost := bootstrapHost.map .one
    bootstrapPort := bootstrapPort.map .one
    bootstrapRoom := bootstrapRoom.map .one
    bootstrapPairKey := bootstrapPairKey.map .one
    extraKey := batch.extraKey
    background := false
    httpWorkerIpc := none
    shared := batch.shared }

end QCFuse.Source
