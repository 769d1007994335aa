import QCFuse.Source.LoraRegistry
import QCFuse.Source.RequestPool

/-!
# The extra key on its way to the cache

`GenerateReqInput`, its prompts, the tokenized message and the request, as far as `extra_key` and
`lora_id` go. The server runs with LoRA enabled.
-/

set_option autoImplicit false

namespace QCFuse.Source

open QCFuse.Library

/-- A field that holds one value for the call, or a list. -/
inductive PerPrompt (One Each : Type) where
  | one (value : One)
  | each (values : List Each)
  deriving DecidableEq

structure GenerateReqInput where
  isSingle : Bool
  batchSize : Nat
  parallelSampleNum : Nat
  loraPath : Option (PerPrompt String (Option String))
  loraId : Option (PerPrompt String (Option String))
  extraKey : Option (PerPrompt String String)
  deriving DecidableEq

/-- A call for one prompt: a single call, or what `__getitem__` returns. -/
structure PromptInput where
  loraId : Option String
  extraKey : Option (PerPrompt String String)
  deriving DecidableEq

structure TokenizedGenerateReqInput where
  loraId : Option String
  extraKey : Option (PerPrompt String String)
  deriving DecidableEq

namespace GenerateReqInput

/-- `_handle_parallel_sampling`: several samples of one prompt are a batch. -/
def handleParallelSampling (obj : GenerateReqInput) : GenerateReqInput :=
  if 1 < obj.parallelSampleNum ∧ obj.isSingle = true then { obj with isSingle := false } else obj

/-- `_normalize_lora_paths`. -/
def normalizeLoraPaths (obj : GenerateReqInput) (num : Nat) : GenerateReqInput :=
  match obj.loraPath with
  | none => obj
  | some (.one path) => { obj with loraPath := some (.each (List.replicate num (some path))) }
  | some (.each paths) =>
    { obj with loraPath := some (.each (List.replicate obj.parallelSampleNum paths).flatten) }

/-- `normalize_batch_and_arguments`, which does not look at `extra_key`. -/
def normalizeBatchAndArguments (obj : GenerateReqInput) : GenerateReqInput :=
  let obj := obj.handleParallelSampling
  if obj.isSingle then obj else obj.normalizeLoraPaths (obj.batchSize * obj.parallelSampleNum)

/-- `obj.lora_id = await self.lora_registry.acquire(obj.lora_path)`; an empty path is none. -/
def acquire (obj : GenerateReqInput) (registry : LoraRegistry) : Option GenerateReqInput :=
  match obj.loraPath with
  | none => some obj
  | some (.one path) =>
    if path = "" then some obj
    else (registry.registry.get? path).map fun loraId => { obj with loraId := some (.one loraId) }
  | some (.each paths) =>
    if paths = [] then some obj
    else (registry.lookupAll paths).map fun loraIds => { obj with loraId := some (.each loraIds) }

/-- `self.lora_id[i] if self.lora_id is not None else None`; in a batch it is a list. -/
def loraIdAt (obj : GenerateReqInput) (i : Nat) : Option (Option String) :=
  match obj.loraId with
  | none => some none
  | some (.one _) => none
  | some (.each loraIds) => loraIds[i]?

/-- `__getitem__`: the extra key is that of the whole call. -/
def getItem (obj : GenerateReqInput) (i : Nat) : Option PromptInput :=
  if i < obj.batchSize then (obj.loraIdAt i).map fun loraId => ⟨loraId, obj.extraKey⟩ else none

/-- The call for prompt `i`. -/
def prompt (obj : GenerateReqInput) (i : Nat) : Option PromptInput :=
  if obj.isSingle then
    match obj.loraId with
    | none => some ⟨none, obj.extraKey⟩
    | some (.one loraId) => some ⟨some loraId, obj.extraKey⟩
    | some (.each _) => none
  else obj.getItem i

end GenerateReqInput

/-- `_create_tokenized_object`. -/
def createTokenizedObject (obj : PromptInput) : TokenizedGenerateReqInput := ⟨obj.loraId, obj.extraKey⟩

/-- The `extra_key` of `Req.__init__`: the LoRA id behind the one passed. -/
def reqExtraKey (extraKey loraId : Option String) : Option String :=
  match loraId with
  | none => extraKey
  | some loraId => some (extraKey.getD "" ++ loraId)

/-- `extra_key` of the `Req` that `handle_generate_request` constructs. The call passes `lora_id`
and no `extra_key`. -/
def handleGenerateRequest (recvReq : TokenizedGenerateReqInput) : Option String :=
  reqExtraKey none recvReq.loraId

end QCFuse.Source
