import Mathlib.Data.List.Infix
import Mathlib.Data.Rat.Defs
import QCFuse.Library.Dict

/-!
# LoRA adapters

`LoRAManager`, `LoRAMemoryPool` and the two eviction policies. What is read from an adapter's
files is an argument. A tensor is its shape; what a buffer holds is left out. Asking a set for its
elements gives them in an order of its own, which is an argument as well.
-/

set_option autoImplicit false

namespace QCFuse.Source

open QCFuse.Library

inductive LoraError where
  | assertionError (message : String)
  | valueError (message : String)
  | typeError (message : String)
  | attributeError (message : String)
  | keyError
  | indexError
  | other (message : String)
  deriving DecidableEq, Repr

/-- `str(e)`. -/
def LoraError.message : LoraError → String
  | assertionError message | valueError message | typeError message | attributeError message
  | other message => message
  | keyError => "key error"
  | indexError => "list index out of range"

/-- `LoRARef`. -/
structure LoraRef where
  loraId : String
  loraName : Option String
  loraPath : Option String
  pinned : Option Bool
  deriving DecidableEq, Repr

/-- `int(lora_ref.pinned)`. -/
def LoraRef.pinnedInt (ref : LoraRef) : Except LoraError Int :=
  match ref.pinned with
  | none => .error (.typeError
      "int() argument must be a string, a bytes-like object or a real number, not 'NoneType'")
  | some pinned => .ok pinned.toInt

/-- `LoRAConfig`. -/
structure LoraConfig where
  targetModules : List String
  r : Nat
  loraAlpha : Rat
  deriving DecidableEq

abbrev Shape := Nat × Nat

/-- `LoRAAdapter`, with the weights of its layers by name. -/
structure LoraAdapter where
  config : LoraConfig
  layers : List (List (String × Shape))
  deriving DecidableEq

def LoraAdapter.scaling (adapter : LoraAdapter) : Rat := adapter.config.loraAlpha / adapter.config.r

/-! ## Target modules -/

def paramsMapping : List (String × String) :=
  [("q_proj", "qkv_proj"), ("k_proj", "qkv_proj"), ("v_proj", "qkv_proj"),
    ("gate_proj", "gate_up_proj"), ("up_proj", "gate_up_proj")]

def getNormalizedTargetModules (targetModules : List String) : List String :=
  targetModules.map fun name =>
    let baseName := (name.splitOn ".").getLastD name
    (paramsMapping.lookup baseName).getD baseName

def getStackedMultiply (moduleName : String) : Nat :=
  if moduleName = "qkv_proj" then 3 else if moduleName = "gate_up_proj" then 2 else 1

/-- `x in y` for strings. -/
def isIn (x y : String) : Bool := decide (x.toList <:+: y.toList)

def getTargetModuleName (fullModuleName : String) (targetModules : List String) : Except LoraError String :=
  match targetModules.find? fun targetModule => isIn targetModule fullModuleName with
  | some targetModule => .ok targetModule
  | none => .error (.valueError ("Cannot find target module name for " ++ fullModuleName))

/-! ## Eviction policies -/

inductive PolicyName where
  | lru
  | fifo
  deriving DecidableEq, Repr

/-- `LRUEvictionPolicy` and `FIFOEvictionPolicy`: the keys of the ordered dictionary. -/
structure LoraEvictionPolicy where
  name : PolicyName
  order : List String
  deriving DecidableEq, Repr

namespace LoraEvictionPolicy

def markUsed (policy : LoraEvictionPolicy) : Option String → LoraEvictionPolicy
  | none => policy
  | some uid =>
    match policy.name with
    | .lru => { policy with order := policy.order.erase uid ++ [uid] }
    | .fifo => if uid ∈ policy.order then policy else { policy with order := policy.order ++ [uid] }

def selectVictim (policy : LoraEvictionPolicy) (candidates : List (Option String)) :
    Except LoraError (Option String) :=
  if none ∈ candidates then .ok none
  else
    match policy.order.find? fun uid => some uid ∈ candidates with
    | some uid => .ok (some uid)
    | none => .error (.assertionError "Failed to select victim from candidates")

def remove (policy : LoraEvictionPolicy) : Option String → LoraEvictionPolicy
  | none => policy
  | some uid => { policy with order := policy.order.erase uid }

end LoraEvictionPolicy

/-! ## The memory pool -/

/-- A LoRA module of a layer; slicing may fail where a weight is missing. -/
structure LoraModule where
  moduleName : String
  sliceLoraAWeights : Option Shape → Except LoraError (Option Shape)
  sliceLoraBWeights : Option Shape → Except LoraError (Option Shape)

/-- What the buffers were made for. -/
structure LoraBuffers where
  maxLoraRank : Nat
  targetModules : List String
  numLayer : Nat
  tpSize : Nat
  inputDim : String → Nat → Nat
  outputDim : String → Nat → Nat
  loraModules : List (List LoraModule)

namespace LoraBuffers

def canSupport (buffers : LoraBuffers) (config : LoraConfig) : Bool :=
  decide (config.r ≤ buffers.maxLoraRank) &&
    (getNormalizedTargetModules config.targetModules).all fun name => buffers.targetModules.contains name

/-- The weight of each target module, if the adapter has one. -/
abbrev TempBuffer := String → Option Shape

def setTemp (temp : TempBuffer) (name : String) (weight : Option Shape) : TempBuffer :=
  fun other => if other = name then weight else temp other

def collectWeights (buffers : LoraBuffers) (weights : List (String × Shape)) :
    Except LoraError (TempBuffer × TempBuffer) :=
  weights.foldlM (fun (tempA, tempB) (name, weight) => do
    let targetModule ← getTargetModuleName name buffers.targetModules
    return if isIn "lora_A" name then (setTemp tempA targetModule (some weight), tempB)
      else (tempA, setTemp tempB targetModule (some weight))) (fun _ => none, fun _ => none)

def sliceWeights (buffers : LoraBuffers) (modules : List LoraModule) (temp : TempBuffer × TempBuffer) :
    Except LoraError (TempBuffer × TempBuffer) :=
  if buffers.tpSize > 1 then
    modules.foldlM (fun (tempA, tempB) m => do
      let targetModule ← getTargetModuleName m.moduleName buffers.targetModules
      if (tempA targetModule).isNone then return (tempA, tempB)
      else
        let weightA ← m.sliceLoraAWeights (tempA targetModule)
        let weightB ← m.sliceLoraBWeights (tempB targetModule)
        return (setTemp tempA targetModule weightA, setTemp tempB targetModule weightB)) temp
  else .ok temp

def loadLoraWeightTensor (bufferView : Shape) : Option Shape → Except LoraError Unit
  | none => .ok ()
  | some weight =>
    if bufferView = weight then .ok ()
    else .error (.assertionError "LoRA buffer shape does not match weight shape")

def loadLayer (buffers : LoraBuffers) (adapter : LoraAdapter) (layerId : Nat) : Except LoraError Unit := do
  match adapter.layers[layerId]?, buffers.loraModules[layerId]? with
  | some weights, some modules =>
    let temp ← buffers.collectWeights weights
    let (tempA, tempB) ← buffers.sliceWeights modules temp
    for name in buffers.targetModules do
      loadLoraWeightTensor (min (adapter.config.r * getStackedMultiply name)
        (buffers.maxLoraRank * getStackedMultiply name), buffers.inputDim name layerId) (tempA name)
    for name in buffers.targetModules do
      loadLoraWeightTensor (buffers.outputDim name layerId, min adapter.config.r buffers.maxLoraRank) (tempB name)
  | _, _ => .error .indexError

def loadLoraWeightToBuffer (buffers : LoraBuffers) (uid : Option String) (adapter : Option LoraAdapter) :
    Except LoraError Unit :=
  match uid, adapter with
  | none, _ => .ok ()
  | some _, none => .error (.assertionError "")
  | some _, some adapter => do
    for layerId in List.range buffers.numLayer do
      buffers.loadLayer adapter layerId

end LoraBuffers

/-- `LoRAMemoryPool`; an empty slot is `none`, the base model is `some none`. -/
structure LoraMemoryPool where
  buffers : LoraBuffers
  uidToBufferId : Dict (Option String) Nat
  bufferIdToUid : List (Option (Option String))
  evictionPolicy : LoraEvictionPolicy

namespace LoraMemoryPool

def new (buffers : LoraBuffers) (maxLorasPerBatch : Nat) (policy : PolicyName) : LoraMemoryPool :=
  ⟨buffers, .empty, List.replicate maxLorasPerBatch none, ⟨policy, []⟩⟩

/-- A pinned adapter stays. -/
def isPinned (loraRefs : Dict String LoraRef) : Option String → Bool
  | none => false
  | some uid => ((loraRefs.get? uid).map fun ref => decide (ref.pinned = some true)).getD false

def candidates (pool : LoraMemoryPool) (curUids : List (Option String)) (loraRefs : Dict String LoraRef) :
    List (Option String) :=
  pool.bufferIdToUid.reduceOption.filter fun uid => uid ∉ curUids ∧ isPinned loraRefs uid = false

def getAvailableBufferSlot (pool : LoraMemoryPool) (curUids : List (Option String))
    (loraRefs : Dict String LoraRef) : Except LoraError (Nat × LoraMemoryPool) :=
  match pool.bufferIdToUid.findIdx? fun uid => uid.isNone with
  | some bufferId => .ok (bufferId, pool)
  | none =>
    if pool.candidates curUids loraRefs = [] then
      .error (.valueError ("No available buffer slots found. Please ensure the number of active (pinned) loras " ++
        "is less than max_loras_per_batch."))
    else do
      let victim ← pool.evictionPolicy.selectVictim (pool.candidates curUids loraRefs)
      match pool.uidToBufferId.get? victim with
      | none => .error .keyError
      | some bufferId => .ok (bufferId, { pool with
          uidToBufferId := pool.uidToBufferId.erase victim
          evictionPolicy := pool.evictionPolicy.remove victim
          bufferIdToUid := pool.bufferIdToUid.set bufferId none })

/-- One turn of the second loop of `prepare_lora_batch`. -/
def prepareUid (curUids : List (Option String)) (loraAdapters : Dict String LoraAdapter)
    (loraRefs : Dict String LoraRef) (pool : LoraMemoryPool) (uid : Option String) :
    Except LoraError LoraMemoryPool :=
  if uid ∈ pool.uidToBufferId.keys then .ok pool
  else do
    let (bufferId, pool) ← pool.getAvailableBufferSlot curUids loraRefs
    pool.buffers.loadLoraWeightToBuffer uid (uid.bind loraAdapters.get?)
    return { pool with
      uidToBufferId := pool.uidToBufferId.set uid bufferId
      bufferIdToUid := pool.bufferIdToUid.set bufferId (some uid) }

def prepareLoraBatch (pool : LoraMemoryPool) (curUids : List (Option String))
    (loraAdapters : Dict String LoraAdapter) (loraRefs : Dict String LoraRef) :
    Except LoraError LoraMemoryPool :=
  curUids.foldlM (prepareUid curUids loraAdapters loraRefs)
    { pool with evictionPolicy := curUids.foldl LoraEvictionPolicy.markUsed pool.evictionPolicy }

end LoraMemoryPool

/-! ## The manager -/

structure LoraManager where
  maxLorasPerBatch : Nat
  configs : Dict String LoraConfig
  loras : Dict String LoraAdapter
  loraRefs : Dict String LoraRef
  numPinnedLoras : Int
  memoryPool : Option LoraMemoryPool

structure LoraUpdateOutput where
  success : Bool
  errorMessage : String
  loadedAdapters : List (Option String × Option String)
  deriving DecidableEq, Repr

/-- What the kernels are told about a batch. -/
structure LoraBatchInfo where
  weightIndices : List Nat
  loraRanks : List Nat
  scalings : List Rat

namespace LoraManager

/-- `init_lora_adapters` before any adapter is loaded. -/
def new (maxLorasPerBatch : Nat) : LoraManager :=
  ⟨maxLorasPerBatch, .empty, .empty, .empty, 0, none⟩

def createLoraUpdateResult (m : LoraManager) (success : Bool) (errorMessage : String) : LoraUpdateOutput :=
  ⟨success, errorMessage, m.loraRefs.entries.map fun entry => (entry.2.loraName, entry.2.loraPath)⟩

def tooManyPinned (m : LoraManager) (ref : LoraRef) : Bool :=
  decide (ref.pinned = some true ∧ m.numPinnedLoras ≥ (m.maxLorasPerBatch : Int) - 1)

def validateNewAdapter (m : LoraManager) (config : LoraConfig) (ref : LoraRef) : Except LoraError Unit :=
  let name := ref.loraName.getD "None"
  if m.loraRefs.entries.any fun existing => existing.2.loraName = ref.loraName then
    .error (.valueError ("Failed to load LoRA adapter " ++ name ++ " because it is already loaded"))
  else if m.memoryPool.any fun pool => !pool.buffers.canSupport config then
    .error (.valueError ("LoRA adapter " ++ name ++ " with rank " ++ toString config.r ++
      " is incompatible with the current LoRA memory pool configuration. Please ensure that the LoRA adapter's " ++
      "rank is within the configured `--max-lora-rank` and that the target modules are included in " ++
      "`--lora-target-modules`."))
  else if m.tooManyPinned ref then
    .error (.valueError ("Failed to load LoRA adapter " ++ name ++ " as a pinned adapter. It is not allowed to pin " ++
      "all slots in the LoRA memory pool to avoid starvation for unpinned adapters and base models. Please " ++
      "increase your `--max-loras-per-batch` or load it as unpinned LoRA adapters."))
  else .ok ()

/-- The `try` block of `load_lora_adapter`, with the state it leaves in either case. -/
def tryLoad (m : LoraManager) (ref : LoraRef) (config : Except LoraError LoraConfig)
    (layers : Except LoraError (List (List (String × Shape)))) : Except LoraError Unit × LoraManager :=
  match config with
  | .error e => (.error e, m)
  | .ok newAdapter =>
    match m.validateNewAdapter newAdapter ref with
    | .error e => (.error e, m)
    | .ok () =>
      let m := { m with configs := m.configs.set ref.loraId newAdapter }
      match layers with
      | .error e => (.error e, m)
      | .ok layers =>
        let m := { m with
          loras := m.loras.set ref.loraId ⟨newAdapter, layers⟩
          loraRefs := m.loraRefs.set ref.loraId ref }
        match ref.pinnedInt with
        | .error e => (.error e, m)
        | .ok pinned => (.ok (), { m with numPinnedLoras := m.numPinnedLoras + pinned })

/-- The result that the `try` statement gives. -/
def updateResult (outcome : Except LoraError Unit × LoraManager) : LoraUpdateOutput × LoraManager :=
  match outcome with
  | (.error e, m) => (m.createLoraUpdateResult false e.message, m)
  | (.ok (), m) => (m.createLoraUpdateResult true "", m)

def loadLoraAdapter (m : LoraManager) (ref : LoraRef) (config : Except LoraError LoraConfig)
    (layers : Except LoraError (List (List (String × Shape)))) :
    Except LoraError (LoraUpdateOutput × LoraManager) :=
  if ref.loraName.isNone ∨ ref.loraPath.isNone then
    .error (.assertionError "LoRARef must have both lora_name and lora_path set for loading.")
  else if ref.loraId ∈ m.loras.keys then
    .error (.assertionError ("LoRA adapter with ID " ++ ref.loraId ++ " is already loaded. This should have been " ++
      "verified before request is sent to the backend."))
  else if m.tooManyPinned ref then
    .ok (m.createLoraUpdateResult false ("Already have " ++ toString m.numPinnedLoras ++ " pinned adapters, max " ++
      "allowed is " ++ toString ((m.maxLorasPerBatch : Int) - 1) ++ " (reserving 1 slot for dynamic use). Please " ++
      "unpin some adapters or increase max_loras_per_batch."), m)
  else .ok (updateResult (m.tryLoad ref config layers))

/-- The `try` block of `unload_lora_adapter`. -/
def tryUnload (m : LoraManager) (ref : LoraRef) : Except LoraError Unit × LoraManager :=
  let m := { m with configs := m.configs.erase ref.loraId }
  if ref.loraId ∉ m.loras.keys then (.error .keyError, m)
  else
    let m := { m with loras := m.loras.erase ref.loraId, loraRefs := m.loraRefs.erase ref.loraId }
    match ref.pinnedInt with
    | .error e => (.error e, m)
    | .ok pinned => (.ok (), { m with numPinnedLoras := m.numPinnedLoras - pinned })

def unloadLoraAdapter (m : LoraManager) (ref : LoraRef) : Except LoraError (LoraUpdateOutput × LoraManager) :=
  match m.configs.get? ref.loraId, m.loraRefs.get? ref.loraId with
  | _, none => .error (.attributeError "'NoneType' object has no attribute 'lora_id'")
  | none, some ref => .error (.assertionError ("LoRA adapter with ID " ++ ref.loraId ++ " is not loaded. This should " ++
      "have been verified before request is sent to the backend."))
  | some _, some ref => .ok (updateResult (m.tryUnload ref))

/-- One turn of the count of pinned adapters in a batch. -/
def countPinned (m : LoraManager) (count : Int) : Option String → Except LoraError Int
  | none => .ok count
  | some loraId =>
    match m.loraRefs.get? loraId with
    | none => .error (.assertionError ("LoRA ID " ++ loraId ++ " not found in lora_refs."))
    | some ref => ref.pinnedInt.map fun pinned => count + pinned

/-- `lora_ids` is a set. -/
def validateLoraBatch (m : LoraManager) (loraIds : List (Option String)) : Except LoraError Bool :=
  if loraIds.length > m.maxLorasPerBatch then .ok false
  else if m.numPinnedLoras = 0 then .ok true
  else do
    let pinnedLorasInBatch ← loraIds.foldlM m.countPinned 0
    if pinnedLorasInBatch > m.numPinnedLoras then
      .error (.assertionError ("Number of pinned LoRA adapters in the batch (" ++ toString pinnedLorasInBatch ++
        ") exceeds the total number of pinned adapters (" ++ toString m.numPinnedLoras ++
        "). This indicates a bug in the LoRA loading logic."))
    else
      match m.memoryPool with
      | none => .error (.attributeError "'LoRAManager' object has no attribute 'memory_pool'")
      | some pool =>
        .ok (decide ((loraIds.length : Int) - pinnedLorasInBatch ≤ (pool.bufferIdToUid.length : Int) - m.numPinnedLoras))

/-- The entry of one request in the batch info. -/
def batchEntry (m : LoraManager) (pool : LoraMemoryPool) (info : LoraBatchInfo) (uid : Option String) :
    Except LoraError LoraBatchInfo :=
  match pool.uidToBufferId.get? uid with
  | none => .error .keyError
  | some bufferId =>
    match uid with
    | none => .ok { info with weightIndices := info.weightIndices ++ [bufferId] }
    | some uid =>
      match m.loras.get? uid with
      | none => .error .keyError
      | some lora =>
        if bufferId < info.loraRanks.length then
          .ok {
            weightIndices := info.weightIndices ++ [bufferId]
            loraRanks := info.loraRanks.set bufferId lora.config.r
            scalings := info.scalings.set bufferId lora.scaling }
        else .error .indexError

/-- `loraIds` of the batch, and their set in the order it is walked. -/
def prepareLoraBatch (m : LoraManager) (loraIds curUids : List (Option String)) :
    Except LoraError (LoraBatchInfo × LoraManager) :=
  match m.memoryPool with
  | none => .error (.attributeError "'LoRAManager' object has no attribute 'memory_pool'")
  | some pool =>
    if curUids.length > m.maxLorasPerBatch then .error (.assertionError "")
    else do
      let pool ← pool.prepareLoraBatch curUids m.loras m.loraRefs
      let info ← loraIds.foldlM (m.batchEntry pool)
        ⟨[], List.replicate m.maxLorasPerBatch 0, List.replicate m.maxLorasPerBatch 0⟩
      return (info, { m with memoryPool := some pool })

end LoraManager

end QCFuse.Source
