import QCFuse.Library.Dict
import QCFuse.Source.ResponseStream

/-!
# Use of LoRA adapters

`LoRARegistry` and what the tokenizer manager does with it: a client call acquires all its adapters
before it sends its requests, and three handlers release them one by one. Unique ids of adapters
are arguments, checked to be new.
-/

set_option autoImplicit false

namespace QCFuse.Source

open QCFuse.Library

/-- `LoRARegistry`: names to ids, and ids to counters. -/
structure LoraRegistry where
  registry : Dict String String
  counters : Dict String Int

namespace LoraRegistry

def register (r : LoraRegistry) (loraName loraId : String) : Option LoraRegistry :=
  if loraName ∈ r.registry.keys then none
  else some ⟨r.registry.set loraName loraId, r.counters.set loraId 0⟩

/-- The id that was removed. -/
def unregister (r : LoraRegistry) (loraName : String) : Option (String × LoraRegistry) :=
  (r.registry.get? loraName).map fun loraId => (loraId, { r with registry := r.registry.erase loraName })

def increment (counters : Dict String Int) (loraId : String) : Option (Dict String Int) :=
  (counters.get? loraId).map fun count => counters.set loraId (count + 1)

/-- `_lookup` of every name; a name may be `None`. -/
def lookupAll (r : LoraRegistry) (loraNames : List (Option String)) : Option (List (Option String)) :=
  loraNames.mapM fun name =>
    match name with
    | none => some none
    | some name => (r.registry.get? name).map some

/-- `acquire`, for a list of names; a string is the list of it alone. -/
def acquire (r : LoraRegistry) (loraNames : List (Option String)) : Option (List (Option String) × LoraRegistry) := do
  let loraIds ← r.lookupAll loraNames
  let counters ← loraIds.reduceOption.foldlM increment r.counters
  return (loraIds, { r with counters := counters })

def release (r : LoraRegistry) (loraId : String) : Option LoraRegistry :=
  (r.counters.get? loraId).map fun count => { r with counters := r.counters.set loraId (count - 1) }

/-- `wait_for_unload`, once the counter is zero. -/
def waitForUnload (r : LoraRegistry) (loraId : String) : Option LoraRegistry :=
  if r.counters.get? loraId = some 0 then some { r with counters := r.counters.erase loraId } else none

end LoraRegistry

/-- A request that was sent: its adapter, whether `rid_to_state` has it, the finish reason of the
last chunk once there is one, and whether its generator still runs. -/
structure SentRequest where
  loraId : Option String
  known : Bool
  reason : Option FinishReason
  listening : Bool

/-- The registry, the acquisitions of calls that are not sent yet, the requests, the release tasks that
have not run, the adapters whose unload waits or was sent, and the logs of acquisitions and releases. -/
structure LoraTraffic where
  registry : LoraRegistry
  unsent : List (Nat × Option String)
  requests : List SentRequest
  releaseTasks : List String
  unloading : List String
  unloaded : List String
  usedIds : List String
  acquired : List String
  released : List String

namespace LoraTraffic

def new : LoraTraffic := ⟨⟨.empty, .empty⟩, [], [], [], [], [], [], [], []⟩

/-- `load_lora_adapter` after the scheduler has loaded the adapter. -/
def load (s : LoraTraffic) (loraName loraId : String) : Option LoraTraffic :=
  if loraId ∈ s.usedIds then none
  else (s.registry.register loraName loraId).map fun registry =>
    { s with registry := registry, usedIds := loraId :: s.usedIds }

/-- `unload_lora_adapter` up to the wait. -/
def unload (s : LoraTraffic) (loraName : String) : Option LoraTraffic :=
  (s.registry.unregister loraName).map fun (loraId, registry) =>
    { s with registry := registry, unloading := loraId :: s.unloading }

/-- The wait is over and the unload message goes to the scheduler. -/
def sendUnload (s : LoraTraffic) (loraId : String) : Option LoraTraffic :=
  if loraId ∈ s.unloading then
    (s.registry.waitForUnload loraId).map fun registry =>
      { s with registry := registry, unloading := s.unloading.erase loraId, unloaded := loraId :: s.unloaded }
  else none

/-- `generate_request` acquires the adapters of a call. -/
def acquire (s : LoraTraffic) (call : Nat) (loraNames : List (Option String)) : Option LoraTraffic :=
  (s.registry.acquire loraNames).map fun (loraIds, registry) =>
    { s with
      registry := registry
      unsent := s.unsent ++ loraIds.map fun loraId => (call, loraId)
      acquired := s.acquired ++ loraIds.reduceOption }

/-- `_send_one_request`, for one of the adapters that the call acquired. -/
def send (s : LoraTraffic) (call : Nat) (loraId : Option String) : Option LoraTraffic :=
  if (call, loraId) ∈ s.unsent then
    some { s with
      unsent := s.unsent.erase (call, loraId)
      requests := s.requests ++ [⟨loraId, true, none, true⟩] }
  else none

/-- The request that computes the common prefix for parallel sampling carries an adapter of its call. -/
def warm (s : LoraTraffic) (call : Nat) (loraId : Option String) : Option LoraTraffic :=
  if (call, loraId) ∈ s.unsent then
    some { s with requests := s.requests ++ [⟨loraId, true, none, true⟩] }
  else none

/-- A call ends: its requests are sent, or tokenization or validation raised, or it was cancelled. -/
def endCall (s : LoraTraffic) (call : Nat) : LoraTraffic :=
  { s with unsent := s.unsent.filter fun entry => entry.1 ≠ call }

/-- `_handle_batch_output` for a request that finishes. -/
def finishOutput (s : LoraTraffic) (i : Nat) (reason : FinishReason) : Option LoraTraffic :=
  match s.requests[i]? with
  | none => none
  | some r =>
    if r.known then
      some { s with
        requests := s.requests.set i { r with known := false, reason := some reason }
        releaseTasks := s.releaseTasks ++ r.loraId.toList }
    else none

/-- `_handle_abort_req`. -/
def abortReq (s : LoraTraffic) (i : Nat) (reason : FinishReason) : Option LoraTraffic :=
  match s.requests[i]? with
  | none => none
  | some r => if r.known then some { s with requests := s.requests.set i { r with reason := some reason } } else none

/-- `_wait_one_response` of a finished request. An error made by the scheduler is a release as well. -/
def wake (s : LoraTraffic) (i : Nat) : Option LoraTraffic :=
  match s.requests[i]? with
  | none => none
  | some r =>
    match r.reason with
    | none => none
    | some reason =>
      if r.listening then
        match reason.failure with
        | some (.httpException _ _) =>
          some { s with
            requests := s.requests.set i { r with known := false, listening := false }
            releaseTasks := s.releaseTasks ++ r.loraId.toList }
        | _ => some { s with requests := s.requests.set i { r with listening := false } }
      else none

/-- The client is gone and the generator ends. -/
def disconnect (s : LoraTraffic) (i : Nat) : Option LoraTraffic :=
  match s.requests[i]? with
  | none => none
  | some r => some { s with requests := s.requests.set i { r with listening := false } }

/-- A release task runs. -/
def runRelease (s : LoraTraffic) (loraId : String) : Option LoraTraffic :=
  if loraId ∈ s.releaseTasks then
    match s.registry.release loraId with
    | none => some { s with releaseTasks := s.releaseTasks.erase loraId }
    | some registry =>
      some { s with
        registry := registry
        releaseTasks := s.releaseTasks.erase loraId
        released := s.released ++ [loraId] }
  else none

end LoraTraffic

end QCFuse.Source
