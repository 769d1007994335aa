import QCFuse.Library.Dict
import QCFuse.Source.Python

/-!
# Requests of a session

`SessionReqNode` and `Session.create_req`. A node is named by its place among all nodes that were made. What a call
did before it failed stays, so a result comes with the session after it. A received request has the fields of
`TokenizedGenerateReqInput` that the call reads, and session parameters, which the scheduler has checked; what it passes
on as it is has any type.
-/

set_option autoImplicit false

namespace QCFuse.Source

open QCFuse.Library

structure SessionParams where
  rid : Option String
  offset : Option Int
  replace : Option Bool
  dropPreviousOutput : Option Bool
  deriving DecidableEq

/-- `TokenizedGenerateReqInput` with session parameters; the adapter is its `lora_id`. -/
structure SessionCall (σ : Type) where
  rid : String
  inputIds : List Int
  sessionParams : SessionParams
  maxNewTokens : Option Int
  loraId : Option String
  options : σ
  deriving DecidableEq

/-- A `Req`; `finished` is `finished_reason is not None`. -/
structure SessionReq (σ : Type) where
  rid : String
  originInputIds : List Int
  originInputIdsUnpadded : List Int
  maxNewTokens : Option Int
  options : σ
  multimodalInputs : Option σ
  outputIds : List Int
  finished : Bool
  toAbort : Bool
  deriving DecidableEq

structure SessionReqNode (σ : Type) where
  req : SessionReq σ
  parent : Option Nat
  childs : List Nat
  deriving DecidableEq

structure Session (σ : Type) where
  nodes : List (SessionReqNode σ)
  reqNodes : Dict String Nat

abbrev SessionM (σ : Type) := ExceptT PyError (StateM (Session σ))

namespace Session

variable {σ : Type}

def new : Session σ := ⟨[], .empty⟩

def node (i : Nat) : SessionM σ (SessionReqNode σ) := do
  let s ← get
  match s.nodes[i]? with
  | some node => return node
  | none => throw .indexError

/-- The marking in `clear` and `abort`. -/
def abort (i : Nat) : SessionM σ Unit :=
  modify fun s => { s with
    nodes := s.nodes.modify i fun node =>
      if node.req.finished then node else { node with req := { node.req with toAbort := true } } }

/-- `clear(req_dict)`, for trees of a depth below `fuel`. -/
def clear : Nat → Nat → SessionM σ Unit
  | 0, _ => throw (.runtimeError "maximum recursion depth exceeded")
  | fuel + 1, i => do
    let node ← node i
    node.childs.forM (clear fuel)
    abort i
    let s ← get
    if node.req.rid ∈ s.reqNodes.keys then set { s with reqNodes := s.reqNodes.erase node.req.rid }
    else throw (.keyError node.req.rid)

/-- `clear_childs(req_dict)`. -/
def clearChilds (fuel i : Nat) : SessionM σ Unit := do
  let node ← node i
  node.childs.forM (clear fuel)
  modify fun s => { s with nodes := s.nodes.modify i fun node => { node with childs := [] } }

/-- The loop over `self.req_nodes.items()`; the iterator looks at the size before each entry and at the end. -/
def clearEach (fuel size : Nat) : List Nat → SessionM σ Unit
  | [] => do
    let s ← get
    if s.reqNodes.entries.length ≠ size then throw (.runtimeError "dictionary changed size during iteration")
  | i :: rest => do
    let s ← get
    if s.reqNodes.entries.length ≠ size then throw (.runtimeError "dictionary changed size during iteration")
    clear fuel i
    clearEach fuel size rest

/-- The new ids without a leading bos token. -/
def trimBos (tokenizer : Option (Option Int)) (inputIds : List Int) : SessionM σ (List Int) :=
  match tokenizer, inputIds with
  | none, _ => return inputIds
  | some _, [] => throw .indexError
  | some bosTokenId, first :: rest => return if some first = bosTokenId then rest else inputIds

/-- The ids of the parent and the new ids; the same for the padded and the unpadded ones. -/
def joinIds (params : SessionParams) (last : SessionReq σ) (originIds inputIds : List Int) : List Int :=
  let outputIds := match last.maxNewTokens with
    | none => last.outputIds
    | some maxNewTokens => pyTake last.outputIds maxNewTokens
  let ids := if params.dropPreviousOutput.getD false then originIds else originIds ++ outputIds
  match params.offset with
  | none => ids ++ inputIds
  | some offset => if offset = 0 then ids ++ inputIds else pyTake ids offset ++ inputIds

/-- `req.lora_path`: the class declares no such field. -/
def loraPath (_ : SessionCall σ) : SessionM σ (Option String) :=
  throw (.attributeError "'TokenizedGenerateReqInput' object has no attribute 'lora_path'")

/-- `Req(rid=…, lora_path=…)`: `Req.__init__` has no such parameter. -/
def newReq (_ : SessionCall σ) (_ _ : List Int) (_ : Option String) : SessionM σ (SessionReq σ) :=
  throw (.typeError "Req.__init__() got an unexpected keyword argument 'lora_path'")

/-- The parent that the parameters name, and whether the call is aborted. -/
def findParent (fuel : Nat) (params : SessionParams) : SessionM σ (Option Nat × Bool) := do
  let s ← get
  match params.replace.getD false, params.rid with
  | true, none =>
    clearEach fuel s.reqNodes.entries.length (s.reqNodes.entries.map Prod.snd)
    return (none, false)
  | true, some rid =>
    match s.reqNodes.get? rid with
    | none => return (none, true)
    | some last =>
      abort last
      clearChilds fuel last
      return (some last, false)
  | false, none => return (none, false)
  | false, some rid =>
    match s.reqNodes.get? rid with
    | none => return (none, true)
    | some last =>
      let node ← node last
      return (some last, !node.req.finished)

/-- The ids of the new request, padded and unpadded. -/
def inputIdsOf (call : SessionCall σ) (tokenizer : Option (Option Int)) :
    Option (SessionReqNode σ) → SessionM σ (List Int × List Int)
  | none => return (call.inputIds, call.inputIds)
  | some parent => do
    let inputIds ← trimBos tokenizer call.inputIds
    return (joinIds call.sessionParams parent.req parent.req.originInputIds inputIds,
      joinIds call.sessionParams parent.req parent.req.originInputIdsUnpadded inputIds)

/-- `create_req(req, tokenizer)`. -/
def createReq (call : SessionCall σ) (tokenizer : Option (Option Int)) : SessionM σ (SessionReq σ) := do
  let fuel := (← get).nodes.length + 1
  let (last, aborted) ← findParent fuel call.sessionParams
  let parent ← last.mapM node
  let (inputIds, inputIdsUnpadded) ← inputIdsOf call tokenizer parent
  let lora ← loraPath call
  let req ← newReq call inputIds inputIdsUnpadded lora
  let req := match parent with
    | none => req
    | some parent => { req with multimodalInputs := parent.req.multimodalInputs }
  if aborted then return { req with multimodalInputs := none, originInputIds := [0], finished := true }
  let s ← get
  let linked := match last with
    | none => s.nodes
    | some last => s.nodes.modify last fun node => { node with childs := node.childs ++ [s.nodes.length] }
  set { nodes := linked ++ [⟨req, last, []⟩], reqNodes := s.reqNodes.set call.rid s.nodes.length : Session σ }
  return req

end Session

end QCFuse.Source
