import QCFuse.Source.SessionController

/-!
# Requests of a session are never made

`create_req` reads `lora_path`, which a received request does not have, before it makes the request.
-/

set_option autoImplicit false

namespace QCFuse.Guarantees

open QCFuse.Source QCFuse.Library

section Sessions

variable {σ α β : Type}

/-- What happens to a session: a call, or a request that the scheduler runs on. -/
inductive SessionStep (σ : Type) where
  | create (call : SessionCall σ) (tokenizer : Option (Option Int))
  | progress (i : Nat) (outputIds : List Int) (finished : Bool)

/-- The result of a call, and the session after it. -/
def outcome (s : Session σ) (call : SessionCall σ) (tokenizer : Option (Option Int)) :
    Py (SessionReq σ) × Session σ :=
  Session.createReq call tokenizer s

def stepSession (s : Session σ) : SessionStep σ → Session σ
  | .create call tokenizer => (outcome s call tokenizer).2
  | .progress i outputIds finished => { s with
      nodes := s.nodes.modify i fun node => { node with req := { node.req with outputIds, finished } } }

def sessionAfter (steps : List (SessionStep σ)) : Session σ := steps.foldl stepSession .new

/-! ### What a call is to do -/

/-- The node that the parameters name. -/
def parentNode (s : Session σ) (params : SessionParams) : Option (SessionReqNode σ) :=
  params.rid.bind fun rid => (s.reqNodes.get? rid).bind fun i => s.nodes[i]?

/-- The parameters name an unknown request, or one to append to that is not finished. -/
def IsAborted (s : Session σ) (params : SessionParams) : Prop :=
  params.rid ≠ none ∧ ∀ node, parentNode s params = some node →
    params.replace.getD false = false ∧ node.req.finished = false

/-- The ids of the parent, cut as the parameters say, and the new ids. -/
def promisedIds (s : Session σ) (call : SessionCall σ) (tokenizer : Option (Option Int)) : List Int :=
  match parentNode s call.sessionParams with
  | none => call.inputIds
  | some node => Session.joinIds call.sessionParams node.req node.req.originInputIds
      (if ∃ bos, tokenizer = some bos ∧ call.inputIds.head? = bos then call.inputIds.tail else call.inputIds)

def Child (s : Session σ) (i j : Nat) : Prop := ∃ node, s.nodes[i]? = some node ∧ j ∈ node.childs

/-- The dictionary names a node under its request, its parent has it among its children, and it names those. -/
def NamesTrees (s : Session σ) : Prop :=
  ∀ rid i, s.reqNodes.get? rid = some i → ∃ node, s.nodes[i]? = some node ∧ node.req.rid = rid ∧
    (∀ last, node.parent = some last → Child s last i ∧ last ∈ s.reqNodes.entries.map Prod.snd) ∧
      ∀ j, Child s i j → j ∈ s.reqNodes.entries.map Prod.snd

/-- The nodes that a replace removes: all, or those below the one that it names. -/
def Cleared (s : Session σ) (params : SessionParams) (i : Nat) : Prop :=
  params.replace.getD false = true ∧ match params.rid with
    | none => i ∈ s.reqNodes.entries.map Prod.snd
    | some rid => ∃ last, s.reqNodes.get? rid = some last ∧ Relation.TransGen (Child s) last i

/-- The nodes that it replaces. -/
def Replaced (s : Session σ) (params : SessionParams) (i : Nat) : Prop :=
  Cleared s params i ∨ params.replace.getD false = true ∧ ∃ rid, params.rid = some rid ∧ s.reqNodes.get? rid = some i

/-- One call keeps the session's trees and returns the request that it is asked for. -/
structure SessionCallKept (s : Session σ) (call : SessionCall σ) (tokenizer : Option (Option Int)) : Prop where
  returned : ∃ req, (outcome s call tokenizer).1 = .ok req ∧
    (¬ IsAborted s call.sessionParams → req.originInputIds = promisedIds s call tokenizer)
  unchanged : IsAborted s call.sessionParams → (outcome s call tokenizer).2 = s
  named : NamesTrees (outcome s call tokenizer).2
  removed : ∀ rid i, s.reqNodes.get? rid = some i →
    (rid ∈ (outcome s call tokenizer).2.reqNodes.keys ↔ ¬ Cleared s call.sessionParams i)
  marked : ∀ i node, s.nodes[i]? = some node → ∃ node', (outcome s call tokenizer).2.nodes[i]? = some node' ∧
    (node'.req.toAbort = true ↔
      node.req.toAbort = true ∨ node.req.finished = false ∧ Replaced s call.sessionParams i) ∧
    node'.req.originInputIds = node.req.originInputIds ∧ node'.req.outputIds = node.req.outputIds

/-! ### What it does -/

/-- A computation that ends in an error from every session. -/
def Throws (x : SessionM σ α) : Prop := ∀ s : Session σ, ∀ a, (x s).1 ≠ .ok a

theorem throws_bind_left {x : SessionM σ α} (f : α → SessionM σ β) (h : Throws x) : Throws (x >>= f) := by
  intro s b
  have herror := h s
  simp only [bind, ExceptT.bind, ExceptT.mk, StateT.bind]
  rcases hx : x s with ⟨r, s'⟩
  rw [hx] at herror
  cases r with
  | ok a => exact absurd rfl (herror a)
  | error e => exact nofun

theorem throws_bind_right (x : SessionM σ α) {f : α → SessionM σ β} (h : ∀ a, Throws (f a)) : Throws (x >>= f) := by
  intro s b
  simp only [bind, ExceptT.bind, ExceptT.mk, StateT.bind]
  rcases x s with ⟨r, s'⟩
  cases r with
  | ok a => exact h a s' b
  | error e => exact nofun

theorem throws_loraPath (call : SessionCall σ) : Throws (Session.loraPath call) := fun _ _ => nofun

theorem throws_createReq (call : SessionCall σ) (tokenizer : Option (Option Int)) :
    Throws (Session.createReq call tokenizer) := by
  refine throws_bind_right _ fun s => ?_
  refine throws_bind_right _ fun (last, aborted) => ?_
  refine throws_bind_right _ fun parent => ?_
  refine throws_bind_right _ fun (inputIds, inputIdsUnpadded) => ?_
  exact throws_bind_left _ (throws_loraPath call)

/-- A run keeps what is asked of every call only when it makes none. -/
theorem session_calls_kept (steps : List (SessionStep σ)) :
    (∀ before call tokenizer after, steps = before ++ .create call tokenizer :: after →
      SessionCallKept (sessionAfter before) call tokenizer) ↔ ∀ call tokenizer, .create call tokenizer ∉ steps := by
  constructor
  · intro h call tokenizer hmem
    obtain ⟨before, after, hsteps⟩ := List.append_of_mem hmem
    obtain ⟨req, hreq, -⟩ := (h before call tokenizer after hsteps).returned
    exact throws_createReq call tokenizer _ req hreq
  · intro h before call tokenizer after hsteps
    exact absurd (hsteps ▸ List.mem_append_right before List.mem_cons_self) (h call tokenizer)

end Sessions

/-- The first call of a session. -/
def sessionFirstCall : SessionCall Unit where
  rid := "a"
  inputIds := [1]
  sessionParams := ⟨none, none, none, none⟩
  maxNewTokens := none
  loraId := none
  options := ()

theorem first_call_raises : (outcome .new sessionFirstCall none).1 =
    .error (.attributeError "'TokenizedGenerateReqInput' object has no attribute 'lora_path'") ∧
      ¬ SessionCallKept .new sessionFirstCall none :=
  ⟨rfl, fun h => by
    obtain ⟨req, hreq, -⟩ := h.returned
    cases hreq⟩

end QCFuse.Guarantees
