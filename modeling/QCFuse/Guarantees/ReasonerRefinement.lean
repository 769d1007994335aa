import QCFuse.Source.ReasonerGrammar

/-!
# The reasoner's grammar against its inner grammar

Calls of the grammar object against the inner grammar on the tokens behind the first end of thinking. The
reference keeps the tokens that were accepted; a rollback takes the last ones back.
-/

set_option autoImplicit false

namespace QCFuse.Guarantees

open QCFuse.Source

/-- The calls of the schedulers and of the tree walk. -/
inductive GrammarCall where
  | acceptToken (token : Nat)
  | rollback (k : Nat)
  | isTerminated
  | fillVocabMask (row : MaskRow)

inductive CallOutcome where
  | accepted
  | raised
  | terminated (answer : Bool)
  | filled (row : MaskRow)
  deriving DecidableEq

section Reasoner

variable {Γ : Type} (inner : GrammarObject Γ) (g₀ : Γ) (thinkEndId : Nat)

/-- A call of the wrapper; one that raises leaves it as it is. -/
def wrapperCall (w : ReasonerGrammarObject Γ) : GrammarCall → CallOutcome × ReasonerGrammarObject Γ
  | .acceptToken token =>
    match w.acceptToken inner token with
    | .ok w' => (.accepted, w')
    | .error _ => (.raised, w)
  | .rollback k =>
    match w.rollback k with
    | .ok w' => (.accepted, w')
    | .error _ => (.raised, w)
  | .isTerminated => (.terminated w.isTerminated, w)
  | .fillVocabMask row => (.filled (w.fillVocabMask inner row), w)

/-- The tokens behind the first end of thinking. -/
def behindThinking : List Nat → Option (List Nat)
  | [] => none
  | token :: tokens => if token = thinkEndId then some tokens else behindThinking tokens

/-- The inner grammar on a list of tokens. -/
def innerRun (tokens : List Nat) : Option Γ := tokens.foldlM inner.acceptToken g₀

/-- A row that allows every token. -/
def freeRow (row : MaskRow) : MaskRow := row.map fun _ => BitVec.allOnes 32

/-- A call on the tokens accepted so far, as the inner grammar answers it behind the end of thinking. -/
def referenceCall (history : List Nat) : GrammarCall → CallOutcome × List Nat
  | .acceptToken token =>
    match behindThinking thinkEndId history with
    | none => (.accepted, history ++ [token])
    | some tokens =>
      match innerRun inner g₀ (tokens ++ [token]) with
      | some _ => (.accepted, history ++ [token])
      | none => (.raised, history)
  | .rollback k => (.accepted, history.take (history.length - k))
  | .isTerminated =>
    match (behindThinking thinkEndId history).bind (innerRun inner g₀) with
    | none => (.terminated false, history)
    | some g => (.terminated (inner.isTerminated g), history)
  | .fillVocabMask row =>
    match (behindThinking thinkEndId history).bind (innerRun inner g₀) with
    | none => (.filled (freeRow row), history)
    | some g => (.filled (inner.fillVocabMask g), history)

/-- The outcomes of a list of calls. -/
def wrapperOutcomes (w : ReasonerGrammarObject Γ) : List GrammarCall → List CallOutcome
  | [] => []
  | call :: calls => (wrapperCall inner w call).1 :: wrapperOutcomes (wrapperCall inner w call).2 calls

def referenceOutcomes (history : List Nat) : List GrammarCall → List CallOutcome
  | [] => []
  | call :: calls => (referenceCall inner g₀ thinkEndId history call).1 ::
      referenceOutcomes (referenceCall inner g₀ thinkEndId history call).2 calls

/-- A call that the wrapper answers as the inner grammar does. It is no rollback. Before the end of thinking the row
that is to be filled allows every token; behind it, the inner grammar has not terminated when it is asked, and it
takes a further end of thinking without effect. -/
def Delegated (history : List Nat) : GrammarCall → Prop
  | .acceptToken token => token = thinkEndId →
      ∀ g ∈ (behindThinking thinkEndId history).bind (innerRun inner g₀), inner.acceptToken g token = some g
  | .rollback _ => False
  | .isTerminated =>
      ∀ g ∈ (behindThinking thinkEndId history).bind (innerRun inner g₀), inner.isTerminated g = false
  | .fillVocabMask row => behindThinking thinkEndId history = none → row = freeRow row

/-- Every call of the list is answered by the inner grammar. -/
def AllDelegated (history : List Nat) : List GrammarCall → Prop
  | [] => True
  | call :: calls => Delegated inner g₀ thinkEndId history call ∧
      AllDelegated (referenceCall inner g₀ thinkEndId history call).2 calls

/-- The wrapper after the tokens of a history. -/
structure Wraps (history : List Nat) (w : ReasonerGrammarObject Γ) : Prop where
  thinkEnd : w.thinkEndId = thinkEndId
  thinking : behindThinking thinkEndId history = none → w.isInReasoning = true ∧ w.grammar = g₀
  behind : ∀ tokens, behindThinking thinkEndId history = some tokens →
    w.isInReasoning = false ∧ innerRun inner g₀ tokens = some w.grammar

variable {inner g₀ thinkEndId}

theorem behindThinking_concat (history : List Nat) (token : Nat) : behindThinking thinkEndId (history ++ [token]) =
    match behindThinking thinkEndId history with
    | none => if token = thinkEndId then some [] else none
    | some tokens => some (tokens ++ [token]) := by
  induction history with
  | nil => rfl
  | cons first history ih =>
    rw [List.cons_append, behindThinking, behindThinking]
    split
    next => rfl
    next => exact ih

theorem innerRun_concat {tokens : List Nat} {g : Γ} (h : innerRun inner g₀ tokens = some g) (token : Nat) :
    innerRun inner g₀ (tokens ++ [token]) = inner.acceptToken g token := by
  rw [innerRun, List.foldlM_append, ← innerRun, h]
  simp

theorem wraps_new (g₀ : Γ) (thinkEndId : Nat) : Wraps inner g₀ thinkEndId [] (.new g₀ thinkEndId) :=
  ⟨rfl, fun _ => ⟨rfl, rfl⟩, fun tokens h => by cases h⟩

/-- A further end of thinking does not reach the inner grammar. -/
theorem acceptToken_thinkEnd {w : ReasonerGrammarObject Γ} (h : w.isInReasoning = false) :
    w.acceptToken inner w.thinkEndId = .ok w := by
  obtain ⟨grammar, endId, isInReasoning⟩ := w
  cases h
  simp [ReasonerGrammarObject.acceptToken]

namespace Wraps

variable {history : List Nat} {w : ReasonerGrammarObject Γ}

/-- A token before the end of thinking is accepted, and the end of thinking opens the inner grammar. -/
theorem accept_thinking (h : Wraps inner g₀ thinkEndId history w)
    (hthinking : behindThinking thinkEndId history = none) (token : Nat) : ∃ w', w.acceptToken inner token = .ok w' ∧ Wraps inner g₀ thinkEndId (history ++ [token]) w' := by
  obtain ⟨hin, hgrammar⟩ := h.thinking hthinking
  have hconcat : behindThinking thinkEndId (history ++ [token]) = _ := behindThinking_concat history token
  rw [hthinking] at hconcat
  by_cases htoken : token = thinkEndId
  · have hopened : behindThinking thinkEndId (history ++ [token]) = some [] := by simpa [htoken] using hconcat
    refine ⟨{ w with isInReasoning := false }, ?_, h.thinkEnd, fun hnone => ?_, fun tokens htokens => ?_⟩
    · simp [ReasonerGrammarObject.acceptToken, h.thinkEnd, htoken]
    · rw [hopened] at hnone
      cases hnone
    · rw [hopened] at htokens
      cases htokens
      exact ⟨rfl, congrArg some hgrammar.symm⟩
  · have hstill : behindThinking thinkEndId (history ++ [token]) = none := by simpa [htoken] using hconcat
    refine ⟨w, ?_, h.thinkEnd, fun _ => ⟨hin, hgrammar⟩, fun tokens htokens => ?_⟩
    · simp [ReasonerGrammarObject.acceptToken, h.thinkEnd, htoken, hin]
    · rw [hstill] at htokens
      cases htokens

/-- A token behind the end of thinking is accepted if the inner grammar accepts it. -/
theorem accept_behind (h : Wraps inner g₀ thinkEndId history w) {tokens : List Nat}
    (hbehind : behindThinking thinkEndId history = some tokens) {token : Nat}
    (hend : token = thinkEndId → inner.acceptToken w.grammar token = some w.grammar) :
    match inner.acceptToken w.grammar token with
    | some _ => ∃ w', w.acceptToken inner token = .ok w' ∧ Wraps inner g₀ thinkEndId (history ++ [token]) w'
    | none => ∃ e, w.acceptToken inner token = .error e := by
  obtain ⟨hout, hrun⟩ := h.behind tokens hbehind
  have hconcat : behindThinking thinkEndId (history ++ [token]) = _ := behindThinking_concat history token
  rw [hbehind] at hconcat
  have hnext : ∀ g, inner.acceptToken w.grammar token = some g →
      Wraps inner g₀ thinkEndId (history ++ [token]) { w with grammar := g } := by
    intro g hg
    refine ⟨h.thinkEnd, fun hnone => ?_, fun tokens' htokens' => ?_⟩
    · rw [hconcat] at hnone
      cases hnone
    · rw [hconcat] at htokens'
      cases htokens'
      exact ⟨hout, (innerRun_concat hrun token).trans hg⟩
  by_cases htoken : token = thinkEndId
  · rw [hend htoken]
    refine ⟨w, ?_, ?_⟩
    · rw [htoken, ← h.thinkEnd]
      exact acceptToken_thinkEnd hout
    · exact hnext w.grammar (hend htoken)
  · have hcall : w.acceptToken inner token =
        (inner.accept w.grammar token).map fun grammar => { w with grammar } := by
      simp only [ReasonerGrammarObject.acceptToken, h.thinkEnd, htoken, if_false, hout, Bool.not_false, ne_eq,
        not_false_eq_true, and_self, if_true]
      rfl
    rw [hcall, GrammarObject.accept]
    cases haccept : inner.acceptToken w.grammar token with
    | none => exact ⟨_, rfl⟩
    | some g => exact ⟨_, rfl, hnext g haccept⟩

/-- A delegated call has the reference's outcome. -/
theorem call (h : Wraps inner g₀ thinkEndId history w) {call : GrammarCall}
    (hcall : Delegated inner g₀ thinkEndId history call) :
    (wrapperCall inner w call).1 = (referenceCall inner g₀ thinkEndId history call).1 ∧
      Wraps inner g₀ thinkEndId (referenceCall inner g₀ thinkEndId history call).2 (wrapperCall inner w call).2 := by
  cases hbehind : behindThinking thinkEndId history with
  | none =>
    cases call with
    | acceptToken token =>
      obtain ⟨w', haccept, hnext⟩ := h.accept_thinking hbehind token
      simp only [wrapperCall, referenceCall, hbehind, haccept]
      exact ⟨trivial, hnext⟩
    | rollback k => exact hcall.elim
    | isTerminated =>
      simp only [wrapperCall, referenceCall, hbehind, Option.bind_none]
      exact ⟨rfl, h⟩
    | fillVocabMask row =>
      have hrow : row = freeRow row := hcall hbehind
      simp only [wrapperCall, referenceCall, hbehind, Option.bind_none, ReasonerGrammarObject.fillVocabMask,
        (h.thinking hbehind).1, if_true]
      exact ⟨congrArg _ hrow, h⟩
  | some tokens =>
    obtain ⟨hout, hrun⟩ := h.behind tokens hbehind
    have hstate : (behindThinking thinkEndId history).bind (innerRun inner g₀) = some w.grammar := by
      rw [hbehind]
      exact hrun
    cases call with
    | acceptToken token =>
      have haccept := h.accept_behind hbehind fun htoken => hcall htoken w.grammar hstate
      cases hinner : inner.acceptToken w.grammar token with
      | none =>
        rw [hinner] at haccept
        obtain ⟨e, hraise⟩ := haccept
        simp only [wrapperCall, referenceCall, hbehind, hraise, innerRun_concat hrun, hinner]
        exact ⟨trivial, h⟩
      | some g =>
        rw [hinner] at haccept
        obtain ⟨w', hok, hnext⟩ := haccept
        simp only [wrapperCall, referenceCall, hbehind, hok, innerRun_concat hrun, hinner]
        exact ⟨trivial, hnext⟩
    | rollback k => exact hcall.elim
    | isTerminated =>
      have hnot : inner.isTerminated w.grammar = false := hcall w.grammar hstate
      simp only [wrapperCall, referenceCall, hstate, hnot]
      exact ⟨rfl, h⟩
    | fillVocabMask row =>
      simp only [wrapperCall, referenceCall, hstate, ReasonerGrammarObject.fillVocabMask, hout, Bool.false_eq_true,
        if_false]
      exact ⟨trivial, h⟩

theorem outcomes (h : Wraps inner g₀ thinkEndId history w) {calls : List GrammarCall}
    (hcalls : AllDelegated inner g₀ thinkEndId history calls) :
    wrapperOutcomes inner w calls = referenceOutcomes inner g₀ thinkEndId history calls := by
  induction calls generalizing history w with
  | nil => rfl
  | cons c calls ih =>
    obtain ⟨houtcome, hnext⟩ := h.call hcalls.1
    rw [wrapperOutcomes, referenceOutcomes, houtcome, ih hnext hcalls.2]

end Wraps

/-- On delegated calls the wrapper is the inner grammar behind the end of thinking. -/
theorem reasoner_refines_inner (inner : GrammarObject Γ) (g₀ : Γ) (thinkEndId : Nat) {calls : List GrammarCall}
    (h : AllDelegated inner g₀ thinkEndId [] calls) :
    wrapperOutcomes inner (.new g₀ thinkEndId) calls = referenceOutcomes inner g₀ thinkEndId [] calls :=
  (wraps_new g₀ thinkEndId).outcomes h

end Reasoner

/-- A grammar that takes one token 7 and has terminated then. -/
def oneSeven : GrammarObject Nat where
  acceptToken g token := if g = 0 ∧ token = 7 then some 1 else none
  rollback _ := 0
  isTerminated g := g = 1
  allocateVocabMask _ batchSize := List.replicate batchSize [BitVec.allOnes 32]
  fillVocabMask g := if g = 0 then [128#32] else [0#32]

def sevenCalls : List GrammarCall :=
  [.fillVocabMask [BitVec.allOnes 32], .acceptToken 3, .acceptToken 9, .fillVocabMask [BitVec.allOnes 32],
    .isTerminated, .acceptToken 7]

theorem reasoner_refines_inner_seven :
    wrapperOutcomes oneSeven (.new 0 9) sevenCalls = referenceOutcomes oneSeven 0 9 [] sevenCalls := by
  have hthree : ¬ 3 = 9 := by decide
  have hseven : ¬ 7 = 9 := by decide
  refine reasoner_refines_inner oneSeven 0 9 ⟨fun _ => rfl, fun h => absurd h hthree, fun _ g hg => ?_,
    fun hnone => ?_, fun g hg => ?_, fun h => absurd h hseven, trivial⟩
  · cases hg
  · cases hnone
  · cases hg
    rfl

/-- Behind the end of thinking the tree walk takes a token back. -/
theorem rollback_raises : ¬ ∀ (inner : GrammarObject Nat) (g₀ thinkEndId : Nat) (calls : List GrammarCall),
    wrapperOutcomes inner (.new g₀ thinkEndId) calls = referenceOutcomes inner g₀ thinkEndId [] calls := by
  intro h
  exact absurd (h oneSeven 0 9 [.acceptToken 9, .acceptToken 7, .rollback 1]) (by decide +kernel)

end QCFuse.Guarantees
