import QCFuse.Source.GrammarMask

/-!
# The reasoner's grammar object

`ReasonerGrammarObject` around a grammar object: the methods that it overrides, and `rollback` and
`is_terminated`, which it has from `BaseGrammarObject`.
-/

set_option autoImplicit false

namespace QCFuse.Source

structure ReasonerGrammarObject (Γ : Type) where
  grammar : Γ
  thinkEndId : Nat
  isInReasoning : Bool

namespace ReasonerGrammarObject

variable {Γ : Type} (inner : GrammarObject Γ)

def new (grammar : Γ) (thinkEndId : Nat) : ReasonerGrammarObject Γ := ⟨grammar, thinkEndId, true⟩

def acceptToken (w : ReasonerGrammarObject Γ) (token : Nat) : Py (ReasonerGrammarObject Γ) :=
  let w := if token = w.thinkEndId then { w with isInReasoning := false } else w
  if !w.isInReasoning ∧ token ≠ w.thinkEndId then do
    let grammar ← inner.accept w.grammar token
    return { w with grammar }
  else .ok w

/-- Inherited: `raise NotImplementedError()`. -/
def rollback (_ : ReasonerGrammarObject Γ) (_ : Nat) : Py (ReasonerGrammarObject Γ) :=
  .error (.runtimeError "NotImplementedError")

/-- Inherited. -/
def isTerminated (_ : ReasonerGrammarObject Γ) : Bool := false

def allocateVocabMask (_ : ReasonerGrammarObject Γ) (vocabSize batchSize : Nat) : List MaskRow :=
  inner.allocateVocabMask vocabSize batchSize

/-- What `fill_vocab_mask` makes of a row. -/
def fillVocabMask (w : ReasonerGrammarObject Γ) (row : MaskRow) : MaskRow :=
  if w.isInReasoning then row else inner.fillVocabMask w.grammar

end ReasonerGrammarObject

end QCFuse.Source
