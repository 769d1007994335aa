import QCFuse.Source.IndiceSelect

/-!
# Drafting a tree of tokens

`select_top_k_tokens`, the loop of `draft_forward` and `organize_draft_results`, for one request of the
batch. The draft model and the calls of `torch.topk` are parameters; probabilities are exact.
-/

set_option autoImplicit false

namespace QCFuse.Source

section Draft

variable {H : Type}

/-- For each beam the top-k probabilities and tokens of a forward, and the hidden state. -/
structure DraftOutput (H : Type) where
  topkP : List (List Rat)
  topkIndex : List (List Nat)
  hiddenStates : List H

/-- What `select_top_k_tokens` returns, with the flattened entries of `tree_info`. -/
structure DraftStep (H : Type) where
  inputIds : List Nat
  hiddenStates : List H
  scores : List Rat
  treeScores : List Rat
  treeTokens : List Nat
  treeParents : List Int

/-- `scores.unsqueeze(2) * topk_p`. -/
def expandScores (scores : List Rat) (topkP : List (List Rat)) : List Rat :=
  (List.zipWith (fun score row => row.map fun p => score * p) scores topkP).flatten

/-- `select_top_k_tokens`. -/
def selectTopKTokens (fastTopk : TopK Rat) (i : Nat) (out : DraftOutput H) (scores : List Rat) (topk : Nat) :
    DraftStep H :=
  if i = 0 then
    { inputIds := out.topkIndex.flatten
      hiddenStates := out.hiddenStates.flatMap fun hidden => List.replicate topk hidden
      scores := out.topkP.flatten
      treeScores := out.topkP.flatten
      treeTokens := out.topkIndex.flatten
      treeParents := (List.range (topk + 1)).map fun (n : Nat) => (n : Int) - 1 }
  else
    let topkCsIndex := fastTopk.run (expandScores scores out.topkP) topk
    { inputIds := topkCsIndex.map fun c => out.topkIndex.flatten.getD c 0
      hiddenStates := topkCsIndex.filterMap fun c => out.hiddenStates[c / topk]?
      scores := topkCsIndex.map fun c => (expandScores scores out.topkP).getD c 0
      treeScores := expandScores scores out.topkP
      treeTokens := out.topkIndex.flatten
      treeParents := topkCsIndex.map fun (c : Nat) => (c : Int) + (topk ^ 2 * (i - 1) + topk : Nat) }

/-- What a run of `draft_forward` is given: the last extend's output, the draft model and the beams'
`fast_topk` at each step. -/
structure DraftRun (H : Type) where
  first : DraftOutput H
  forward : Nat → List Nat → List H → DraftOutput H
  fastTopk : Nat → TopK Rat

variable (run : DraftRun H) (topk : Nat)

/-- The output and the scores that turn `i` of the loop starts with. -/
def draftVars : Nat → DraftOutput H × List Rat
  | 0 => (run.first, [])
  | i + 1 =>
    let step := selectTopKTokens (run.fastTopk i) i (draftVars i).1 (draftVars i).2 topk
    (run.forward i step.inputIds step.hiddenStates, step.scores)

/-- Turn `i` of the loop. -/
def draftStep (i : Nat) : DraftStep H :=
  selectTopKTokens (run.fastTopk i) i (draftVars run topk i).1 (draftVars run topk i).2 topk

/-- What `organize_draft_results` returns. -/
structure DraftSelection where
  parentList : List Int
  topScoresIndex : List Nat
  draftTokens : List Nat
  deriving DecidableEq, Repr

/-- `organize_draft_results`. -/
def organizeDraftResults (topScores : TopK Rat) (steps : List (DraftStep H)) (numDraftToken : Nat) :
    Py DraftSelection :=
  let scoreList := steps.flatMap DraftStep.treeScores
  let tokenList := steps.flatMap DraftStep.treeTokens
  if steps.isEmpty then .error (.runtimeError "torch.cat(): expected a non-empty list of Tensors")
  else if numDraftToken = 0 ∨ scoreList.length < numDraftToken - 1 then
    .error (.runtimeError "selected index k out of range")
  else
    let topScoresIndex := (topScores.run scoreList (numDraftToken - 1)).mergeSort
    .ok {
      parentList := if 1 < steps.length then steps.dropLast.flatMap DraftStep.treeParents else []
      topScoresIndex
      draftTokens := topScoresIndex.map fun s => tokenList.getD s 0 }

/-- `draft_forward`. -/
def draftForward (topScores : TopK Rat) (speculativeNumSteps numDraftToken : Nat) : Py DraftSelection :=
  organizeDraftResults topScores ((List.range speculativeNumSteps).map (draftStep run topk)) numDraftToken

end Draft

end QCFuse.Source
