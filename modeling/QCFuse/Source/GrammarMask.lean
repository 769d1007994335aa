import QCFuse.Library.Slices
import QCFuse.Source.FinishCheck

/-!
# Grammar masks over draft trees

`traverse_tree` and `generate_token_bitmask`, which fill the rows of the vocabulary mask before a draft
tree is verified, and the acceptance loop of `EagleVerifyInput.verify` after it. The grammar object is a
parameter.
-/

set_option autoImplicit false

namespace QCFuse.Source

open QCFuse.Library

/-- A row of the mask: the boolean values of 32 tokens in each integer. -/
abbrev MaskRow := List (BitVec 32)

/-- `(row[token_id // 32] & (1 << (token_id % 32))) != 0`. -/
def maskBit (row : MaskRow) (tokenId : Nat) : Py Bool := do
  let value ← pyIndex row ((tokenId / 32 : Nat) : Int)
  return value.getLsbD (tokenId % 32)

/-- The methods of `BaseGrammarObject` that are called here, on the grammar's states. -/
structure GrammarObject (Γ : Type) where
  /-- `none` where `accept_token` raises. -/
  acceptToken : Γ → Nat → Option Γ
  /-- `rollback(1)`. -/
  rollback : Γ → Γ
  isTerminated : Γ → Bool
  allocateVocabMask : (vocabSize batchSize : Nat) → List MaskRow
  /-- The row that `fill_vocab_mask` writes. -/
  fillVocabMask : Γ → MaskRow

section Traverse

variable {Γ : Type} (grammar : GrammarObject Γ)

/-- `grammar.accept_token(token)`. -/
def GrammarObject.accept (g : Γ) (token : Nat) : Py Γ :=
  match grammar.acceptToken g token with
  | some g => .ok g
  | none => .error (.valueError "Tokens not accepted")

variable (retrieveNextToken retrieveNextSibling : List Int) (draftTokens : List Nat)

/-- `dfs`; the first argument is how deep the recursion may still go. -/
def dfs : Nat → Int → Int → Γ → List MaskRow → Py (Γ × List MaskRow)
  | 0, _, _, _, _ => .error (.runtimeError "maximum recursion depth exceeded")
  | depth + 1, curr, parentPos, g, tokenBitmask => do
    let accepted ←
      if curr = 0 then .ok true
      else do
        let parentBitmask ← pyIndex tokenBitmask parentPos
        let currTokenId ← pyIndex draftTokens curr
        maskBit parentBitmask currTokenId
    let (g, tokenBitmask) ←
      if accepted then do
        let g ←
          if curr ≠ 0 then do
            let currTokenId ← pyIndex draftTokens curr
            grammar.accept g currTokenId
          else .ok g
        let (g, tokenBitmask) ←
          if grammar.isTerminated g then .ok (g, tokenBitmask)
          else do
            let tokenBitmask := tokenBitmask.set curr.toNat (grammar.fillVocabMask g)
            let child ← pyIndex retrieveNextToken curr
            if child ≠ -1 then dfs depth child curr g tokenBitmask else .ok (g, tokenBitmask)
        .ok (if curr ≠ 0 then grammar.rollback g else g, tokenBitmask)
      else .ok (g, tokenBitmask)
    let sibling ← pyIndex retrieveNextSibling curr
    if sibling ≠ -1 then dfs depth sibling parentPos g tokenBitmask else .ok (g, tokenBitmask)

/-- `traverse_tree`. -/
def traverseTree (g : Γ) (tokenBitmask : List MaskRow) : Py (Γ × List MaskRow) :=
  if retrieveNextToken.length = retrieveNextSibling.length ∧ retrieveNextSibling.length = draftTokens.length then
    dfs grammar retrieveNextToken retrieveNextSibling draftTokens draftTokens.length 0 (-1) g
      (tokenBitmask.map fun row => row.map fun _ => 0)
  else .error (.runtimeError "AssertionError")

end Traverse

/-- The links and tokens of a request's draft tree. -/
structure DraftLinks where
  retrieveNextToken : List Int
  retrieveNextSibling : List Int
  draftTokens : List Nat

section Generate

variable {Γ : Type} (grammar : GrammarObject Γ)

/-- A turn of the loop of `generate_token_bitmask`, for request `i` of `batchSize / numDraftTokens`. -/
def generateRow (numDraftTokens batchSize vocabSize : Nat) (links : List DraftLinks)
    (out : List (Option Γ) × Option (List MaskRow)) (req : Option Γ × Nat) :
    Py (List (Option Γ) × Option (List MaskRow)) :=
  match req.1 with
  | none => .ok (out.1 ++ [none], out.2)
  | some g => do
    let tokenBitmask := out.2.getD (grammar.allocateVocabMask vocabSize batchSize)
    let tree ← pyIndex links (req.2 : Int)
    let (g, rows) ← traverseTree grammar tree.retrieveNextToken tree.retrieveNextSibling tree.draftTokens g
      (slice tokenBitmask (req.2 * numDraftTokens) numDraftTokens)
    return (out.1 ++ [some g], some (overwrite tokenBitmask (req.2 * numDraftTokens) rows))

/-- `generate_token_bitmask`, with the grammars it leaves behind. -/
def generateTokenBitmask (numDraftTokens : Nat) (reqs : List (Option Γ)) (links : List DraftLinks)
    (vocabSize : Nat) : Py (List (Option Γ) × Option (List MaskRow)) :=
  if reqs.length = links.length then
    reqs.zipIdx.foldlM (generateRow grammar numDraftTokens (links.length * numDraftTokens) vocabSize links) ([], none)
  else .error (.runtimeError "AssertionError")

end Generate

section Accept

variable {Γ R : Type} (grammar : GrammarObject Γ) (search : R → Text → Bool) (predict : List Nat)

/-- The loop over a row of `accept_index` in `EagleVerifyInput.verify`. -/
def acceptRow : List Int → StopReq R × Option Γ → Py (StopReq R × Option Γ)
  | [], req => .ok req
  | idx :: row, (req, g) =>
    if idx = -1 then .ok (req, g)
    else do
      let id ← pyIndex predict idx
      let req ← { req with
        outputIds := req.outputIds ++ [(id : Int)]
        grammar := g.map grammar.isTerminated }.checkFinished search 1
      if req.finished then .ok (req, g)
      else
        match g with
        | none => acceptRow row (req, none)
        | some g => do
          let g ← grammar.accept g id
          acceptRow row (req, some g)

/-- The loop over the requests. -/
def acceptRows (reqs : List (StopReq R × Option Γ)) (acceptIndex : List (List Int)) :
    Py (List (StopReq R × Option Γ)) :=
  (reqs.zip acceptIndex).mapM fun entry => acceptRow grammar search predict entry.2 entry.1

end Accept

end QCFuse.Source
