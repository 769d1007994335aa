import Mathlib

/-!
# The n-gram cache

`Ngram`: the trie in its node pool, insertion and `squeeze`. A node is its place in `nodes_`, so
pointers compare as places do. An iterator into a list is the entry of its node, of which a list
has one. Reading an empty list or the pool below its start is undefined.
-/

set_option autoImplicit false

namespace QCFuse.Source

/-- `Param`; `max()` in a batch setting is `none`. -/
structure NgramParam where
  minBfsBreadth : Nat
  maxBfsBreadth : Nat
  minMatchWindowSize : Nat
  maxMatchWindowSize : Nat
  branchLength : Nat
  draftTokenNum : Nat
  matchType : String
  batchMinMatchWindowSize : List (Option Nat)
  batchDraftTokenNum : List (Option Nat)
  deriving DecidableEq, Repr

namespace NgramParam

/-- `get_draft_token_num`. -/
def getDraftTokenNum (p : NgramParam) (batchSize : Nat) : Nat :=
  ((p.batchDraftTokenNum[batchSize]?).join).getD (p.draftTokenNum - 1)

/-- `get_min_match_window_size`. -/
def getMinMatchWindowSize (p : NgramParam) (batchSize : Nat) : Nat :=
  ((p.batchMinMatchWindowSize[batchSize]?).join).getD p.minMatchWindowSize

end NgramParam

inductive NgramError where
  | runtimeError (what : String)
  | undefined
  deriving DecidableEq, Repr

/-- `if (!condition) throw std::runtime_error(what)`. -/
def require (condition : Bool) (what : String) : Except NgramError Unit :=
  if condition then .ok () else .error (.runtimeError what)

/-- The checks of the constructor. -/
def NgramParam.check (p : NgramParam) : Except NgramError Unit := do
  require (p.branchLength > 1)
    ("param_.branch_length must be greater than 1, current value: " ++ toString p.branchLength)
  require (p.minMatchWindowSize > 0)
    ("min_match_window_size must be greater than 0, current value: " ++ toString p.minMatchWindowSize)
  require (p.minMatchWindowSize ≤ p.maxMatchWindowSize)
    ("min_match_window_size must be less than or equal to max_match_window_size, current min_match_window_size: " ++
      toString p.minMatchWindowSize ++ ", max_match_window_size: " ++ toString p.maxMatchWindowSize)
  require (p.maxMatchWindowSize < p.branchLength)
    ("max_match_window_size must be less than branch_length, current max_match_window_size: " ++
      toString p.maxMatchWindowSize ++ ", branch_length: " ++ toString p.branchLength)
  require (p.minBfsBreadth > 0)
    ("min_bfs_breadth must be greater than 0, current value: " ++ toString p.minBfsBreadth)
  require (p.minBfsBreadth ≤ p.maxBfsBreadth)
    ("min_bfs_breadth must be less than or equal to max_bfs_breadth, current min_bfs_breadth: " ++
      toString p.minBfsBreadth ++ ", max_bfs_breadth: " ++ toString p.maxBfsBreadth)
  require (p.draftTokenNum > 0)
    ("draft_token_num must be greater than 0, current value: " ++ toString p.draftTokenNum)
  for config in p.batchDraftTokenNum.reduceOption do
    require (config ≤ p.draftTokenNum)
      ("batch_draft_token_num config value " ++ toString config ++
        " must be less than or equal to draft_token_num: " ++ toString p.draftTokenNum)
  for config in p.batchMinMatchWindowSize.reduceOption do
    require (p.minMatchWindowSize ≤ config)
      ("batch_min_match_window_size config value " ++ toString config ++
        " must be greater than or equal to min_match_window_size: " ++ toString p.minMatchWindowSize)
    require (config ≤ p.maxMatchWindowSize)
      ("batch_min_match_window_size config value " ++ toString config ++
        " must be less than or equal to max_match_window_size: " ++ toString p.maxMatchWindowSize)

/-! ## Nodes -/

structure TrieNode where
  child : List (Int × Nat)
  token : Int
  parent : Nat
  lru : List Nat
  freq : Int
  sortedChildren : List Nat
  deriving DecidableEq, Repr

namespace TrieNode

/-- `TrieNode()`. -/
def empty : TrieNode := ⟨[], 0, 0, [], 0, []⟩

/-- `child.find(token)`. -/
def find (node : TrieNode) (token : Int) : Option Nat :=
  (node.child.find? fun entry => entry.1 = token).map Prod.snd

end TrieNode

/-- `freq++` on an `int32_t`. -/
def freqNext (freq : Int) : Int := (freq + 1).bmod (2 ^ 32)

/-- `CompareByFreq`. -/
def compareByFreq (nodes : Nat → TrieNode) (a b : Nat) : Prop :=
  (nodes b).freq < (nodes a).freq ∨ (nodes b).freq = (nodes a).freq ∧
    ((nodes a).token < (nodes b).token ∨ (nodes a).token = (nodes b).token ∧ a < b)

instance (nodes : Nat → TrieNode) : DecidableRel (compareByFreq nodes) := fun a b => by
  unfold compareByFreq
  infer_instance

/-- `sorted_children.insert(node)`. -/
def sortedInsert (nodes : Nat → TrieNode) (node : Nat) (children : List Nat) : List Nat :=
  children.orderedInsert (compareByFreq nodes) node

/-- `sorted_children.erase(node)`: all that compare equal. -/
def sortedErase (nodes : Nat → TrieNode) (node : Nat) (children : List Nat) : List Nat :=
  children.filter fun x => compareByFreq nodes x node ∨ compareByFreq nodes node x

/-- The node that tokens lead to. -/
def descend (nodes : Nat → TrieNode) : Nat → List Int → Option Nat
  | node, [] => some node
  | node, token :: rest => ((nodes node).find token).bind fun next => descend nodes next rest

/-! ## The cache -/

structure Ngram where
  param : NgramParam
  capacity : Nat
  nodes : Nat → TrieNode
  nodePool : List Nat
  freeNodeCount : Nat
  globalLru : List Nat
  root : Nat
  path : List Nat

namespace Ngram

def modify (s : Ngram) (node : Nat) (f : TrieNode → TrieNode) : Ngram :=
  { s with nodes := Function.update s.nodes node (f (s.nodes node)) }

/-- `getNode`. -/
def getNode (s : Ngram) : Except NgramError (Nat × Ngram) :=
  match s.freeNodeCount with
  | 0 => .error .undefined
  | free + 1 =>
    match s.nodePool[free]? with
    | none => .error .undefined
    | some node => .ok (node, { s with freeNodeCount := free }.modify node fun _ => .empty)

/-- `reset`. -/
def reset (s : Ngram) : Except NgramError Ngram := do
  let (root, s) ← getNode { s with
    globalLru := []
    path := []
    nodePool := List.range s.capacity
    freeNodeCount := s.capacity }
  return { s with root }

/-- The constructor. -/
def create (capacity : Nat) (param : NgramParam) : Except NgramError Ngram := do
  let s ← reset {
    param
    capacity
    nodes := fun _ => .empty
    nodePool := []
    freeNodeCount := 0
    globalLru := []
    root := 0
    path := [] }
  param.check
  return s

/-- `last` leaves its parent and goes back to the pool. -/
def release (s : Ngram) (last : Nat) : Ngram :=
  { s.modify (s.nodes last).parent fun parent =>
      { parent with
        lru := parent.lru.erase last
        sortedChildren := sortedErase s.nodes last parent.sortedChildren
        child := parent.child.filter fun entry => entry.1 ≠ (s.nodes last).token } with
    nodePool := s.nodePool.set s.freeNodeCount last
    freeNodeCount := s.freeNodeCount + 1 }

/-- The loop of `squeeze`. -/
def squeezeLoop : Nat → Ngram → Except NgramError Ngram
  | 0, s => .ok s
  | count + 1, s =>
    match s.globalLru.getLast? with
    | none => .error .undefined
    | some last =>
      if (s.nodes last).child ≠ [] then
        .error (.runtimeError "The node to be released still has child nodes and cannot be released. ")
      else squeezeLoop count ({ s with globalLru := s.globalLru.dropLast }.release last)

def squeeze (s : Ngram) (count : Nat) : Except NgramError Ngram :=
  if s.nodePool.length < s.freeNodeCount + count then
    .error (.runtimeError ("Insufficient node size to release required nodes. available to release: " ++
      toString (s.nodePool.length - s.freeNodeCount) ++ ", required to release: " ++ toString count))
  else squeezeLoop count s

/-- A new node below `cursor`. -/
def attach (s : Ngram) (cursor : Nat) (token : Int) : Except NgramError (Nat × Ngram) := do
  let (node, s) ← s.getNode
  let s := { s with globalLru := s.globalLru ++ [node] }.modify node fun n =>
    { n with token, parent := cursor, freq := 1 }
  return (node, s.modify cursor fun n => { n with
    child := n.child ++ [(token, node)]
    lru := node :: n.lru
    sortedChildren := sortedInsert s.nodes node n.sortedChildren })

/-- A node below `cursor` that is there already. -/
def revisit (s : Ngram) (cursor node : Nat) : Ngram :=
  let children := sortedErase s.nodes node (s.nodes cursor).sortedChildren
  let s := s.modify node fun n => { n with freq := freqNext n.freq }
  s.modify cursor fun n => { n with
    sortedChildren := sortedInsert s.nodes node children
    lru := node :: n.lru.erase node }

/-- One token of a window. -/
def enter (s : Ngram) (cursor : Nat) (token : Int) : Except NgramError (Nat × Ngram) :=
  match (s.nodes cursor).find token with
  | none => s.attach cursor token
  | some node => .ok (node, s.revisit cursor node)

/-- The walk of `insert` along a window. -/
def walk : List Int → Nat → Ngram → Except NgramError Ngram
  | [], _, s => .ok s
  | token :: rest, cursor, s => do
    let (node, s) ← s.enter cursor token
    walk rest node { s with path := s.path ++ [node] }

/-- Places for a window. -/
def makeRoom (s : Ngram) (size : Nat) : Except NgramError Ngram :=
  if size > s.freeNodeCount then s.squeeze (size - s.freeNodeCount) else .ok s

/-- One window of `insert`. -/
def insertWindow (s : Ngram) (window : List Int) : Except NgramError Ngram := do
  let s ← s.makeRoom window.length
  let s ← walk window s.root { s with path := [] }
  return { s with globalLru := s.path.foldr (fun node lru => node :: lru.erase node) s.globalLru }

/-- The windows of a sequence. -/
def windows (param : NgramParam) (data : List Int) : List (List Int) :=
  (List.range (data.length - param.minMatchWindowSize)).map fun i => (data.drop i).take param.branchLength

/-- What `insert` does with a sequence from the queue. -/
def insert (s : Ngram) (data : List Int) : Except NgramError Ngram :=
  (windows s.param data).foldlM insertWindow s

end Ngram

end QCFuse.Source
