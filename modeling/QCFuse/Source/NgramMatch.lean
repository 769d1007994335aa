import QCFuse.Source.NgramCache

/-!
# Matching in the n-gram cache

`match`, `matchBFS`, `matchProb`, `fillResult` and `batchMatch`. What the compiled program takes
from its platform is a parameter: arithmetic on `double`, the order in which an `unordered_map`
filled in some order is walked, and the two heap operations of a `priority_queue`.
-/

set_option autoImplicit false

namespace QCFuse.Source

/-- An entry of the heap: parent position, trie node, probability. -/
abbrev HeapEntry (D : Type) := Nat × Nat × D

structure Platform (D : Type) where
  ofInt : Int → D
  add : D → D → D
  sub : D → D → D
  mul : D → D → D
  div : D → D → D
  le : D → D → Bool
  /-- `int32_t(x)` -/
  toInt : D → Int
  mapOrder : List (Int × Nat) → List (Int × Nat)
  /-- the vector of the heap after `emplace` -/
  emplace : List (HeapEntry D) → HeapEntry D → List (HeapEntry D)
  /-- the vector of the heap, whose head is `top()`, after `pop` -/
  pop : List (HeapEntry D) → List (HeapEntry D)
  mapOrder_perm : ∀ entries, (mapOrder entries).Perm entries
  emplace_perm : ∀ heap entry, (emplace heap entry).Perm (entry :: heap)
  pop_perm : ∀ top heap, (pop (top :: heap)).Perm heap

/-- `next` of a `Node`, in the order of insertion. -/
abbrev DraftNode := List (Int × Nat)

structure NgramResult where
  token : List Int
  mask : List Nat
  deriving DecidableEq, Repr

section Draft

/-- The drafted tree while it is built: its nodes and the next free one. -/
structure DraftTree where
  nodes : List DraftNode
  cursor : Nat
  deriving DecidableEq, Repr

namespace DraftTree

/-- `std::vector<Node> tree(draft_token_num + 1)`, `cursor = 1`. -/
def new (draftTokenNum : Nat) : DraftTree := ⟨List.replicate (draftTokenNum + 1) [], 1⟩

def next (tree : DraftTree) (node : Nat) : DraftNode := tree.nodes.getD node []

/-- The position of `token` below `parent`, a new one if there is none. -/
def place (tree : DraftTree) (parent : Nat) (token : Int) : Nat × DraftTree :=
  match (tree.next parent).find? fun entry => entry.1 = token with
  | some entry => (entry.2, tree)
  | none => (tree.cursor,
    ⟨tree.nodes.set parent (tree.next parent ++ [(token, tree.cursor)]), tree.cursor + 1⟩)

end DraftTree

end Draft

section Fill

variable {D : Type} (platform : Platform D) (tree : DraftTree)

/-- What `fillResult` queues for the children of a node. -/
def fillEntries (node prev : Nat) : List (Int × Nat × Nat) :=
  (platform.mapOrder (tree.next node)).map fun entry => (entry.1, entry.2, prev)

/-- The loop over the queue; a place holds a token and its parent's place. -/
def fillLoop : Nat → List (Int × Nat × Nat) → List (Int × Int) → Except NgramError (List (Int × Int))
  | _, [], places => .ok places
  | 0, _ :: _, _ => .error .undefined
  | fuel + 1, (token, next, prev) :: queue, places =>
    fillLoop fuel (queue ++ fillEntries platform tree next places.length) (places ++ [(token, (prev : Int))])

/-- Row `i` of the mask: what `prevs[i]` sees, and itself. -/
def maskRows (n : Nat) (prevs : List Int) : List (List Nat) :=
  prevs.foldl (fun rows prev =>
    let copied := if prev = -1 then 0 else prev.toNat + 1
    let row := (rows.getD prev.toNat []).take copied
    rows ++ [(row ++ List.replicate (n - copied) 0).set rows.length 1]) []

def fillResult (lastToken : Int) (draftTokenNum : Nat) : Except NgramError NgramResult := do
  let places ← fillLoop platform tree draftTokenNum (fillEntries platform tree 0 0) [(lastToken, -1)]
  let places := places ++ List.replicate (draftTokenNum - places.length) (0, 0)
  return ⟨places.map Prod.fst, (maskRows places.length (places.map Prod.snd)).flatten⟩

/-- `fillResult(tokens.back(), …)`. -/
def fillBack (tokens : List Int) (draftTokenNum : Nat) : Except NgramError NgramResult :=
  match tokens.getLast? with
  | none => .error .undefined
  | some last => fillResult platform tree last draftTokenNum

end Fill

namespace Ngram

variable {D : Type} (platform : Platform D) (s : Ngram)

/-- `match`: the nodes that suffixes of `tokens` lead to, with their lengths, longest first. -/
def matchNodes (tokens : List Int) (batchSize : Nat) : List (Nat × Nat) :=
  let shortest := s.param.getMinMatchWindowSize batchSize
  let longest := min tokens.length s.param.maxMatchWindowSize
  (List.range' shortest (longest + 1 - shortest)).reverse.filterMap fun size =>
    (descend s.nodes s.root (tokens.drop (tokens.length - size))).map fun node => (node, size)

/-! ## `matchBFS` -/

/-- Parent position, breadth and node. -/
abbrev BfsEntry (D : Type) := Nat × D × Nat

/-- The children of one node, as long as there are positions. -/
def bfsChildren (draftTokenNum parent : Nat) (breadth : D) (children : List Nat)
    (start : DraftTree × List (BfsEntry D)) : DraftTree × List (BfsEntry D) :=
  children.foldl (fun (tree, queue) child =>
    if tree.cursor ≤ draftTokenNum then
      let (pos, tree) := tree.place parent (s.nodes child).token
      (tree, queue ++ [(pos, breadth, child)])
    else (tree, queue)) start

def bfsLoop (draftTokenNum : Nat) (scale : D) :
    Nat → DraftTree → List (BfsEntry D) → Except NgramError DraftTree
  | _, tree, [] => .ok tree
  | fuel, tree, (parent, breadth, node) :: queue =>
    if tree.cursor ≤ draftTokenNum then
      match fuel with
      | 0 => .error .undefined
      | fuel + 1 =>
        let width := (max 1 (platform.toInt breadth)).toNat
        let (tree, queue) := bfsChildren s draftTokenNum parent (platform.sub breadth scale)
          ((s.nodes node).lru.take width) (tree, queue)
        bfsLoop draftTokenNum scale fuel tree queue
    else .ok tree

/-- `bfs_breadth_scale`. -/
def bfsBreadthScale : D :=
  platform.div (platform.ofInt (s.param.maxBfsBreadth - s.param.minBfsBreadth))
    (platform.ofInt (s.param.maxMatchWindowSize - s.param.minMatchWindowSize + 1))

/-- The breadth at a node that a suffix of `depth` tokens leads to. -/
def bfsBreadth (depth : Nat) : D :=
  platform.add (platform.mul (platform.ofInt (s.param.maxMatchWindowSize - depth)) (bfsBreadthScale platform s))
    (platform.ofInt s.param.minBfsBreadth)

def matchBFS (tokens : List Int) (batchSize : Nat) : Except NgramError NgramResult := do
  let draftTokenNum := s.param.getDraftTokenNum batchSize
  let tree ← (s.matchNodes tokens batchSize).foldlM (fun tree (node, depth) =>
    bfsLoop platform s draftTokenNum (bfsBreadthScale platform s) (s.capacity + 1) tree
      [(0, bfsBreadth platform s depth, node)]) (DraftTree.new draftTokenNum)
  fillBack platform tree tokens (draftTokenNum + 1)

/-! ## `matchProb` -/

/-- `addToHeap`. -/
def addToHeap (parent node : Nat) (prob : D) (heap : List (HeapEntry D)) : List (HeapEntry D) :=
  let children := (s.nodes node).sortedChildren.take s.param.maxBfsBreadth
  let sum := children.foldl (fun sum child => platform.add sum (platform.ofInt (s.nodes child).freq))
    (platform.ofInt 0)
  let sum := if platform.le sum (platform.ofInt 0) then platform.ofInt 1 else sum
  children.foldl (fun heap child => platform.emplace heap
    (parent, child, platform.mul (platform.div (platform.ofInt (s.nodes child).freq) sum) prob)) heap

def probLoop (draftTokenNum : Nat) :
    Nat → DraftTree → List (HeapEntry D) → Except NgramError (DraftTree × List (HeapEntry D))
  | _, tree, [] => .ok (tree, [])
  | fuel, tree, (parent, node, prob) :: rest =>
    if tree.cursor ≤ draftTokenNum then
      match fuel with
      | 0 => .error .undefined
      | fuel + 1 =>
        let (pos, tree) := tree.place parent (s.nodes node).token
        probLoop draftTokenNum fuel tree
          (addToHeap platform s pos node prob (platform.pop ((parent, node, prob) :: rest)))
    else .ok (tree, (parent, node, prob) :: rest)

def matchProb (tokens : List Int) (batchSize : Nat) : Except NgramError NgramResult := do
  let draftTokenNum := s.param.getDraftTokenNum batchSize
  let (tree, _) ← (s.matchNodes tokens batchSize).foldlM (fun (tree, heap) (node, _) =>
    probLoop platform s draftTokenNum (s.capacity + 1) tree
      (addToHeap platform s 0 node (platform.ofInt 1) heap)) (DraftTree.new draftTokenNum, [])
  fillBack platform tree tokens (draftTokenNum + 1)

def batchMatch (tokens : List (List Int)) : Except NgramError NgramResult := do
  let results ← tokens.mapM fun tks =>
    if s.param.matchType = "BFS" then matchBFS platform s tks tokens.length
    else matchProb platform s tks tokens.length
  return ⟨results.flatMap NgramResult.token, results.flatMap NgramResult.mask⟩

end Ngram

end QCFuse.Source
