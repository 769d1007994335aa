import QCFuse.Library.Forest
import QCFuse.Source.Python

/-!
# The radix cache

`RadixCache`, enabled and without cache events. A node object is its `id`; parent pointers are
the nesting of the dictionaries, so the walk from a node to the root changes the path above it.
Tokens are those the key was converted to: ids, or bigrams for EAGLE. `time.monotonic()` moves
on with every node a walk visits.
-/

set_option autoImplicit false

namespace QCFuse.Source

open QCFuse.Library

structure RadixKey (Tok : Type) where
  tokenIds : List Tok
  extraKey : Option String
  deriving DecidableEq, Repr

structure TreeNode (Tok : Type) where
  id : Nat
  key : RadixKey Tok
  value : List Int
  lockRef : Int
  lastAccessTime : Int
  creationTime : Int
  hitCount : Int
  deriving DecidableEq, Repr

/-- What `get_child_key` returns: the first page under the extra key. -/
abbrev ChildKey (Tok : Type) := Option String × List Tok

abbrev Children (Tok : Type) := Forest (ChildKey Tok) (TreeNode Tok)

section Keys

variable {Tok : Type}

namespace RadixKey

/-- `len(key)`. -/
def len (key : RadixKey Tok) : Nat := key.tokenIds.length

/-- `key[:n]`. -/
def take (key : RadixKey Tok) (n : Nat) : RadixKey Tok := { key with tokenIds := key.tokenIds.take n }

/-- `key[n:]`. -/
def drop (key : RadixKey Tok) (n : Nat) : RadixKey Tok := { key with tokenIds := key.tokenIds.drop n }

end RadixKey

/-- `get_child_key`; for pages of one token the source keeps the bare token. -/
def getChildKey (pageSize : Nat) (key : RadixKey Tok) : ChildKey Tok :=
  (key.extraKey, key.tokenIds.take pageSize)

/-- The loop of `_key_match_paged` on what is left of the two keys. -/
def keyMatchLoop [DecidableEq Tok] (pageSize : Nat) : Nat → List Tok → List Tok → Nat
  | 0, _, _ => 0
  | fuel + 1, key0, key1 =>
    if key0 = [] ∨ key1 = [] then 0
    else if key0.take pageSize ≠ key1.take pageSize then 0
    else pageSize + keyMatchLoop pageSize fuel (key0.drop pageSize) (key1.drop pageSize)

/-- `_key_match_paged`, and with pages of one token `_key_match_page_size1`. The extra keys are
equal wherever it is called, since child keys hold them. -/
def keyMatch [DecidableEq Tok] (pageSize : Nat) (key0 key1 : RadixKey Tok) : Nat :=
  keyMatchLoop pageSize (min key0.len key1.len) key0.tokenIds key1.tokenIds

end Keys

/-! ## Eviction policies -/

inductive EvictionPolicy where
  | lru | lfu | fifo | mru | filo
  deriving DecidableEq, Repr

/-- `get_priority`; a single number comes first in a pair. -/
def EvictionPolicy.getPriority {Tok : Type} (policy : EvictionPolicy) (node : TreeNode Tok) : Int × Int :=
  match policy with
  | .lru => (node.lastAccessTime, 0)
  | .lfu => (node.hitCount, node.lastAccessTime)
  | .fifo => (node.creationTime, 0)
  | .mru => (-node.lastAccessTime, 0)
  | .filo => (-node.creationTime, 0)

/-- `(priority, node) < (priority', node')`. -/
def EvictionPolicy.entryLt {Tok : Type} (policy : EvictionPolicy) (a b : TreeNode Tok) : Bool :=
  let p := policy.getPriority a
  let q := policy.getPriority b
  p.1 < q.1 || (p.1 = q.1 && (p.2 < q.2 || (p.2 = q.2 && a.lastAccessTime < b.lastAccessTime)))

/-- `heapq.heappop`: a smallest entry and the others. -/
def heappop {α : Type} (lt : α → α → Bool) : List α → Option (α × List α)
  | [] => none
  | x :: xs =>
    match heappop lt xs with
    | none => some (x, [])
    | some (y, ys) => if lt y x then some (y, x :: ys) else some (x, xs)

theorem heappop_perm {α : Type} (lt : α → α → Bool) {heap rest : List α} {x : α}
    (h : heappop lt heap = some (x, rest)) : heap.Perm (x :: rest) := by
  induction heap generalizing x rest with
  | nil => cases h
  | cons a heap ih =>
    unfold heappop at h
    split at h
    next hnone =>
      cases h
      cases heap with
      | nil => exact List.Perm.refl _
      | cons b heap =>
        unfold heappop at hnone
        split at hnone
        · cases hnone
        · split at hnone <;> cases hnone
    next y ys hsome =>
      split at h
      next =>
        cases h
        exact ((ih hsome).cons a).trans (List.Perm.swap _ _ _)
      next =>
        cases h
        exact List.Perm.refl _

theorem heappop_isSome {α : Type} (lt : α → α → Bool) (x : α) (heap : List α) :
    ∃ y rest, heappop lt (x :: heap) = some (y, rest) := by
  unfold heappop
  split
  · exact ⟨_, _, rfl⟩
  · split <;> exact ⟨_, _, rfl⟩

/-! ## The tree walks -/

section Walks

variable {Tok : Type}

/-- `_split_node`: the new upper half and what is left of the child. -/
def splitNode (now : Int) (newId : Nat) (child : TreeNode Tok) (splitLen : Nat) :
    TreeNode Tok × TreeNode Tok :=
  ({ id := newId
     key := child.key.take splitLen
     value := child.value.take splitLen
     lockRef := child.lockRef
     lastAccessTime := now
     creationTime := now
     hitCount := 0 },
   { child with key := child.key.drop splitLen, value := child.value.drop splitLen })

/-- The node `_insert_helper` makes for what is not in the tree yet. -/
def newLeaf (now : Int) (newId : Nat) (key : RadixKey Tok) (value : List Int) : TreeNode Tok :=
  { id := newId, key, value, lockRef := 0, lastAccessTime := now, creationTime := now, hitCount := 0 }

def TreeNode.touch (node : TreeNode Tok) (now : Int) : TreeNode Tok := { node with lastAccessTime := now }

/-- The walk of `_match_prefix_helper` below a node: the values found, the node it ends at, if that
is not the node it started from, and the children as it leaves them. -/
def matchPrefixHelper [DecidableEq Tok] (pageSize newId : Nat) :
    Int → RadixKey Tok → Children Tok → List (List Int) × Option Nat × Children Tok
  | _, _, .nil => ([], none, .nil)
  | now, key, .cons childKey child below rest =>
    if childKey = getChildKey pageSize key then
      let prefixLen := keyMatch pageSize child.key key
      if prefixLen < child.key.len then
        let (upper, lower) := splitNode now newId (child.touch now) prefixLen
        ([upper.value], some upper.id,
          .cons childKey upper (.cons (getChildKey pageSize lower.key) lower below .nil) rest)
      else
        let key := key.drop prefixLen
        if key.tokenIds = [] then
          ([child.value], some child.id, .cons childKey (child.touch now) below rest)
        else
          let (values, last, below) := matchPrefixHelper pageSize newId (now + 1) key below
          (child.value :: values, some (last.getD child.id),
            .cons childKey (child.touch now) below rest)
    else
      let (values, last, rest) := matchPrefixHelper pageSize newId now key rest
      (values, last, .cons childKey child below rest)

/-- The walk of `_insert_helper` below a node with a key that is not empty: the length already
present, and the children as it leaves them. The page behind a split is not that of the lower
half, so a leaf goes next to it. -/
def insertHelper [DecidableEq Tok] (pageSize newId : Nat) :
    Int → RadixKey Tok → List Int → Children Tok → Nat × Children Tok
  | now, key, value, .nil =>
    (0, .cons (getChildKey pageSize key) (newLeaf now newId key value) .nil .nil)
  | now, key, value, .cons childKey child below rest =>
    if childKey = getChildKey pageSize key then
      let prefixLen := keyMatch pageSize child.key key
      let key := key.drop prefixLen
      let value := value.drop prefixLen
      if prefixLen < child.key.len then
        let (upper, lower) := splitNode now newId (child.touch now) prefixLen
        let leaf := if key.tokenIds = [] then .nil
          else .cons (getChildKey pageSize key) (newLeaf now (newId + 1) key value) .nil .nil
        (prefixLen, .cons childKey upper (.cons (getChildKey pageSize lower.key) lower below leaf) rest)
      else if key.tokenIds = [] then (prefixLen, .cons childKey (child.touch now) below rest)
      else
        let (present, below) := insertHelper pageSize newId (now + 1) key value below
        (prefixLen + present, .cons childKey (child.touch now) below rest)
    else
      let (present, rest) := insertHelper pageSize newId now key value rest
      (present, .cons childKey child below rest)

/-- The loop of `evict`, with the tokens still wanted: each pass takes an entry off the heap, and an
evicted node may bring its parent. Returns the children and the nodes evicted, in order. -/
def evictLoop (policy : EvictionPolicy) (rootNode : TreeNode Tok) :
    Nat → List (TreeNode Tok) → Int → Children Tok → Children Tok × List (TreeNode Tok)
  | 0, _, _, children => (children, [])
  | fuel + 1, heap, wanted, children =>
    if wanted ≤ 0 then (children, [])
    else match heappop policy.entryLt heap with
      | none => (children, [])
      | some (x, heap) =>
        if x.id = rootNode.id then (children, [])
        else if x.lockRef > 0 then evictLoop policy rootNode fuel heap wanted children
        else
          let hit := fun node : TreeNode Tok => node.id = x.id
          -- `x.parent`, where no child is left to it
          let parent := if children.onlyHit hit then some rootNode else children.onlyChildOf hit
          let (children, evicted) := evictLoop policy rootNode fuel (parent.toList ++ heap)
            (wanted - x.value.length) (children.erase hit)
          (children, x :: evicted)

end Walks

/-! ## The cache -/

structure RadixCache (Tok : Type) where
  pageSize : Nat
  pageSize_pos : 0 < pageSize
  policy : EvictionPolicy
  rootNode : TreeNode Tok
  children : Children Tok
  evictableSize : Int
  protectedSize : Int
  /-- `TreeNode.counter`. -/
  counter : Nat

structure MatchResult where
  deviceIndices : List Int
  lastDeviceNode : Nat
  deriving DecidableEq, Repr

namespace RadixCache

variable {Tok : Type}

/-- `reset()`. -/
def reset (pageSize : Nat) (h : 0 < pageSize) (policy : EvictionPolicy) (now : Int) : RadixCache Tok where
  pageSize := pageSize
  pageSize_pos := h
  policy := policy
  rootNode := { newLeaf now 0 ⟨[], none⟩ [] with lockRef := 1 }
  children := .nil
  evictableSize := 0
  protectedSize := 0
  counter := 1

/-- The cache once a walk has left `children`; each new node took an id. -/
def walked (c : RadixCache Tok) (now : Int) (children : Children Tok) : RadixCache Tok :=
  { c with
    rootNode := c.rootNode.touch now
    children
    counter := c.counter + (children.nodes.length - c.children.nodes.length) }

def matchPrefix [DecidableEq Tok] (c : RadixCache Tok) (now : Int) (key : RadixKey Tok) :
    MatchResult × RadixCache Tok :=
  let key := key.take (key.len / c.pageSize * c.pageSize)
  if key.len = 0 then (⟨[], c.rootNode.id⟩, c)
  else
    let (value, last, children) := matchPrefixHelper c.pageSize c.counter (now + 1) key c.children
    (⟨value.flatten, last.getD c.rootNode.id⟩, c.walked now children)

/-- `insert`: the length that was already present. -/
def insert [DecidableEq Tok] (c : RadixCache Tok) (now : Int) (key : RadixKey Tok) (value : List Int) :
    Nat × RadixCache Tok :=
  if key.len = 0 then (0, { c with rootNode := c.rootNode.touch now })
  else
    let (present, children) := insertHelper c.pageSize c.counter (now + 1) key value c.children
    (present, { c.walked now children with
      evictableSize := c.evictableSize + (key.len - present : Nat) })

/-- The key lengths of the nodes with that lock count, on the path from a node to the root. -/
def pathSize (c : RadixCache Tok) (node : Nat) (lockRef : Int) : Int :=
  (((c.children.pathNodes fun n => n.id = node).filter (·.lockRef = lockRef)).map
    fun n => (n.key.len : Int)).sum

def incLockRef (c : RadixCache Tok) (node : Nat) : RadixCache Tok :=
  { c with
    evictableSize := c.evictableSize - c.pathSize node 0
    protectedSize := c.protectedSize + c.pathSize node 0
    children := c.children.mapPath (·.id = node) fun n => { n with lockRef := n.lockRef + 1 } }

def decLockRef (c : RadixCache Tok) (node : Nat) : RadixCache Tok :=
  { c with
    evictableSize := c.evictableSize + c.pathSize node 1
    protectedSize := c.protectedSize - c.pathSize node 1
    children := c.children.mapPath (·.id = node) fun n => { n with lockRef := n.lockRef - 1 } }

/-- `evict`: the nodes evicted, whose values are freed one after the other. The heap never holds
more than one entry a node and the root's. -/
def evict (c : RadixCache Tok) (numTokens : Int) : List (TreeNode Tok) × RadixCache Tok :=
  let leaves := if c.children.isNil then [c.rootNode] else c.children.leaves
  let (children, evicted) := evictLoop c.policy c.rootNode (2 * c.children.nodes.length + 1) leaves
    numTokens c.children
  (evicted, { c with
    children
    evictableSize := c.evictableSize - (evicted.map fun n => (n.key.len : Int)).sum })

end RadixCache

end QCFuse.Source
