import QCFuse.Source.RadixCache

/-!
# `SWARadixCache.match_prefix`

The walk over a tree with tombstones and the split it may end by. A node is given by the nodes from the
root's child down to it, the root by none. The LRU lists and the access times, which the walk refreshes,
are left out. Tokens are those the key was converted to.
-/

set_option autoImplicit false

namespace QCFuse.Source

open QCFuse.Library

structure SwaTreeNode (Tok : Type) where
  key : RadixKey Tok
  value : List Int
  swaTombstone : Bool
  fullLockRef : Nat
  swaLockRef : Nat
  swaUuid : Option Nat
  deriving DecidableEq

abbrev SwaChildren (Tok : Type) := Forest (ChildKey Tok) (SwaTreeNode Tok)

/-- The locals of the loop of `_match_prefix_helper`; `none` for an infinite `match_len_since_tombstone`. -/
structure MatchLoop (Tok : Type) where
  node : List (SwaTreeNode Tok)
  value : List (List Int)
  matchLenSinceTombstone : Option Nat
  bestValueLen : Nat
  bestLastNode : List (SwaTreeNode Tok)

section Walk

variable {Tok : Type}

namespace SwaTreeNode

/-- `_split_node`: the new upper node and what is left of the child. -/
def split (child : SwaTreeNode Tok) (splitLen : Nat) : SwaTreeNode Tok × SwaTreeNode Tok :=
  ({ child with key := child.key.take splitLen, value := child.value.take splitLen },
   { child with key := child.key.drop splitLen, value := child.value.drop splitLen, swaUuid := none })

end SwaTreeNode

namespace MatchLoop

def start : MatchLoop Tok := ⟨[], [], none, 0, []⟩

variable (slidingWindowSize : Nat) (loop : MatchLoop Tok)

/-- `match_len_since_tombstone >= self.sliding_window_size`. -/
def reached : Bool := loop.matchLenSinceTombstone.all (slidingWindowSize ≤ ·)

/-- The update before a child is matched. -/
def enter (child : SwaTreeNode Tok) : MatchLoop Tok :=
  if child.swaTombstone && loop.reached slidingWindowSize then
    { loop with
      bestValueLen := loop.value.length
      bestLastNode := loop.node
      matchLenSinceTombstone := some 0 }
  else loop

/-- The matched node becomes `node`. -/
def visit (node : SwaTreeNode Tok) : MatchLoop Tok :=
  { loop with
    node := loop.node ++ [node]
    value := loop.value ++ [node.value]
    matchLenSinceTombstone :=
      if node.swaTombstone then loop.matchLenSinceTombstone
      else loop.matchLenSinceTombstone.map (· + node.value.length) }

/-- The case that the last node is fully matched. -/
def leave : MatchLoop Tok :=
  if loop.reached slidingWindowSize then
    { loop with bestValueLen := loop.value.length, bestLastNode := loop.node }
  else loop

end MatchLoop

/-- The loop of `_match_prefix_helper` below a node with a key that is not empty, and the children as it
leaves them. -/
def swaMatchLoop [DecidableEq Tok] (slidingWindowSize pageSize : Nat) :
    RadixKey Tok → SwaChildren Tok → MatchLoop Tok → MatchLoop Tok × SwaChildren Tok
  | _, .nil, loop => (loop, .nil)
  | key, .cons childKey child below rest, loop =>
    if childKey = getChildKey pageSize key then
      let loop := loop.enter slidingWindowSize child
      let prefixLen := keyMatch pageSize child.key key
      if prefixLen < child.key.len then
        let (upper, lower) := child.split prefixLen
        (loop.visit upper, .cons childKey upper (.cons (getChildKey pageSize lower.key) lower below .nil) rest)
      else
        let key := key.drop prefixLen
        if key.tokenIds = [] then (loop.visit child, .cons childKey child below rest)
        else
          let (loop, below) := swaMatchLoop slidingWindowSize pageSize key below (loop.visit child)
          (loop, .cons childKey child below rest)
    else
      let (loop, rest) := swaMatchLoop slidingWindowSize pageSize key rest loop
      (loop, .cons childKey child below rest)

end Walk

structure SwaRadixCache (Tok : Type) where
  pageSize : Nat
  pageSize_pos : 0 < pageSize
  slidingWindowSize : Nat
  slidingWindowSize_pos : 0 < slidingWindowSize
  disable : Bool
  children : SwaChildren Tok

structure SwaMatchResult (Tok : Type) where
  deviceIndices : List Int
  lastDeviceNode : List (SwaTreeNode Tok)

namespace SwaRadixCache

variable {Tok : Type} [DecidableEq Tok] (cache : SwaRadixCache Tok)

/-- The key cut to whole pages. -/
def alignedKey (key : RadixKey Tok) : RadixKey Tok := key.take (key.len / cache.pageSize * cache.pageSize)

/-- `_match_prefix_helper`. -/
def matchPrefixHelper (key : RadixKey Tok) : List (List Int) × List (SwaTreeNode Tok) × SwaRadixCache Tok :=
  let (loop, children) :=
    if key.len = 0 then (MatchLoop.start, cache.children)
    else swaMatchLoop cache.slidingWindowSize cache.pageSize key cache.children MatchLoop.start
  let loop := loop.leave cache.slidingWindowSize
  (loop.value.take loop.bestValueLen, loop.bestLastNode, { cache with children })

/-- `match_prefix`. -/
def matchPrefix (key : RadixKey Tok) : SwaMatchResult Tok × SwaRadixCache Tok :=
  if cache.disable || key.len = 0 then (⟨[], []⟩, cache)
  else
    let (value, lastNode, cache) := cache.matchPrefixHelper (cache.alignedKey key)
    (⟨value.flatten, lastNode⟩, cache)

end SwaRadixCache

end QCFuse.Source
