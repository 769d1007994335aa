import QCFuse.Library.Slices
import QCFuse.Source.BlendRequest
import QCFuse.Source.RadixCache

/-!
# Requests in the radix cache

`cache_finished_req` and `cache_unfinished_req`, enabled and without EAGLE. What they hand to the
allocator is returned, one list for each call of `free`.
-/

set_option autoImplicit false

namespace QCFuse.Source

open QCFuse.Library

/-- A request with its entries of `req_to_token`, as far as they are written. -/
structure CachedReq where
  originInputIds : List Nat
  outputIds : List Nat
  fillIds : List Nat
  extraKey : Option String
  blendStyle : Option BlendStyle
  prefixIndices : List Int
  lastNode : Nat
  lastMatchedPrefixLen : Nat
  row : List Int
  deriving DecidableEq

/-- `xs[start:stop]` for indices that are not negative. -/
def pySlice {α : Type} (xs : List α) (start stop : Nat) : List α := (xs.take stop).drop start

/-- `len // page_size * page_size`. -/
def pageAligned (pageSize len : Nat) : Nat := len / pageSize * pageSize

namespace RadixCache

/-- `cache_finished_req`: what is freed. Requests of any blend style give all back and are not
unlocked. -/
def cacheFinishedReq (c : RadixCache Nat) (now : Int) (req : CachedReq) (isInsert : Bool) :
    List (List Int) × RadixCache Nat :=
  let allTokenLen := req.originInputIds.length + (req.outputIds.length - 1)
  let kvIndices := req.row.take allTokenLen
  if req.blendStyle.isSome then ([kvIndices], c)
  else
    let tokenIds := (req.originInputIds ++ req.outputIds).take allTokenLen
    let pageAlignedLen := pageAligned c.pageSize allTokenLen
    let oldPrefixLen := req.prefixIndices.length
    let tail := kvIndices.drop pageAlignedLen
    if isInsert then
      let (newPrefixLen, c) := c.insert now ⟨tokenIds.take pageAlignedLen, req.extraKey⟩
        (kvIndices.take pageAlignedLen)
      ([pySlice kvIndices oldPrefixLen newPrefixLen, tail], c.decLockRef req.lastNode)
    else ([pySlice kvIndices oldPrefixLen pageAlignedLen, tail], c.decLockRef req.lastNode)

/-- `cache_unfinished_req`: the request as it goes on, and what is freed. -/
def cacheUnfinishedReq (c : RadixCache Nat) (now later : Int) (req : CachedReq) :
    CachedReq × List (List Int) × RadixCache Nat :=
  if req.blendStyle.isSome then (req, [], c)
  else
    let kvIndices := req.row.take req.fillIds.length
    let pageAlignedLen := pageAligned c.pageSize req.fillIds.length
    let key : RadixKey Nat := ⟨req.fillIds.take pageAlignedLen, req.extraKey⟩
    let oldPrefixLen := req.prefixIndices.length
    let (newPrefixLen, c) := c.insert now key (kvIndices.take pageAlignedLen)
    let (new, c) := c.matchPrefix later key
    let newIndices := new.deviceIndices
    ({ req with
        row := overwrite req.row oldPrefixLen (newIndices.drop oldPrefixLen)
        lastMatchedPrefixLen := newIndices.length
        prefixIndices :=
          if c.pageSize ≠ 1 then newIndices ++ kvIndices.drop newIndices.length else newIndices
        lastNode := new.lastDeviceNode },
      [pySlice kvIndices oldPrefixLen newPrefixLen],
      (c.decLockRef req.lastNode).incLockRef new.lastDeviceNode)

end RadixCache

end QCFuse.Source
