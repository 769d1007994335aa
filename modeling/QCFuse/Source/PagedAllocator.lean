import QCFuse.Library.Paging
import QCFuse.Source.Python

/-!
# The paged allocator of the K/V pool

`PagedTokenToKVPoolAllocator` and its two kernels. A kernel program is the list of stores it
makes; programs write disjoint places, so their order is that of the grid. Debug mode is off.
-/

set_option autoImplicit false

namespace QCFuse.Source

open QCFuse.Library

/-- What the kernels read and the program does not decide: masked lanes, memory behind the free
pages, the contents of `torch.empty`. -/
structure KernelMemory where
  masked : Nat → Nat
  beyond : Nat → Int
  uninit : Nat → Int

namespace KernelMemory

/-- `tl.load(lens_ptr + load_offset, mask=load_offset <= pid)`. -/
def loadLens (mem : KernelMemory) (lens : List Nat) (bsUpper pid : Nat) : List Nat :=
  (List.range bsUpper).map fun lane => if lane ≤ pid then lens.getD lane 0 else mem.masked lane

/-- `tl.load(free_page_ptr + i)`. -/
def loadPage (mem : KernelMemory) (freePages : List Int) (i : Nat) : Int :=
  freePages.getD i (mem.beyond i)

/-- `torch.empty((n,))`. -/
def empty (mem : KernelMemory) (n : Nat) : List Int := (List.range n).map mem.uninit

end KernelMemory

/-- `next_power_of_2`. -/
def nextPowerOf2 (n : Nat) : Nat := if 0 < n then 1 <<< Nat.size (n - 1) else 1

theorem le_nextPowerOf2 (n : Nat) : n ≤ nextPowerOf2 n := by
  unfold nextPowerOf2
  split
  next h =>
    have hsize := Nat.lt_size_self (n - 1)
    rw [Nat.one_shiftLeft]
    omega
  next => omega

/-- `tl.sum(a - b)` over the lanes; `b` is never the larger. -/
def sumDiff (a b : List Nat) : Nat := (List.zipWith (· - ·) a b).sum

/-- The stores of program `pid` of `alloc_extend_kernel`. -/
def allocExtendKernel (mem : KernelMemory) (prefixLens seqLens : List Nat) (lastLocs freePages : List Int)
    (bsUpper pageSize maxNumExtendTokens pid : Nat) : List (Nat × Int) :=
  let seqLensV := mem.loadLens seqLens bsUpper pid
  let preLensV := mem.loadLens prefixLens bsUpper pid
  let seqLen := seqLens.getD pid 0
  let preLen := prefixLens.getD pid 0
  let extendLen := seqLen - preLen
  let sumExtendLens := sumDiff seqLensV preLensV
  let outputStartLoc := sumExtendLens - extendLen
  let numPageStartLocSelf := pagesOf pageSize seqLen - pagesOf pageSize preLen
  let sumNumNewPages := sumDiff (seqLensV.map (pagesOf pageSize)) (preLensV.map (pagesOf pageSize))
  let newPageStartLoc := sumNumNewPages - numPageStartLocSelf
  let lastLoc := lastLocs.getD pid 0
  let numPart1 := min seqLen (pagesOf pageSize preLen * pageSize) - preLen
  let part1 := ((List.range pageSize).filter (· < numPart1)).map fun offset : Nat =>
    (outputStartLoc + offset, lastLoc + 1 + (offset : Int))
  if preLen + numPart1 = seqLen then part1
  else
    let numPart2 := seqLen / pageSize * pageSize - pagesOf pageSize preLen * pageSize
    let part2 := ((List.range maxNumExtendTokens).filter (· < numPart2)).map fun offset : Nat =>
      (outputStartLoc + numPart1 + offset,
        mem.loadPage freePages (newPageStartLoc + offset / pageSize) * pageSize +
          (offset % pageSize : Nat))
    if preLen + numPart1 + numPart2 = seqLen then part1 ++ part2
    else
      let numPart3 := seqLen - seqLen / pageSize * pageSize
      let startLoc := mem.loadPage freePages (newPageStartLoc + numPageStartLocSelf - 1)
      let part3 := ((List.range pageSize).filter (· < numPart3)).map fun offset : Nat =>
        (outputStartLoc + numPart1 + numPart2 + offset, startLoc * pageSize + (offset : Int))
      part1 ++ part2 ++ part3

/-- The store of program `pid` of `alloc_decode_kernel`. -/
def allocDecodeKernel (mem : KernelMemory) (seqLens : List Nat) (lastLocs freePages : List Int)
    (bsUpper pageSize pid : Nat) : List (Nat × Int) :=
  let seqLensV := mem.loadLens seqLens bsUpper pid
  let preLensV := seqLensV.mapIdx fun lane seqLen => if lane ≤ pid then seqLen - 1 else seqLen
  let seqLen := seqLens.getD pid 0
  let preLen := seqLen - 1
  let numPageStartLocSelf := pagesOf pageSize seqLen - pagesOf pageSize preLen
  let sumNumNewPages := sumDiff (seqLensV.map (pagesOf pageSize)) (preLensV.map (pagesOf pageSize))
  let newPageStartLoc := sumNumNewPages - numPageStartLocSelf
  if numPageStartLocSelf = 0 then [(pid, lastLocs.getD pid 0 + 1)]
  else [(pid, mem.loadPage freePages newPageStartLoc * pageSize)]

/-- `get_num_new_pages`; a decode call gives no prefix lengths. -/
def getNumNewPages (seqLens : List Nat) (pageSize : Nat) (prefixLens : Option (List Nat)) : Nat :=
  match prefixLens with
  | none => seqLens.countP fun seqLen => seqLen % pageSize = 1
  | some prefixLens => sumDiff (seqLens.map (pagesOf pageSize)) (prefixLens.map (pagesOf pageSize))

/-- `torch.unique`: sorted, each value once. -/
def torchUnique (xs : List Int) : List Int := xs.dedup.insertionSort (· ≤ ·)

/-- `torch.sort`. -/
def torchSort (xs : List Int) : List Int := xs.insertionSort (· ≤ ·)

/-- `PagedTokenToKVPoolAllocator`. -/
structure PagedAllocator where
  pageSize : Nat
  pageSize_pos : 0 < pageSize
  needSort : Bool
  freePages : List Int
  releasePages : List Int
  isNotInFreeGroup : Bool
  freeGroup : List (List Int)
  seenMaxNumExtendTokensNextPowerOf2 : Nat
  deriving DecidableEq

namespace PagedAllocator

/-- `clear`, and the constructor that ends with it: slot 0 is for padded tokens. -/
def clear (size pageSize : Nat) (needSort : Bool) (h : 0 < pageSize) : PagedAllocator where
  pageSize := pageSize
  pageSize_pos := h
  needSort := needSort
  freePages := (List.range (size / pageSize)).map fun i : Nat => (i : Int) + 1
  releasePages := []
  isNotInFreeGroup := true
  freeGroup := []
  seenMaxNumExtendTokensNextPowerOf2 := 1

/-- `available_size`. -/
def availableSize (a : PagedAllocator) : Nat :=
  (a.freePages.length + a.releasePages.length) * a.pageSize

def mergeAndSortFree (a : PagedAllocator) : PagedAllocator :=
  if 0 < a.releasePages.length then
    { a with freePages := torchSort (a.freePages ++ a.releasePages), releasePages := [] }
  else a

/-- Merging when the free pages may not do; the same test stands in the three allocations. -/
def mergeIfShort (a : PagedAllocator) (needed : Nat) : PagedAllocator :=
  if a.needSort = true ∧ needed > a.freePages.length then a.mergeAndSortFree else a

/-- `self.free_pages = self.free_pages[n:]`. -/
def dropFreePages (a : PagedAllocator) (n : Nat) : PagedAllocator :=
  { a with freePages := a.freePages.drop n }

/-- `alloc`: whole pages, one after the other. -/
def alloc (a : PagedAllocator) (needSize : Nat) : Option (List Int) × PagedAllocator :=
  let numPages := needSize / a.pageSize
  let a := a.mergeIfShort numPages
  if numPages > a.freePages.length then (none, a)
  else
    (some ((a.freePages.take numPages).flatMap fun page =>
        (List.range a.pageSize).map fun offset : Nat => page * a.pageSize + (offset : Int)),
      { a with freePages := a.freePages.drop numPages })

/-- `alloc_extend`; the CPU copies of the two length tensors hold the same values. -/
def allocExtend (mem : KernelMemory) (a : PagedAllocator) (prefixLens seqLens : List Nat)
    (lastLocs : List Int) (extendNumTokens : Nat) : Option (List Int) × PagedAllocator :=
  let seen := max a.seenMaxNumExtendTokensNextPowerOf2 (nextPowerOf2 extendNumTokens)
  let bs := prefixLens.length
  let a := { a with seenMaxNumExtendTokensNextPowerOf2 := seen }
  let a := a.mergeIfShort (extendNumTokens / a.pageSize + bs + 1)
  let outIndices := scatter (mem.empty extendNumTokens) ((List.range bs).flatMap
    (allocExtendKernel mem prefixLens seqLens lastLocs a.freePages (nextPowerOf2 bs) a.pageSize seen))
  let numNewPages := getNumNewPages seqLens a.pageSize (some prefixLens)
  if numNewPages > a.freePages.length then (none, a)
  else (some outIndices, a.dropFreePages numNewPages)

/-- `alloc_decode`. -/
def allocDecode (mem : KernelMemory) (a : PagedAllocator) (seqLens : List Nat) (lastLocs : List Int) :
    Option (List Int) × PagedAllocator :=
  let bs := seqLens.length
  let a := a.mergeIfShort bs
  let outIndices := scatter (mem.empty bs) ((List.range bs).flatMap
    (allocDecodeKernel mem seqLens lastLocs a.freePages (nextPowerOf2 bs) a.pageSize))
  let numNewPages := getNumNewPages seqLens a.pageSize none
  if numNewPages > a.freePages.length then (none, a)
  else (some outIndices, a.dropFreePages numNewPages)

def free (a : PagedAllocator) (freeIndex : List Int) : PagedAllocator :=
  if freeIndex = [] then a
  else if a.isNotInFreeGroup then
    let freePageIndices := torchUnique (freeIndex.map (· / (a.pageSize : Int)))
    if a.needSort then { a with releasePages := freePageIndices ++ a.releasePages }
    else { a with freePages := freePageIndices ++ a.freePages }
  else { a with freeGroup := a.freeGroup ++ [freeIndex] }

def freeGroupBegin (a : PagedAllocator) : PagedAllocator :=
  { a with isNotInFreeGroup := false, freeGroup := [] }

def freeGroupEnd (a : PagedAllocator) : PagedAllocator :=
  let a := { a with isNotInFreeGroup := true }
  if a.freeGroup = [] then a else a.free a.freeGroup.flatten

/-- The pages that are free, in `free_pages` or waiting in `release_pages`. -/
def freeSet (a : PagedAllocator) : List Int := a.freePages ++ a.releasePages

end PagedAllocator

end QCFuse.Source
