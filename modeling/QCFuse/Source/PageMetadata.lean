import QCFuse.Library.Dict
import QCFuse.Library.Transition
import QCFuse.Source.Python

/-!
# Page metadata of one rank

`RankMetadata`, and the steps of `_batch_set` and `_batch_get` around it. Processes that share a rank run at the same
time: what the metadata server does under its lock is one step, and so is each page that is written or read. What an
operation did before it raised stays. A written page may fail and leave any bytes.
-/

set_option autoImplicit false

namespace QCFuse.Source

open QCFuse.Library

structure RankMetadata where
  numPages : Nat
  freePages : List Nat
  keyToIndex : Dict String Nat
  /-- Whether `key_to_index` is an `OrderedDict`; a loaded one is a `dict`. -/
  ordered : Bool

namespace RankMetadata

def new (numPages : Nat) : RankMetadata := ⟨numPages, List.range numPages, .empty, true⟩

/-- `self.key_to_index.move_to_end(key)`. -/
def moveToEnd (m : RankMetadata) (key : String) : Py RankMetadata :=
  if m.ordered then .ok { m with keyToIndex := m.keyToIndex.moveToEnd key }
  else .error (.attributeError "'dict' object has no attribute 'move_to_end'")

/-- `get_page_indices`, and the first loop of `reserve_and_allocate_page_indices`. -/
def getPageIndices (m : RankMetadata) : List String → Py (List (Option Nat)) × RankMetadata
  | [] => (.ok [], m)
  | key :: keys =>
    match m.keyToIndex.get? key with
    | none => ((m.getPageIndices keys).1.map (none :: ·), (m.getPageIndices keys).2)
    | some page =>
      match m.moveToEnd key with
      | .error e => (.error e, m)
      | .ok moved => ((moved.getPageIndices keys).1.map (some page :: ·), (moved.getPageIndices keys).2)

/-- A page for a new key: the last free one, or the one of the oldest key. -/
def popPage (m : RankMetadata) : Py Nat × RankMetadata :=
  match m.freePages.getLast? with
  | some page => (.ok page, { m with freePages := m.freePages.dropLast })
  | none =>
    if m.ordered then
      match m.keyToIndex.entries with
      | [] => (.error (.keyError "dictionary is empty"), m)
      | (key, page) :: _ => (.ok page, { m with keyToIndex := m.keyToIndex.erase key })
    else (.error (.typeError "dict.popitem() takes no keyword arguments"), m)

/-- The second loop, for the number of new keys. -/
def popPages : Nat → RankMetadata → Py (List Nat) × RankMetadata
  | 0, m => (.ok [], m)
  | n + 1, m =>
    match m.popPage with
    | (.error e, popped) => (.error e, popped)
    | (.ok page, popped) => ((popPages n popped).1.map (page :: ·), (popPages n popped).2)

/-- `results`: whether the key was there, and its page. -/
def fillResults : List (Option Nat) → List Nat → List (Bool × Nat)
  | [], _ => []
  | some page :: found, pages => (true, page) :: fillResults found pages
  | none :: found, page :: pages => (false, page) :: fillResults found pages
  | none :: _, [] => []

/-- `reserve_and_allocate_page_indices(keys)`; the prefix keys are not used. -/
def reserveAndAllocatePageIndices (m : RankMetadata) (keys : List String) : Py (List (Bool × Nat)) × RankMetadata :=
  match m.getPageIndices keys with
  | (.error e, looked) => (.error e, looked)
  | (.ok found, looked) =>
    ((popPages (found.count none) looked).1.map (fillResults found), (popPages (found.count none) looked).2)

/-- `if page_index not in self.free_pages: self.free_pages.append(page_index)`. -/
def releasePage (m : RankMetadata) (page : Nat) : RankMetadata :=
  if page ∈ m.freePages then m else { m with freePages := m.freePages ++ [page] }

/-- The first loop of `confirm_write`. -/
def confirmKeys (m : RankMetadata) : List (String × Nat) → Py Unit × RankMetadata
  | [] => (.ok (), m)
  | (key, page) :: written =>
    match { m with keyToIndex := m.keyToIndex.set key page : RankMetadata }.moveToEnd key with
    | .error e => (.error e, { m with keyToIndex := m.keyToIndex.set key page })
    | .ok moved => moved.confirmKeys written

/-- `confirm_write(written_keys_to_confirm, pages_to_release)`. -/
def confirmWrite (m : RankMetadata) (written : List (String × Nat)) (release : List Nat) : Py Unit × RankMetadata :=
  match m.confirmKeys written with
  | (.error e, confirmed) => (.error e, confirmed)
  | (.ok _, confirmed) => (.ok (), release.foldl releasePage confirmed)

/-- The body of the loop in `delete_keys`. -/
def deleteKey (m : RankMetadata) (key : String) : RankMetadata :=
  match m.keyToIndex.get? key with
  | none => m
  | some page => { m with keyToIndex := m.keyToIndex.erase key : RankMetadata }.releasePage page

/-- `delete_keys(keys)`. -/
def deleteKeys (m : RankMetadata) (keys : List String) : RankMetadata := keys.foldl deleteKey m

/-- `clear_all()`. -/
def clearAll (m : RankMetadata) : RankMetadata :=
  { m with freePages := List.range m.numPages, keyToIndex := .empty }

/-- `load_from_disk()` of what `save_to_disk()` wrote. -/
def loadFromDisk (saved : RankMetadata) : RankMetadata := { saved with ordered := false }

end RankMetadata

/-- A page that an unfinished `_batch_set` has reserved; `written` is the result of its write. -/
structure ReservedPage (β : Type) where
  key : String
  page : Nat
  value : β
  written : Option Bool

/-- An unfinished `_batch_get`. -/
structure BatchGet (β : Type) where
  /-- Reads that are to come: where in `values` and in `results` they go, and the page. -/
  pending : List (Nat × Nat × Nat)
  /-- `values`; `none` is what was there before. -/
  values : List (Option β)
  results : List Bool
  /-- What was last written for each key when it was looked up. -/
  promised : List (Option β)

/-- A rank: its metadata, the saved one, its file, and the calls that are not finished. -/
structure PageStore (β : Type) where
  metadata : RankMetadata
  disk : Option RankMetadata
  file : Nat → β
  batches : List (List (ReservedPage β))
  gets : List (BatchGet β)
  /-- The bytes of the last confirmed write of a key. -/
  lastWritten : String → Option β

/-- `batch_indices` and the page of each. -/
def batchIndices (pages : List (Option Nat)) : List (Nat × Nat) :=
  pages.zipIdx.filterMap fun (page, i) => page.map (i, ·)

/-- The pages that `_batch_set` writes. -/
def reservedPages {β : Type} (items : List (String × β)) (indices : List (Bool × Nat)) : List (ReservedPage β) :=
  (items.zip indices).filterMap fun ((key, value), (isWritten, page)) =>
    if isWritten then none else some ⟨key, page, value, none⟩

inductive PageLabel (β : Type) where
  | reserve (items : List (String × β))
  | write (b i : Nat) (ok : Bool) (torn : β)
  | confirm (b : Nat)
  | lookUp (keys : List String)
  | read (g j : Nat) (ok : Bool)
  | finish (g : Nat)
  | delete (keys : List String)
  | clear
  | save
  | reload

namespace PageStore

variable {β : Type}

/-- `_batch_set` up to its writes. -/
def reserve (items : List (String × β)) (s : PageStore β) : PageStore β :=
  match s.metadata.reserveAndAllocatePageIndices (items.map Prod.fst) with
  | (.error _, metadata) => { s with metadata }
  | (.ok indices, metadata) => { s with metadata, batches := s.batches ++ [reservedPages items indices] }

/-- One page of `batch_write`. -/
def writePage (b i : Nat) (ok : Bool) (torn : β) (s : PageStore β) : Option (PageStore β) :=
  s.batches[b]?.bind fun batch => batch[i]?.bind fun reserved =>
    if reserved.written.isSome then none
    else some { s with
      file := Function.update s.file reserved.page (if ok then reserved.value else torn)
      batches := s.batches.set b (batch.set i { reserved with written := some ok }) }

/-- `confirm_write` at the end of `_batch_set`. -/
def confirm (b : Nat) (s : PageStore β) : Option (PageStore β) :=
  s.batches[b]?.bind fun batch =>
    if batch.any fun reserved => reserved.written.isNone then none
    else
      let written := batch.filter fun reserved => reserved.written = some true
      let failed := batch.filter fun reserved => reserved.written = some false
      some { s with
        metadata := (s.metadata.confirmWrite (written.map fun reserved => (reserved.key, reserved.page))
          (failed.map (·.page))).2
        batches := s.batches.eraseIdx b
        lastWritten := written.foldl (fun last reserved => Function.update last reserved.key (some reserved.value))
          s.lastWritten }

/-- `_batch_get` up to its reads; the `j`-th page that is there goes to `values[j]`. -/
def lookUp (keys : List String) (s : PageStore β) : PageStore β :=
  match s.metadata.getPageIndices keys with
  | (.error _, metadata) => { s with metadata }
  | (.ok pages, metadata) => { s with
      metadata
      gets := s.gets ++ [{
        pending := (batchIndices pages).zipIdx.map fun ((i, page), j) => (j, i, page)
        values := List.replicate keys.length none
        results := List.replicate keys.length false
        promised := keys.map s.lastWritten }] }

/-- One page of `batch_read`. -/
def readPage (g n : Nat) (ok : Bool) (s : PageStore β) : Option (PageStore β) :=
  s.gets[g]?.bind fun get => get.pending[n]?.map fun (j, i, page) => { s with
    gets := s.gets.set g { get with
      pending := get.pending.eraseIdx n
      values := if ok then get.values.set j (some (s.file page)) else get.values
      results := get.results.set i ok } }

def step : PageLabel β → PageStore β → Option (PageStore β)
  | .reserve items, s => some (s.reserve items)
  | .write b i ok torn, s => s.writePage b i ok torn
  | .confirm b, s => s.confirm b
  | .lookUp keys, s => some (s.lookUp keys)
  | .read g n ok, s => s.readPage g n ok
  | .finish g, s => some { s with gets := s.gets.eraseIdx g }
  | .delete keys, s => some { s with metadata := s.metadata.deleteKeys keys }
  | .clear, s => some { s with metadata := s.metadata.clearAll }
  | .save, s => some { s with disk := some s.metadata }
  | .reload, s => s.disk.map fun saved => { s with metadata := saved.loadFromDisk }

def machine : Machine (PageStore β) (PageLabel β) := ⟨step⟩

end PageStore

end QCFuse.Source
