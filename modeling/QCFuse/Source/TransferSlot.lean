import QCFuse.Source.PackedFile

/-!
# The pinned transfer slot

A block of consecutive layers is read from a packed file into a reusable pinned byte buffer,
then each layer is copied out as a view of its slice. The buffer is grown but never
shrunk, so it usually holds bytes of earlier blocks behind the current one.
-/

set_option autoImplicit false

namespace QCFuse.Source

open QCFuse.Library

/-- `slot["pin_buf_block"]` with `slot["byte_capacity_block"]`. -/
structure PinBuf where
  bytes : Bytes
  capacity : Nat
  sized : bytes.length = capacity

/-- What a filled slot says about its block. -/
structure Block where
  layerIds : List Int
  blockOffset : Int
  blockNbytes : Int
  info : Json

structure Slot where
  pinBuf : Option PinBuf
  block : Option Block

/-- Copying `data` into the buffer at `off`, when it fits. -/
def PinBuf.write (buf : PinBuf) (off : Nat) (data : Bytes) : PinBuf :=
  if h : off + data.length ≤ buf.bytes.length then
    ⟨overwrite buf.bytes off data, buf.capacity, by rw [length_overwrite h, buf.sized]⟩
  else buf

theorem PinBuf.capacity_write (buf : PinBuf) (off : Nat) (data : Bytes) :
    (buf.write off data).capacity = buf.capacity := by
  unfold write
  split <;> rfl

theorem PinBuf.take_write (buf : PinBuf) {off : Nat} {data : Bytes}
    (h : off + data.length ≤ buf.capacity) :
    (buf.write off data).bytes.take (off + data.length) = buf.bytes.take off ++ data := by
  have hfits : off + data.length ≤ buf.bytes.length := by rw [buf.sized]; exact h
  rw [write, dif_pos hfits]
  exact take_overwrite hfits

/-- `torch.empty(capacity, dtype=torch.uint8)`: whatever bytes memory holds. -/
def PinBuf.empty (memory : Nat → UInt8) (capacity : Nat) : PinBuf :=
  ⟨(List.range capacity).map memory, capacity, by simp⟩

/-- `_ensure_slot_byte_buf(slot, "block", nbytes)`. -/
def ensureSlotByteBuf (memory : Nat → UInt8) (pinBuf : Option PinBuf) (nbytes : Nat) : PinBuf :=
  match pinBuf with
  | some buf => if nbytes ≤ buf.capacity then buf else .empty memory (max nbytes 16384)
  | none => .empty memory (max nbytes 16384)

theorem le_capacity_ensure (memory : Nat → UInt8) (pinBuf : Option PinBuf) (nbytes : Nat) :
    nbytes ≤ (ensureSlotByteBuf memory pinBuf nbytes).capacity := by
  cases pinBuf with
  | none => exact Nat.le_max_left _ _
  | some buf =>
    rw [ensureSlotByteBuf]
    split
    next h => exact h
    next => exact Nat.le_max_left _ _

def unexpectedEof : PyError := .eofError "Unexpected EOF while reading packed KV payload"

/-- The loop of `_read_exact_into` from `total` on. `src` is the file from the seek offset.
Each entry of `reads` is the outcome of one raw `readinto`: `none` when the read would
block, otherwise how many bytes it is willing to give, at least one when it has any. After
the listed outcomes one read gives all there is, and the next one sees the end of file. -/
def readLoop (src : Bytes) (nbytes : Nat) : List (Option Nat) → Nat → PinBuf → Py PinBuf
  | [], total, buf =>
    if nbytes ≤ total then .ok buf
    else
      let n := min (min nbytes buf.capacity - total) (src.length - total)
      if total + n < nbytes then .error unexpectedEof
      else .ok (buf.write total (slice src total n))
  | none :: reads, total, buf =>
    if nbytes ≤ total then .ok buf else readLoop src nbytes reads total buf
  | some wanted :: reads, total, buf =>
    if nbytes ≤ total then .ok buf
    else
      let n := min (max wanted 1) (min (min nbytes buf.capacity - total) (src.length - total))
      if n = 0 then .error unexpectedEof
      else readLoop src nbytes reads (total + n) (buf.write total (slice src total n))

/-- `_read_exact_into(f, buf, nbytes)`. -/
def readExactInto (reads : List (Option Nat)) (src : Bytes) (buf : PinBuf) (nbytes : Nat) :
    Py PinBuf :=
  readLoop src nbytes reads 0 buf

private theorem write_extends {src : Bytes} {nbytes total n : Nat} {buf : PinBuf}
    (hcap : nbytes ≤ buf.capacity) (hsrc : nbytes ≤ src.length) (hn : total + n ≤ nbytes)
    (hpre : buf.bytes.take total = src.take total) :
    (buf.write total (slice src total n)).bytes.take (total + n) = src.take (total + n) := by
  have hlen : (slice src total n).length = n := length_slice (by omega)
  have hfits : total + (slice src total n).length ≤ buf.capacity := by omega
  have hwrite := PinBuf.take_write buf hfits
  rw [hlen] at hwrite
  rw [hwrite, hpre, List.take_add, slice]

/-- Whatever the raw reads give, the loop ends with the wanted bytes at the buffer's front. -/
theorem readLoop_spec {src : Bytes} {nbytes : Nat} (reads : List (Option Nat)) {total : Nat}
    {buf : PinBuf} (hcap : nbytes ≤ buf.capacity) (hsrc : nbytes ≤ src.length)
    (htotal : total ≤ nbytes) (hpre : buf.bytes.take total = src.take total) :
    ∃ buf', readLoop src nbytes reads total buf = .ok buf' ∧
      buf'.bytes.take nbytes = src.take nbytes := by
  induction reads generalizing total buf with
  | nil =>
    rw [readLoop]
    split
    next hdone =>
      obtain rfl : total = nbytes := by omega
      exact ⟨buf, rfl, hpre⟩
    next hmore =>
      have hn : min (min nbytes buf.capacity - total) (src.length - total) = nbytes - total := by
        omega
      simp only [hn]
      rw [if_neg (by omega)]
      have hwrite := write_extends (n := nbytes - total) hcap hsrc (by omega) hpre
      rw [Nat.add_sub_cancel' htotal] at hwrite
      exact ⟨_, rfl, hwrite⟩
  | cons read reads ih =>
    cases read with
    | none =>
      rw [readLoop]
      split
      next hdone =>
        obtain rfl : total = nbytes := by omega
        exact ⟨buf, rfl, hpre⟩
      next => exact ih hcap htotal hpre
    | some wanted =>
      rw [readLoop]
      split
      next hdone =>
        obtain rfl : total = nbytes := by omega
        exact ⟨buf, rfl, hpre⟩
      next hmore =>
        have hn : min (min nbytes buf.capacity - total) (src.length - total) = nbytes - total := by
          omega
        simp only [hn]
        rw [if_neg (by omega)]
        exact ih (by rw [PinBuf.capacity_write]; exact hcap) (by omega)
          (write_extends hcap hsrc (by omega) hpre)

theorem readExactInto_spec (reads : List (Option Nat)) {src : Bytes} {buf : PinBuf} {nbytes : Nat}
    (hcap : nbytes ≤ buf.capacity) (hsrc : nbytes ≤ src.length) :
    ∃ buf', readExactInto reads src buf nbytes = .ok buf' ∧
      buf'.bytes.take nbytes = src.take nbytes :=
  readLoop_spec reads hcap hsrc (Nat.zero_le _) rfl

/-! ## Metadata lookups -/

structure TensorMeta where
  offset : Int
  end_ : Int
  nbytes : Int
  shape : List Nat
  dtype : Dtype

def asInt (x : Json) : Py Int :=
  match x.asInt? with
  | some i => .ok i
  | none => .error (.typeError "unsupported operand type(s)")

/-- `_packed_tensor_meta(meta, layer_id, name)`. -/
def packedTensorMeta (info : Json) (layerId : Int) (name : String) : Py TensorMeta := do
  let layers ← info.item "layers"
  let layer ← layers.item (toString layerId)
  let item ← layer.item name
  let offset ← (← item.item "offset") |> asInt
  let nbytes ← (← item.item "nbytes") |> asInt
  let shape ← item.item "shape"
  let dtype ← packedNameToDtype (← item.item "dtype")
  match shapeDims shape with
  | some dims => return ⟨offset, offset + nbytes, nbytes, dims, dtype⟩
  | none => .error (.typeError "shape must be a list of ints")

/-- The metadata `info` has an entry for the layer. -/
def HasEntry (info : Json) (layerId : Int) (off : Nat) (p : KvPair) : Prop :=
  ∃ fields layers layer, info = .obj fields ∧ Json.lookup? "layers" fields = some (.obj layers) ∧
    Json.lookup? (toString layerId) layers = some layer ∧ LayerEntry off p layer

private theorem tensorMeta_of_entry {off : Nat} {t : Tensor} {item : Json}
    (h : TensorEntry off t item) :
    item.item "offset" = .ok (.int off) ∧ item.item "nbytes" = .ok (.int t.nbytes) ∧
      item.item "shape" = .ok (.ofNats t.shape) ∧
      ∃ name, item.item "dtype" = .ok name ∧ packedNameToDtype name = .ok t.dtype := by
  obtain ⟨name, hname, rfl⟩ := h
  refine ⟨?_, ?_, ?_, .str name, ?_, packedName_roundtrip t.dtype name hname⟩ <;>
    simp [tensorEntry, Json.item, Json.lookup?]

theorem packedTensorMeta_of_entry {info : Json} {layerId : Int} {off : Nat} {p : KvPair}
    (h : HasEntry info layerId off p) :
    packedTensorMeta info layerId "k" =
        .ok ⟨off, (off + p.1.nbytes : Nat), p.1.nbytes, p.1.shape, p.1.dtype⟩ ∧
      packedTensorMeta info layerId "v" =
        .ok ⟨(off + p.1.nbytes : Nat), (off + p.nbytes : Nat), p.2.nbytes, p.2.shape,
          p.2.dtype⟩ := by
  obtain ⟨fields, layers, layer, rfl, hlayers, hlayer, kMeta, vMeta, hk, hv, rfl⟩ := h
  have hinfo : (Json.obj fields).item "layers" = .ok (.obj layers) := by
    simp [Json.item, hlayers]
  have hentry : (Json.obj layers).item (toString layerId) =
      .ok (.obj [("k", kMeta), ("v", vMeta)]) := by
    simp only [Json.item, hlayer]
  have hkItem : (Json.obj [("k", kMeta), ("v", vMeta)]).item "k" = .ok kMeta := rfl
  have hvItem : (Json.obj [("k", kMeta), ("v", vMeta)]).item "v" = .ok vMeta := rfl
  obtain ⟨ko, kn, ks, kname, kd, kdtype⟩ := tensorMeta_of_entry hk
  obtain ⟨vo, vn, vs, vname, vd, vdtype⟩ := tensorMeta_of_entry hv
  constructor
  · simp only [packedTensorMeta, hinfo, hentry, hkItem, ko, kn, ks, kd, kdtype, bind, Except.bind,
      asInt, Json.asInt?, shapeDims_ofNats, pure, Except.pure, Nat.cast_add]
  · simp only [packedTensorMeta, hinfo, hentry, hvItem, vo, vn, vs, vd, vdtype, bind, Except.bind,
      asInt, Json.asInt?, shapeDims_ofNats, pure, Except.pure, KvPair.nbytes, Nat.cast_add,
      Int.add_assoc]

/-! ## Filling a slot and copying layers out of it -/

/-- Each tensor of each layer lies inside the block. -/
def checkInsideBlock (subject : String) (info : Json) (blockOffset blockEnd : Int) :
    List Int → Py Unit
  | [] => .ok ()
  | layerId :: layerIds => do
    let k ← packedTensorMeta info layerId "k"
    if k.offset < blockOffset ∨ blockEnd < k.end_ then
      .error (.valueError s!"{subject} layer {layerId}.k is outside block range")
    else
      let v ← packedTensorMeta info layerId "v"
      if v.offset < blockOffset ∨ blockEnd < v.end_ then
        .error (.valueError s!"{subject} layer {layerId}.v is outside block range")
      else checkInsideBlock subject info blockOffset blockEnd layerIds

/-- Buffer, `f.seek(block_offset)`, read, and the slot's metadata. -/
def fillSlot (memory : Nat → UInt8) (reads : List (Option Nat)) (bin : Bytes) (info : Json)
    (layerIds : List Int) (blockOffset blockNbytes : Int) (slot : Slot) : Py Slot := do
  let buf := ensureSlotByteBuf memory slot.pinBuf blockNbytes.toNat
  let buf ← readExactInto reads (bin.drop blockOffset.toNat) buf blockNbytes.toNat
  return ⟨some buf, some ⟨layerIds, blockOffset, blockNbytes, info⟩⟩

/-- The block read shared by both caches; `kind` and `subject` are the two ways the source's
messages name the cache. -/
def readBlockToSlot (kind subject : String) (memory : Nat → UInt8) (reads : List (Option Nat))
    (bin : Bytes) (info : Json) (layerIds : List Int) (slot : Slot) : Py Slot :=
  match layerIds with
  | [] => .error (.valueError s!"Cannot read empty {kind} layer block")
  | first :: rest => do
    let firstK ← packedTensorMeta info first "k"
    let lastV ← packedTensorMeta info ((first :: rest).getLast (List.cons_ne_nil _ _)) "v"
    let blockNbytes := lastV.end_ - firstK.offset
    if blockNbytes < 0 then .error (.valueError s!"Bad {kind} block range for layers")
    else
      checkInsideBlock subject info firstK.offset lastV.end_ (first :: rest)
      fillSlot memory reads bin info (first :: rest) firstK.offset blockNbytes slot

/-- `_view_from_block(name)`. -/
def viewFromBlock (buf : PinBuf) (block : Block) (layerId : Int) (name : String) : Py Tensor := do
  let item ← packedTensorMeta block.info layerId name
  let rel := item.offset - block.blockOffset
  if rel < 0 ∨ block.blockNbytes < rel + item.nbytes then
    .error (.valueError s!"Packed KV layer {layerId}.{name} is outside pinned block")
  else viewBytes rel.toNat (slice buf.bytes rel.toNat item.nbytes.toNat) item.dtype item.shape

/-- `_copy_packed_layer_from_block_to_gpu(slot, layer_id, device, stream)`. -/
def copyPackedLayerFromBlockToGpu (slot : Slot) (layerId : Int) : Py KvPair :=
  match slot.pinBuf, slot.block with
  | some buf, some block => do
    let k ← viewFromBlock buf block layerId "k"
    let v ← viewFromBlock buf block layerId "v"
    return (k, v)
  | _, _ => .error (.keyError "meta")

/-- Layer `layerId` has its entry at `off`, and the file holds the pair's bytes there. -/
structure Stored (bin : Bytes) (info : Json) (layerId : Int) (off : Nat) (p : KvPair) : Prop where
  entry : HasEntry info layerId off p
  inside : off + p.nbytes ≤ bin.length
  bytes : slice bin off p.nbytes = p.bytes

/-- Tensor `name` of a layer is described at `off`, and the file holds its bytes there. -/
structure Described (bin : Bytes) (info : Json) (layerId : Int) (name : String) (off : Nat)
    (t : Tensor) : Prop where
  tensorMeta : packedTensorMeta info layerId name =
    .ok ⟨off, (off + t.nbytes : Nat), t.nbytes, t.shape, t.dtype⟩
  inside : off + t.nbytes ≤ bin.length
  bytes : slice bin off t.nbytes = t.data

/-- Both tensors of a layer are described, one behind the other. -/
structure DescribedLayer (bin : Bytes) (info : Json) (layerId : Int) (off : Nat) (p : KvPair) : Prop where
  k : Described bin info layerId "k" off p.1
  v : Described bin info layerId "v" (off + p.1.nbytes) p.2

theorem DescribedLayer.inside {bin : Bytes} {info : Json} {layerId : Int} {off : Nat} {p : KvPair}
    (h : DescribedLayer bin info layerId off p) : off + p.nbytes ≤ bin.length := by
  rw [KvPair.nbytes, ← Nat.add_assoc]
  exact h.v.inside

/-- The metadata and the file leave no choice. -/
theorem Described.unique {bin : Bytes} {info : Json} {layerId : Int} {name : String} {off₁ off₂ : Nat} {t₁ t₂ : Tensor}
    (h₁ : Described bin info layerId name off₁ t₁)
    (h₂ : Described bin info layerId name off₂ t₂) : off₁ = off₂ ∧ t₁ = t₂ := by
  have hmeta := Except.ok.inj (h₁.tensorMeta.symm.trans h₂.tensorMeta)
  simp only [TensorMeta.mk.injEq, Nat.cast_inj] at hmeta
  obtain ⟨rfl, -, hnbytes, hshape, hdtype⟩ := hmeta
  have hdata : t₁.data = t₂.data := by rw [← h₁.bytes, ← h₂.bytes, hnbytes]
  cases t₁
  cases t₂
  simp only at hshape hdtype hdata
  subst hshape hdtype hdata
  exact ⟨rfl, rfl⟩

theorem DescribedLayer.unique {bin : Bytes} {info : Json} {layerId : Int} {off₁ off₂ : Nat} {p₁ p₂ : KvPair}
    (h₁ : DescribedLayer bin info layerId off₁ p₁)
    (h₂ : DescribedLayer bin info layerId off₂ p₂) : off₁ = off₂ ∧ p₁ = p₂ := by
  obtain ⟨hoff, hk⟩ := h₁.k.unique h₂.k
  exact ⟨hoff, Prod.ext hk (h₁.v.unique h₂.v).2⟩

theorem Stored.described {bin : Bytes} {info : Json} {layerId : Int} {off : Nat} {p : KvPair}
    (h : Stored bin info layerId off p) : DescribedLayer bin info layerId off p := by
  obtain ⟨hk, hv⟩ := packedTensorMeta_of_entry h.entry
  have hinside := h.inside
  have hbytes := h.bytes
  rw [KvPair.nbytes] at hinside hbytes hv
  have hkBytes : slice bin off p.1.nbytes = p.1.data := by
    have hcut : slice (slice bin off (p.1.nbytes + p.2.nbytes)) 0 p.1.nbytes =
        slice bin (off + 0) p.1.nbytes := slice_slice (by omega)
    rw [hbytes, KvPair.bytes, slice_append_left _ (by simp), Nat.add_zero] at hcut
    rw [← hcut, ← p.1.length_data, slice_zero_length]
  have hvBytes : slice bin (off + p.1.nbytes) p.2.nbytes = p.2.data := by
    have hcut : slice (slice bin off (p.1.nbytes + p.2.nbytes)) p.1.nbytes p.2.nbytes =
        slice bin (off + p.1.nbytes) p.2.nbytes := slice_slice (Nat.le_refl _)
    rw [hbytes, KvPair.bytes] at hcut
    rw [← hcut, ← p.1.length_data, ← p.2.length_data, ← Nat.add_zero p.1.data.length,
      slice_append_right, slice_zero_length]
  refine ⟨⟨hk, by omega, hkBytes⟩, ⟨?_, by omega, hvBytes⟩⟩
  rw [hv, Nat.add_assoc]

private theorem viewFromBlock_eq {buf : PinBuf} {layerIds : List Int} {info : Json} {layerId : Int}
    {name : String} {t : Tensor} {off base len : Nat} {bin : Bytes}
    (h : Described bin info layerId name off t)
    (hbuf : buf.bytes.take len = slice bin base len) (hge : base ≤ off)
    (hle : off + t.nbytes ≤ base + len) :
    viewFromBlock buf ⟨layerIds, base, len, info⟩ layerId name =
      if t.dtype.itemsize ∣ off - base then .ok t else .error misaligned := by
  have hrel : ((off : Int) - base).toNat = off - base := by omega
  have hslice : slice buf.bytes (off - base) t.nbytes = t.data := by
    have htake : buf.bytes.take len = (slice bin base len).take len := by
      rw [hbuf, slice, List.take_take, Nat.min_self]
    rw [slice_of_take_eq htake (by omega), slice_slice (by omega), Nat.add_sub_cancel' hge, h.bytes]
  rw [viewFromBlock, h.tensorMeta]
  simp only [bind, Except.bind]
  rw [if_neg (by omega), hrel, Int.toNat_natCast, hslice]
  exact viewBytes_eq t _

/-- Both tensors of a layer at `off` start at multiples of their item sizes, counted from `base`. -/
def AlignedFrom (base off : Nat) (p : KvPair) : Prop :=
  p.1.dtype.itemsize ∣ off - base ∧ p.2.dtype.itemsize ∣ off + p.1.nbytes - base

instance (base off : Nat) (p : KvPair) : Decidable (AlignedFrom base off p) := instDecidableAnd

/-- A filled slot gives back a described layer inside its block, if it is aligned to the block. -/
theorem fillSlot_described (memory : Nat → UInt8) (reads : List (Option Nat)) {bin : Bytes}
    (info : Json) (layerIds : List Int) (base len : Nat) (slot : Slot) (hin : base + len ≤ bin.length) :
    ∃ slot', fillSlot memory reads bin info layerIds base len slot = .ok slot' ∧
      ∀ (id : Int) (off : Nat) (p : KvPair), DescribedLayer bin info id off p → base ≤ off →
        off + p.nbytes ≤ base + len → copyPackedLayerFromBlockToGpu slot' id =
          if AlignedFrom base off p then .ok p else .error misaligned := by
  have hcap := le_capacity_ensure memory slot.pinBuf len
  have hsrc : len ≤ (bin.drop base).length := by rw [List.length_drop]; omega
  obtain ⟨buf, hread, hbuf⟩ := readExactInto_spec reads hcap hsrc
  refine ⟨⟨some buf, some ⟨layerIds, base, len, info⟩⟩, ?_, ?_⟩
  · simp only [fillSlot, Int.toNat_natCast, hread, bind, Except.bind, pure, Except.pure]
  · intro id off p hlayer hge hle
    rw [KvPair.nbytes] at hle
    simp only [copyPackedLayerFromBlockToGpu]
    rw [viewFromBlock_eq hlayer.k hbuf hge (by omega),
      viewFromBlock_eq hlayer.v hbuf (by omega) (by omega)]
    by_cases hkDvd : p.1.dtype.itemsize ∣ off - base
    · by_cases hvDvd : p.2.dtype.itemsize ∣ off + p.1.nbytes - base
      · rw [if_pos hkDvd, if_pos hvDvd, if_pos ⟨hkDvd, hvDvd⟩]
        rfl
      · rw [if_pos hkDvd, if_neg hvDvd, if_neg fun h : AlignedFrom base off p => hvDvd h.2]
        rfl
    · rw [if_neg hkDvd, if_neg fun h : AlignedFrom base off p => hkDvd h.1]
      rfl

theorem checkInsideBlock_iff (subject : String) {bin : Bytes} {info : Json} (blockOffset blockEnd : Nat)
    {layerIds : List Int} (off : Int → Nat) (pair : Int → KvPair)
    (hlayers : ∀ id ∈ layerIds, DescribedLayer bin info id (off id) (pair id)) :
    checkInsideBlock subject info blockOffset blockEnd layerIds = .ok () ↔
      ∀ id ∈ layerIds, blockOffset ≤ off id ∧ off id + (pair id).nbytes ≤ blockEnd := by
  induction layerIds with
  | nil => exact ⟨fun _ id hid => absurd hid List.not_mem_nil, fun _ => rfl⟩
  | cons id ids ih =>
    have hlayer := hlayers id List.mem_cons_self
    have hsize : (pair id).nbytes = (pair id).1.nbytes + (pair id).2.nbytes := rfl
    rw [List.forall_mem_cons, ← ih fun other h => hlayers other (List.mem_cons_of_mem _ h),
      checkInsideBlock, hlayer.k.tensorMeta, hlayer.v.tensorMeta]
    simp only [bind, Except.bind]
    by_cases hkOut : ((off id : Nat) : Int) < blockOffset ∨
        (blockEnd : Int) < ((off id + (pair id).1.nbytes : Nat) : Int)
    · rw [if_pos hkOut]
      constructor
      · exact nofun
      · rintro ⟨hin, -⟩
        omega
    · rw [if_neg hkOut]
      by_cases hvOut : ((off id + (pair id).1.nbytes : Nat) : Int) < blockOffset ∨
          (blockEnd : Int) < ((off id + (pair id).1.nbytes + (pair id).2.nbytes : Nat) : Int)
      · rw [if_pos hvOut]
        constructor
        · exact nofun
        · rintro ⟨hin, -⟩
          omega
      · rw [if_neg hvOut]
        exact ⟨fun h => ⟨by omega, h⟩, fun h => h.2⟩

/-- The first layer starts the block of the layers `ids` and the last layer ends it. -/
def CoversBlock (off : Int → Nat) (pair : Int → KvPair) (ids : List Int) : Prop :=
  ∀ first ∈ ids.head?, ∀ last ∈ ids.getLast?, ∀ id ∈ ids,
    off first ≤ off id ∧ off id + (pair id).nbytes ≤ off last + (pair last).nbytes

section ReadBlock

variable (kind subject : String) (memory : Nat → UInt8) (reads : List (Option Nat)) {bin : Bytes}
  {info : Json} {layerIds : List Int} (slot : Slot) (off : Int → Nat) (pair : Int → KvPair)

theorem readBlockToSlot_eq {first last : Int} (hfirst : layerIds.head? = some first)
    (hlast : layerIds.getLast? = some last)
    (hlayers : ∀ id ∈ layerIds, DescribedLayer bin info id (off id) (pair id)) :
    readBlockToSlot kind subject memory reads bin info layerIds slot =
      if off last + (pair last).nbytes < off first then
        .error (.valueError s!"Bad {kind} block range for layers")
      else (checkInsideBlock subject info (off first : Nat) (off last + (pair last).nbytes : Nat)
          layerIds >>= fun _ => fillSlot memory reads bin info layerIds (off first : Nat)
            (off last + (pair last).nbytes - off first : Nat) slot) := by
  have hk := (hlayers first (List.mem_of_head? hfirst)).k.tensorMeta
  have hv := (hlayers last (List.mem_of_getLast? hlast)).v.tensorMeta
  cases layerIds with
  | nil => cases hfirst
  | cons id ids =>
    obtain rfl : id = first := by simpa using hfirst
    have hlastId : (id :: ids).getLast (List.cons_ne_nil _ _) = last := by
      rwa [List.getLast?_eq_some_getLast (List.cons_ne_nil _ _), Option.some.injEq] at hlast
    rw [readBlockToSlot, hk, hlastId, hv]
    simp only [bind, Except.bind]
    rw [Nat.add_assoc, ← KvPair.nbytes]
    by_cases hneg : off last + (pair last).nbytes < off id
    · rw [if_pos hneg, if_pos (by omega)]
    · rw [if_neg hneg, if_neg (by omega), Nat.cast_sub (by omega)]

/-- A block that covers its layers is read, and a layer is copied out of it if it is aligned to the
first one. -/
theorem readBlockToSlot_covers {first : Int} (hfirst : layerIds.head? = some first)
    (hlayers : ∀ id ∈ layerIds, DescribedLayer bin info id (off id) (pair id))
    (hcovers : CoversBlock off pair layerIds) :
    ∃ slot', readBlockToSlot kind subject memory reads bin info layerIds slot = .ok slot' ∧
      ∀ id ∈ layerIds, copyPackedLayerFromBlockToGpu slot' id =
        if AlignedFrom (off first) (off id) (pair id) then .ok (pair id) else .error misaligned := by
  obtain ⟨last, hlast⟩ : ∃ last, layerIds.getLast? = some last :=
    ⟨_, List.getLast?_eq_some_getLast (List.ne_nil_of_mem (List.mem_of_head? hfirst))⟩
  have hinside := hcovers first hfirst last hlast
  have hlastIn := (hlayers last (List.mem_of_getLast? hlast)).inside
  have hfirstIn := hinside first (List.mem_of_head? hfirst)
  obtain ⟨slot', hfill, hcopy⟩ := fillSlot_described memory reads info layerIds (off first)
    (off last + (pair last).nbytes - off first) slot
    (by omega : off first + (off last + (pair last).nbytes - off first) ≤ bin.length)
  refine ⟨slot', ?_, fun id hid => ?_⟩
  · rw [readBlockToSlot_eq kind subject memory reads slot off pair hfirst hlast hlayers,
      if_neg (by omega), (checkInsideBlock_iff subject _ _ off pair hlayers).mpr hinside]
    exact hfill
  · have hin := hinside id hid
    exact hcopy id (off id) (pair id) (hlayers id hid) hin.1 (by omega)

/-- Any other block is refused. -/
theorem readBlockToSlot_uncovered {first : Int} (hfirst : layerIds.head? = some first)
    (hlayers : ∀ id ∈ layerIds, DescribedLayer bin info id (off id) (pair id))
    (hcovers : ¬ CoversBlock off pair layerIds) :
    ∃ e, readBlockToSlot kind subject memory reads bin info layerIds slot = .error e := by
  obtain ⟨last, hlast⟩ : ∃ last, layerIds.getLast? = some last :=
    ⟨_, List.getLast?_eq_some_getLast (List.ne_nil_of_mem (List.mem_of_head? hfirst))⟩
  rw [readBlockToSlot_eq kind subject memory reads slot off pair hfirst hlast hlayers]
  split
  next => exact ⟨_, rfl⟩
  next =>
    cases hcheck : checkInsideBlock subject info (off first : Nat)
        (off last + (pair last).nbytes : Nat) layerIds with
    | error e => exact ⟨e, rfl⟩
    | ok u =>
      refine absurd ?_ hcovers
      rintro first' hfirst' last' hlast'
      obtain rfl : first = first' := by rw [hfirst] at hfirst'; simpa using hfirst'
      obtain rfl : last = last' := by rw [hlast] at hlast'; simpa using hlast'
      exact (checkInsideBlock_iff subject _ _ off pair hlayers).mp hcheck

end ReadBlock

/-- A filled slot gives back every stored layer that lies inside its block. -/
theorem fillSlot_copy (memory : Nat → UInt8) (reads : List (Option Nat)) {bin : Bytes}
    (info : Json) (layerIds : List Int) (base len : Nat) (slot : Slot) (d : Dtype)
    (hin : base + len ≤ bin.length) :
    ∃ slot', fillSlot memory reads bin info layerIds base len slot = .ok slot' ∧
      ∀ (id : Int) (off : Nat) (p : KvPair), Stored bin info id off p → p.OfDtype d →
        base ≤ off → off + p.nbytes ≤ base + len → d.itemsize ∣ off - base →
        copyPackedLayerFromBlockToGpu slot' id = .ok p := by
  obtain ⟨slot', hfill, hcopy⟩ := fillSlot_described memory reads info layerIds base len slot hin
  refine ⟨slot', hfill, fun id off p hstored hdtype hge hle hdvd => ?_⟩
  have hkDvd : p.1.dtype.itemsize ∣ off - base := by rw [hdtype.1]; exact hdvd
  have hvDvd : p.2.dtype.itemsize ∣ off + p.1.nbytes - base := by
    have hsplit : off + p.1.nbytes - base = (off - base) + p.1.nbytes := by omega
    rw [hsplit, hdtype.2]
    refine Nat.dvd_add hdvd ?_
    rw [← hdtype.1]
    exact p.1.nbytes_dvd
  rw [hcopy id off p hstored.described hge hle, if_pos ⟨hkDvd, hvDvd⟩]

/-- Reading a block whose first layer starts it and whose last layer ends it, and copying any
of its layers out, gives what the file stores for that layer. -/
theorem readBlockToSlot_copy (kind subject : String) (memory : Nat → UInt8)
    (reads : List (Option Nat)) {bin : Bytes} {info : Json} {layerIds : List Int} (slot : Slot)
    (d : Dtype) (off : Int → Nat) (pair : Int → KvPair) (hne : layerIds ≠ [])
    (hstored : ∀ id ∈ layerIds, Stored bin info id (off id) (pair id))
    (hdtype : ∀ id ∈ layerIds, (pair id).OfDtype d)
    (hfirst : ∀ id ∈ layerIds, off (layerIds.head hne) ≤ off id)
    (hlast : ∀ id ∈ layerIds, off id + (pair id).nbytes ≤
      off (layerIds.getLast hne) + (pair (layerIds.getLast hne)).nbytes)
    (hdvd : ∀ id ∈ layerIds, d.itemsize ∣ off id - off (layerIds.head hne)) :
    ∃ slot', readBlockToSlot kind subject memory reads bin info layerIds slot = .ok slot' ∧
      ∀ id ∈ layerIds, copyPackedLayerFromBlockToGpu slot' id = .ok (pair id) := by
  have hlayers := fun id hid => (hstored id hid).described
  have hhead := List.head?_eq_some_head hne
  obtain ⟨slot', hread, hcopy⟩ := readBlockToSlot_covers kind subject memory reads slot off pair hhead
    hlayers (by
      rintro first hfirst' last hlast' id hid
      obtain rfl : layerIds.head hne = first := by rw [hhead] at hfirst'; simpa using hfirst'
      obtain rfl : layerIds.getLast hne = last := by
        rw [List.getLast?_eq_some_getLast hne] at hlast'
        simpa using hlast'
      exact ⟨hfirst id hid, hlast id hid⟩)
  refine ⟨slot', hread, fun id hid => ?_⟩
  have hge := hfirst id hid
  have hsplit : off id + (pair id).1.nbytes - off (layerIds.head hne) =
      (off id - off (layerIds.head hne)) + (pair id).1.nbytes := by omega
  obtain ⟨hkd, hvd⟩ := hdtype id hid
  rw [hcopy id hid, if_pos]
  rw [AlignedFrom, hkd, hvd, hsplit, ← hkd]
  exact ⟨hkd ▸ hdvd id hid, Nat.dvd_add (hkd ▸ hdvd id hid) (pair id).1.nbytes_dvd⟩

end QCFuse.Source
