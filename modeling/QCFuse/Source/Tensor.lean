import QCFuse.Source.Python

/-!
# Tensors as the K/V cache code handles them

A tensor is its shape, dtype and contiguous row-major bytes; the byte count is a field, so
a tensor whose data does not fit its shape cannot be built. Device placement and strides
are not represented: the cache code calls `.contiguous().cpu()` before it looks at bytes.
-/

set_option autoImplicit false

namespace QCFuse.Source

abbrev Bytes := List UInt8

/-- The torch dtypes of `_PACKED_DTYPE_MAP`, and two it does not know. -/
inductive Dtype where
  | bool | uint8 | int8 | int16 | int32 | int64 | float16 | bfloat16 | float32 | float64
  | uint16 | uint32 | uint64 | complex64 | float8E4m3
  deriving DecidableEq, Repr

/-- `torch.empty((), dtype=dtype).element_size()`. -/
def Dtype.itemsize : Dtype → Nat
  | .bool | .uint8 | .int8 | .float8E4m3 => 1
  | .int16 | .float16 | .bfloat16 | .uint16 => 2
  | .int32 | .float32 | .uint32 => 4
  | .int64 | .float64 | .uint64 | .complex64 => 8

theorem Dtype.itemsize_pos (d : Dtype) : 0 < d.itemsize := by
  cases d <;> decide

/-- `_PACKED_DTYPE_MAP`, the three unsigned types included. -/
def packedDtypeMap : List (String × Dtype) :=
  [("BOOL", .bool), ("U8", .uint8), ("I8", .int8), ("I16", .int16), ("I32", .int32),
   ("I64", .int64), ("F16", .float16), ("BF16", .bfloat16), ("F32", .float32),
   ("F64", .float64), ("U16", .uint16), ("U32", .uint32), ("U64", .uint64)]

/-- `_dtype_to_packed_name`, through the inverted map. -/
def dtypeToPackedName (d : Dtype) : Py String :=
  match packedDtypeMap.find? (fun entry => entry.2 = d) with
  | some (name, _) => .ok name
  | none => .error (.valueError "Unsupported packed KV dtype")

/-- `_packed_name_to_dtype`; a list or dictionary is not hashable. -/
def packedNameToDtype : Json → Py Dtype
  | .str name =>
    match packedDtypeMap.find? (fun entry => entry.1 = name) with
    | some (_, d) => .ok d
    | none => .error (.valueError "Unsupported packed KV dtype name")
  | .arr _ | .obj _ => .error (.typeError "unhashable type")
  | _ => .error (.valueError "Unsupported packed KV dtype name")

theorem packedName_roundtrip (d : Dtype) (name : String) (h : dtypeToPackedName d = .ok name) :
    packedNameToDtype (.str name) = .ok d := by
  cases d <;> simp [dtypeToPackedName, packedDtypeMap] at h <;> subst h <;>
    simp [packedNameToDtype, packedDtypeMap]

structure Tensor where
  shape : List Nat
  dtype : Dtype
  data : Bytes
  sized : data.length = shape.prod * dtype.itemsize
  deriving DecidableEq, Repr

instance : Inhabited Tensor := ⟨⟨[0], .uint8, [], rfl⟩⟩

namespace Tensor

def numel (t : Tensor) : Nat := t.shape.prod

/-- `_tensor_nbytes(list(t.shape), t.dtype)`. -/
def nbytes (t : Tensor) : Nat := t.shape.prod * t.dtype.itemsize

/-- `t.shape[0]`, the number of token rows of a K or V tensor. -/
def rows (t : Tensor) : Nat := t.shape.headD 1

/-- Bytes of one index of the first dimension. -/
def rowBytes (t : Tensor) : Nat := t.shape.tail.prod * t.dtype.itemsize

/-- The bytes of row `i`. -/
def row (t : Tensor) (i : Nat) : Bytes := (t.data.drop (i * t.rowBytes)).take t.rowBytes

@[simp] theorem length_data (t : Tensor) : t.data.length = t.nbytes := t.sized

theorem nbytes_dvd (t : Tensor) : t.dtype.itemsize ∣ t.nbytes := ⟨t.shape.prod, Nat.mul_comm _ _⟩

theorem data_length_rows {t : Tensor} {n : Nat} {rest : List Nat} (h : t.shape = n :: rest) :
    t.data.length = n * t.rowBytes := by
  rw [length_data, nbytes, rowBytes, h, List.prod_cons, List.tail_cons, Nat.mul_assoc]

theorem row_length {t : Tensor} {n i : Nat} {rest : List Nat} (h : t.shape = n :: rest)
    (hi : i < n) : (t.row i).length = t.rowBytes := by
  have hlen := data_length_rows h
  have hle : (i + 1) * t.rowBytes ≤ n * t.rowBytes := Nat.mul_le_mul_right _ hi
  rw [Nat.add_mul, Nat.one_mul] at hle
  rw [row, List.length_take, List.length_drop, hlen]
  omega

end Tensor

/-- Concatenated pieces of one width. -/
theorem length_flatMap_const {α : Type} (f : α → Bytes) (w : Nat) (xs : List α)
    (h : ∀ x ∈ xs, (f x).length = w) : (xs.flatMap f).length = xs.length * w := by
  induction xs with
  | nil => simp
  | cons x xs ih =>
    have hx := h x List.mem_cons_self
    have hxs := ih fun y hy => h y (List.mem_cons_of_mem _ hy)
    rw [List.flatMap_cons, List.length_append, hx, hxs, List.length_cons]
    ring

/-- Piece `j` of concatenated pieces of one width. -/
theorem flatMap_piece {α : Type} (f : α → Bytes) (w : Nat) (xs : List α) (j : Nat)
    (hj : j < xs.length) (h : ∀ x ∈ xs, (f x).length = w) :
    ((xs.flatMap f).drop (j * w)).take w = f xs[j] := by
  induction xs generalizing j with
  | nil => simp at hj
  | cons x xs ih =>
    have hx := h x List.mem_cons_self
    cases j with
    | zero =>
      rw [Nat.zero_mul, List.drop_zero, List.flatMap_cons, List.getElem_cons_zero]
      exact List.take_left' hx
    | succ j =>
      have hsplit : (j + 1) * w = (f x).length + j * w := by rw [hx]; ring
      have hskip : (f x ++ xs.flatMap f).drop ((f x).length + j * w) = (xs.flatMap f).drop (j * w) := by
        rw [← List.drop_drop, List.drop_left]
      rw [List.flatMap_cons, hsplit, hskip, List.getElem_cons_succ]
      exact ih j (by simpa using hj) fun y hy => h y (List.mem_cons_of_mem _ hy)

/-- `t.index_select(0, idx)`. A scalar is selected as a vector of one element. -/
def Tensor.indexSelect (t : Tensor) (idx : List Int) : Py Tensor :=
  match h : t.shape with
  | [] => if idx = [0] then .ok t else .error .indexError
  | n :: rest =>
    if hin : ∀ i ∈ idx, 0 ≤ i ∧ i < n then
      .ok {
        shape := idx.length :: rest
        dtype := t.dtype
        data := idx.flatMap fun i => t.row i.toNat
        sized := by
          have hlen : ∀ i ∈ idx, (t.row i.toNat).length = t.rowBytes := by
            intro i hi
            have := hin i hi
            exact Tensor.row_length h (by omega)
          rw [length_flatMap_const _ _ _ hlen, Tensor.rowBytes, h, List.prod_cons, List.tail_cons,
            Nat.mul_assoc] }
    else .error .indexError

/-- What a successful selection returns on a tensor with at least one dimension. -/
theorem Tensor.indexSelect_spec {t s : Tensor} {idx : List Int} {n : Nat} {rest : List Nat}
    (hshape : t.shape = n :: rest) (h : t.indexSelect idx = .ok s) :
    (∀ i ∈ idx, 0 ≤ i ∧ i < n) ∧ s.shape = idx.length :: rest ∧ s.dtype = t.dtype ∧
      s.data = idx.flatMap fun i => t.row i.toNat := by
  unfold indexSelect at h
  split at h
  next hnil => simp [hshape] at hnil
  next n' rest' hcons =>
    rw [hshape] at hcons
    obtain ⟨rfl, rfl⟩ := List.cons.inj hcons
    split at h
    next hin =>
      cases h
      exact ⟨hin, rfl, rfl, rfl⟩
    next => cases h

theorem Tensor.indexSelect_ok {t : Tensor} {idx : List Int} {n : Nat} {rest : List Nat}
    (hshape : t.shape = n :: rest) (hin : ∀ i ∈ idx, 0 ≤ i ∧ i < n) :
    ∃ s, t.indexSelect idx = .ok s := by
  unfold indexSelect
  split
  next hnil => simp [hshape] at hnil
  next n' rest' hcons =>
    rw [hshape] at hcons
    obtain ⟨rfl, rfl⟩ := List.cons.inj hcons
    exact ⟨_, dif_pos hin⟩

theorem Tensor.indexSelect_dtype {t s : Tensor} {idx : List Int} (h : t.indexSelect idx = .ok s) :
    s.dtype = t.dtype := by
  cases hshape : t.shape with
  | cons n rest => exact (indexSelect_spec hshape h).2.2.1
  | nil =>
    unfold indexSelect at h
    split at h
    · split at h <;> cases h
      rfl
    next hcons => simp [hshape] at hcons

/-- Row `j` of a selection is the selected row. -/
theorem Tensor.indexSelect_row {t s : Tensor} {idx : List Int} {n j : Nat} {rest : List Nat}
    (hshape : t.shape = n :: rest) (h : t.indexSelect idx = .ok s) (hj : j < idx.length) :
    s.row j = t.row idx[j].toNat := by
  obtain ⟨hin, hs, hd, hdata⟩ := indexSelect_spec hshape h
  have hw : s.rowBytes = t.rowBytes := by rw [rowBytes, rowBytes, hs, hshape, hd]; rfl
  have hlen : ∀ i ∈ idx, (t.row i.toNat).length = t.rowBytes := by
    intro i hi
    have := hin i hi
    exact row_length hshape (by omega)
  rw [row, hw, hdata]
  exact flatMap_piece (fun i : Int => t.row i.toNat) t.rowBytes idx j hj hlen

/-- `tensor.view(torch.uint8).reshape(-1)`: a scalar has no last dimension to widen. -/
def Tensor.byteView (t : Tensor) : Py Bytes :=
  if t.shape = [] ∧ t.dtype.itemsize ≠ 1 then
    .error (.runtimeError "self.dim() cannot be 0 to view as Byte (different element sizes)")
  else .ok t.data

/-- `buf[rel : rel + n].view(dtype).view(shape)` on a byte buffer: the slice's length and its
storage offset must be multiples of the item size, and the item count must fit the shape. -/
def viewBytes (rel : Nat) (slice : Bytes) (dtype : Dtype) (shape : List Nat) : Py Tensor :=
  if slice.length % dtype.itemsize ≠ 0 then
    .error (.runtimeError "self.size(-1) must be divisible by the item size")
  else if rel % dtype.itemsize ≠ 0 then
    .error (.runtimeError "self.storage_offset() must be divisible by the item size")
  else if h : slice.length = shape.prod * dtype.itemsize then
    .ok ⟨shape, dtype, slice, h⟩
  else .error (.runtimeError "shape is invalid for input")

/-- Raised for a view at a storage offset the item size does not divide. -/
def misaligned : PyError := .runtimeError "self.storage_offset() must be divisible by the item size"

/-- The bytes of a tensor are viewed as the tensor exactly at an aligned offset. -/
theorem viewBytes_eq (t : Tensor) (rel : Nat) : viewBytes rel t.data t.dtype t.shape =
    if t.dtype.itemsize ∣ rel then .ok t else .error misaligned := by
  have hlen : t.data.length % t.dtype.itemsize = 0 := by
    rw [t.length_data]
    exact Nat.mod_eq_zero_of_dvd t.nbytes_dvd
  unfold viewBytes
  rw [if_neg (by omega)]
  by_cases h : t.dtype.itemsize ∣ rel
  · have hrel : rel % t.dtype.itemsize = 0 := Nat.mod_eq_zero_of_dvd h
    rw [if_neg (by omega), dif_pos t.sized, if_pos h]
  · have hrel : rel % t.dtype.itemsize ≠ 0 := fun hmod => h (Nat.dvd_of_mod_eq_zero hmod)
    rw [if_pos hrel, if_neg h]
    rfl

/-- `torch.cat([a, b], dim=0)` of two tensors of one dtype and one row shape. -/
def Tensor.cat (a b : Tensor) : Py Tensor :=
  match ha : a.shape, hb : b.shape with
  | m :: restA, n :: restB =>
    if h : restA = restB ∧ a.dtype = b.dtype then
      .ok {
        shape := (m + n) :: restB
        dtype := b.dtype
        data := a.data ++ b.data
        sized := by
          rw [List.length_append, a.sized, b.sized, ha, hb, h.1, h.2]
          simp only [List.prod_cons]
          ring }
    else .error (.runtimeError "Sizes of tensors must match except in dimension 0")
  | _, _ => .error (.runtimeError "zero-dimensional tensor cannot be concatenated")

end QCFuse.Source
