import Mathlib

/-!
# Slices of lists, and pieces laid end to end

A slice is an offset and a length. Pieces written one after the other start where the
previous ones end, and a slice at a piece's start, of the piece's length, is the piece.
-/

set_option autoImplicit false

namespace QCFuse.Library

universe u v

variable {α : Type u} {β : Type v}

/-- `len` elements of `xs` from `off` on. -/
def slice (xs : List α) (off len : Nat) : List α := (xs.drop off).take len

theorem length_slice {xs : List α} {off len : Nat} (h : off + len ≤ xs.length) :
    (slice xs off len).length = len := by
  rw [slice, List.length_take, List.length_drop]
  omega

@[simp] theorem slice_zero_len (xs : List α) (off : Nat) : slice xs off 0 = [] := by
  simp [slice]

theorem slice_zero_length (xs : List α) : slice xs 0 xs.length = xs := by
  simp [slice]

/-- A slice of a slice is a slice. -/
theorem slice_slice {xs : List α} {off len rel n : Nat} (h : rel + n ≤ len) :
    slice (slice xs off len) rel n = slice xs (off + rel) n := by
  rw [slice, slice, slice, List.drop_take, List.drop_drop, List.take_take]
  congr 1
  omega

theorem slice_of_take_eq {xs ys : List α} {n rel len : Nat} (hpre : xs.take n = ys.take n)
    (h : rel + len ≤ n) : slice xs rel len = slice ys rel len := by
  have hslice : ∀ zs : List α, slice zs rel len = slice (zs.take n) rel len := by
    intro zs
    have hcut : slice (slice zs 0 n) rel len = slice zs (0 + rel) len := slice_slice h
    rw [Nat.zero_add] at hcut
    exact hcut.symm
  rw [hslice xs, hslice ys, hpre]

theorem slice_append_left {xs : List α} (ys : List α) {off len : Nat}
    (h : off + len ≤ xs.length) : slice (xs ++ ys) off len = slice xs off len := by
  refine slice_of_take_eq (n := xs.length) ?_ h
  rw [List.take_left, List.take_length]

theorem slice_append_right (xs ys : List α) (off len : Nat) :
    slice (xs ++ ys) (xs.length + off) len = slice ys off len := by
  rw [slice, slice, ← List.drop_drop, List.drop_left]

theorem take_of_isPrefix {xs ys : List α} {n : Nat} (h : xs <+: ys) (hn : n ≤ xs.length) :
    ys.take n = xs.take n := by
  obtain ⟨zs, rfl⟩ := h
  exact List.take_append_of_le_length hn

/-- Writing `ys` over `xs` at `off`. -/
def overwrite (xs : List α) (off : Nat) (ys : List α) : List α :=
  xs.take off ++ ys ++ xs.drop (off + ys.length)

theorem length_overwrite {xs ys : List α} {off : Nat} (h : off + ys.length ≤ xs.length) :
    (overwrite xs off ys).length = xs.length := by
  simp only [overwrite, List.length_append, List.length_take, List.length_drop]
  omega

/-- Overwriting behind a prefix extends the prefix by what is written. -/
theorem take_overwrite {xs ys : List α} {off : Nat} (h : off + ys.length ≤ xs.length) :
    (overwrite xs off ys).take (off + ys.length) = xs.take off ++ ys := by
  have hlen : (xs.take off ++ ys).length = off + ys.length := by
    rw [List.length_append, List.length_take]
    omega
  rw [overwrite]
  exact List.take_left' hlen

/-- Overwriting from a place on by what another list has there. -/
theorem overwrite_drop (xs ys : List α) (off : Nat) : overwrite xs off (ys.drop off) =
    if off ≤ ys.length then xs.take off ++ ys.drop off ++ xs.drop ys.length else xs := by
  rw [overwrite, List.length_drop]
  split
  next h => rw [Nat.add_sub_cancel' h]
  next h =>
    rw [List.drop_of_length_le (by omega), List.append_nil, Nat.sub_eq_zero_of_le (by omega), Nat.add_zero,
      List.take_append_drop]

theorem drop_overwrite_drop {xs ys : List α} (off : Nat) (h : ys.length ≤ xs.length) :
    (overwrite xs off (ys.drop off)).drop ys.length = xs.drop ys.length := by
  rw [overwrite_drop]
  split
  next hle =>
    refine List.drop_left' ?_
    rw [List.length_append, List.length_take, List.length_drop]
    omega
  next => rfl

theorem length_overwrite_drop {xs ys : List α} (off : Nat) (h : ys.length ≤ xs.length) :
    (overwrite xs off (ys.drop off)).length = xs.length := by
  rw [overwrite_drop]
  split
  next hle =>
    simp only [List.length_append, List.length_take, List.length_drop]
    omega
  next => rfl

section Laid

variable (size : β → Nat)

/-- Where piece `i` starts when the pieces are laid end to end. -/
def start (pieces : List β) (i : Nat) : Nat := ((pieces.take i).map size).sum

@[simp] theorem start_zero (pieces : List β) : start size pieces 0 = 0 := by
  simp [start]

theorem start_succ (pieces : List β) {i : Nat} (h : i < pieces.length) :
    start size pieces (i + 1) = start size pieces i + size pieces[i] := by
  rw [start, start, List.take_succ_eq_append_getElem h, List.map_append, List.sum_append,
    List.map_singleton, List.sum_singleton]

theorem start_length (pieces : List β) : start size pieces pieces.length = (pieces.map size).sum := by
  rw [start, List.take_length]

theorem start_append_left (xs ys : List β) {i : Nat} (h : i ≤ xs.length) :
    start size (xs ++ ys) i = start size xs i := by
  rw [start, start, List.take_append_of_le_length h]

theorem start_append_right (xs ys : List β) (i : Nat) :
    start size (xs ++ ys) (xs.length + i) = (xs.map size).sum + start size ys i := by
  rw [start, start, List.take_length_add_append, List.map_append, List.sum_append]

theorem start_mono (pieces : List β) {i j : Nat} (h : i ≤ j) :
    start size pieces i ≤ start size pieces j := by
  obtain ⟨d, rfl⟩ := Nat.exists_eq_add_of_le h
  rw [start, start, List.take_add, List.map_append, List.sum_append]
  exact Nat.le_add_right _ _

/-- Two starts coincide exactly when the pieces between them are empty. -/
theorem start_eq_start_iff (pieces : List β) {i j : Nat} (hij : i ≤ j) (hj : j ≤ pieces.length) :
    start size pieces i = start size pieces j ↔
      ∀ p (hp : p < pieces.length), i ≤ p → p < j → size pieces[p] = 0 := by
  constructor
  · intro heq p hp hip hpj
    have hle : start size pieces i ≤ start size pieces p := start_mono size pieces hip
    have hlt : start size pieces (p + 1) ≤ start size pieces j := start_mono size pieces hpj
    rw [start_succ size pieces hp] at hlt
    omega
  · intro hzero
    induction j, hij using Nat.le_induction with
    | base => rfl
    | succ j hij ih =>
      rw [start_succ size pieces (by omega), hzero j (by omega) hij (by omega), Nat.add_zero]
      exact ih (by omega) fun p hp hip hpj => hzero p hp hip (by omega)

theorem getElem?_flatten_start {pieces : List (List α)} {i j : Nat} (hi : i < pieces.length)
    (hj : j < (pieces[i]).length) :
    pieces.flatten[start List.length pieces i + j]? = some (pieces[i])[j] := by
  rw [start, List.map_take, ← List.getElem?_drop, List.drop_sum_flatten,
    List.drop_eq_getElem_cons hi, List.flatten_cons, List.getElem?_append_left hj,
    List.getElem?_eq_getElem hj]

variable (encode : β → List α)

theorem length_flatMap_size (hsize : ∀ b, (encode b).length = size b) (pieces : List β) :
    (pieces.flatMap encode).length = (pieces.map size).sum := by
  rw [List.length_flatMap]
  congr 1
  exact List.map_congr_left fun b _ => hsize b

/-- The slice at a piece's start is the piece. -/
theorem slice_laid (hsize : ∀ b, (encode b).length = size b) (pieces : List β) {i : Nat}
    (h : i < pieces.length) :
    slice (pieces.flatMap encode) (start size pieces i) (size pieces[i]) = encode pieces[i] := by
  have hsplit : pieces = pieces.take i ++ pieces[i] :: pieces.drop (i + 1) := by
    rw [← List.drop_eq_getElem_cons h, List.take_append_drop]
  have hstart : start size pieces i = ((pieces.take i).flatMap encode).length := by
    rw [length_flatMap_size size encode hsize, start]
  have hlaid : pieces.flatMap encode = (pieces.take i).flatMap encode ++
      (encode pieces[i] ++ (pieces.drop (i + 1)).flatMap encode) := by
    conv_lhs => rw [hsplit]
    rw [List.flatMap_append, List.flatMap_cons]
  rw [hstart, hlaid, ← Nat.add_zero (List.length _), slice_append_right, ← hsize,
    slice_append_left _ (by omega), slice_zero_length]

end Laid

/-- Position `j` of block `i` where every block has `n` elements. -/
theorem getElem?_flatMap_block {f : β → List α} {n : Nat} {xs : List β} (hf : ∀ x ∈ xs, (f x).length = n)
    (i : Nat) {j : Nat} (hj : j < n) : (xs.flatMap f)[i * n + j]? = xs[i]?.bind fun x => (f x)[j]? := by
  induction xs generalizing i with
  | nil => rfl
  | cons x xs ih =>
    have hx := hf x List.mem_cons_self
    rw [List.flatMap_cons]
    cases i with
    | zero => rw [Nat.zero_mul, Nat.zero_add, List.getElem?_append_left (by rw [hx]; exact hj)]; rfl
    | succ i =>
      rw [List.getElem?_append_right (by rw [hx, Nat.succ_mul]; omega), hx, List.getElem?_cons_succ,
        ← ih fun y hy => hf y (List.mem_cons_of_mem x hy)]
      congr 1
      rw [Nat.succ_mul]
      omega

theorem length_flatMap_block {f : β → List α} {n : Nat} {xs : List β} (hf : ∀ x ∈ xs, (f x).length = n) :
    (xs.flatMap f).length = xs.length * n := by
  rw [List.length_flatMap, List.map_congr_left hf, List.map_const', List.sum_replicate, smul_eq_mul]

end QCFuse.Library
