import Mathlib

/-!
# Searching, removing and trimming

Where a pattern first occurs in a list, a list without the occurrences found from left to right, and a list
without the elements of a kind at its ends.
-/

set_option autoImplicit false

namespace QCFuse.Library

universe u

variable {α : Type u}

/-- A pattern occurs in at most one place. -/
def AtMostOnce (sep xs : List α) : Prop :=
  ∀ a b a' b', xs = a ++ sep ++ b → xs = a' ++ sep ++ b' → a = a'

theorem AtMostOnce.of_infix {sep xs part : List α} (h : AtMostOnce sep xs) (hpart : part <:+: xs) :
    AtMostOnce sep part := by
  obtain ⟨u, v, rfl⟩ := hpart
  intro a b a' b' hab hab'
  have hsame := h (u ++ a) (b ++ v) (u ++ a') (b' ++ v) (by rw [hab]; simp) (by rw [hab']; simp)
  exact List.append_cancel_left hsame

section Search

variable [DecidableEq α] {sep : List α}

/-- Where `sep` first begins. -/
def findPart (sep : List α) : List α → Option Nat
  | [] => if sep = [] then some 0 else none
  | x :: xs => if sep <+: x :: xs then some 0 else (findPart sep xs).map (· + 1)

theorem findPart_eq_some {xs : List α} {n : Nat} (h : findPart sep xs = some n) :
    n ≤ xs.length ∧ xs = xs.take n ++ sep ++ xs.drop (n + sep.length) := by
  induction xs generalizing n with
  | nil =>
    rw [findPart] at h
    split at h
    next hsep =>
      cases h
      rw [hsep]
      exact ⟨Nat.le_refl _, rfl⟩
    next => cases h
  | cons x xs ih =>
    rw [findPart] at h
    split at h
    next hsep =>
      cases h
      obtain ⟨rest, hrest⟩ := hsep
      refine ⟨Nat.zero_le _, ?_⟩
      rw [← hrest, Nat.zero_add, List.take_zero, List.nil_append, List.drop_left]
    next =>
      obtain ⟨m, hm, rfl⟩ := Option.map_eq_some_iff.mp h
      obtain ⟨hle, hxs⟩ := ih hm
      refine ⟨Nat.succ_le_succ hle, ?_⟩
      rw [show m + 1 + sep.length = (m + sep.length) + 1 by omega, List.take_succ_cons, List.drop_succ_cons,
        List.cons_append, List.cons_append, ← hxs]

theorem findPart_eq_none_iff {xs : List α} : findPart sep xs = none ↔ ¬ sep <:+: xs := by
  induction xs with
  | nil =>
    rw [findPart, List.infix_nil]
    split <;> simp_all
  | cons x xs ih =>
    rw [findPart, List.infix_cons_iff, not_or]
    split
    next h => exact ⟨nofun, fun hn => absurd h hn.1⟩
    next h => rw [Option.map_eq_none_iff, ih, and_iff_right h]

/-- The only occurrence is the one that is found. -/
theorem findPart_eq_of_atMostOnce {a b : List α} (h : AtMostOnce sep (a ++ sep ++ b)) :
    findPart sep (a ++ sep ++ b) = some a.length := by
  cases hfind : findPart sep (a ++ sep ++ b) with
  | none => exact absurd ⟨a, b, rfl⟩ (findPart_eq_none_iff.mp hfind)
  | some n =>
    obtain ⟨hle, hn⟩ := findPart_eq_some hfind
    rw [h _ _ _ _ rfl hn, List.length_take, Nat.min_eq_left hle]

/-- A list without the occurrences of `sep` that are found from left to right; the first `skip` elements belong
to the one found last. -/
def removeParts (sep : List α) : Nat → List α → List α
  | _, [] => []
  | skip + 1, _ :: xs => removeParts sep skip xs
  | 0, x :: xs => if sep <+: x :: xs then removeParts sep (sep.length - 1) xs else x :: removeParts sep 0 xs

theorem removeParts_of_not_infix {xs : List α} (h : ¬ sep <:+: xs) : removeParts sep 0 xs = xs := by
  induction xs with
  | nil => rfl
  | cons x xs ih =>
    rw [List.infix_cons_iff, not_or] at h
    rw [removeParts, if_neg h.1, ih h.2]

theorem removeParts_skip (xs ys : List α) : removeParts sep xs.length (xs ++ ys) = removeParts sep 0 ys := by
  induction xs with
  | nil => rfl
  | cons x xs ih => exact ih

theorem removeParts_append_left (hsep : sep ≠ []) (ys : List α) :
    removeParts sep 0 (sep ++ ys) = removeParts sep 0 ys := by
  cases sep with
  | nil => exact absurd rfl hsep
  | cons x sep =>
    have hpre : x :: sep <+: x :: (sep ++ ys) := List.prefix_append (x :: sep) ys
    rw [List.cons_append, removeParts, if_pos hpre]
    exact removeParts_skip sep ys

end Search

/-! ## Trimming -/

section Trim

variable {p : α → Bool}

/-- Without the elements of a kind at both ends. -/
def trim (p : α → Bool) (xs : List α) : List α := (xs.dropWhile p).rdropWhile p

theorem rdropWhile_append_of_pos {xs ys : List α} (h : ∀ y ∈ ys, p y) :
    (xs ++ ys).rdropWhile p = xs.rdropWhile p := by
  rw [List.rdropWhile, List.reverse_append, List.dropWhile_append_of_pos fun y hy => h y (List.mem_reverse.mp hy)]
  rfl

theorem trim_append_right {xs ys : List α} (h : ∀ y ∈ ys, p y) : trim p (xs ++ ys) = trim p xs := by
  rw [trim, trim, List.dropWhile_append]
  split
  next hempty =>
    rw [List.isEmpty_iff.mp hempty, List.dropWhile_eq_nil_iff.mpr h]
  next => exact rdropWhile_append_of_pos h

theorem trim_append_left {xs ys : List α} (h : ∀ x ∈ xs, p x) : trim p (xs ++ ys) = trim p ys := by
  rw [trim, List.dropWhile_append_of_pos h]
  rfl

theorem rdropWhile_append_rtakeWhile (xs : List α) : xs.rdropWhile p ++ xs.rtakeWhile p = xs := by
  rw [List.rdropWhile, List.rtakeWhile, ← List.reverse_append, List.takeWhile_append_dropWhile, List.reverse_reverse]

theorem trim_append_rdropWhile (xs ys : List α) : trim p (xs ++ ys.rdropWhile p) = trim p (xs ++ ys) := by
  have hend : ∀ y ∈ ys.rtakeWhile p, p y := fun y hy =>
    List.mem_takeWhile_imp (List.mem_reverse.mp hy)
  conv_rhs => rw [← rdropWhile_append_rtakeWhile (p := p) ys, ← List.append_assoc]
  exact (trim_append_right hend).symm

theorem trim_rdropWhile (xs : List α) : trim p (xs.rdropWhile p) = trim p xs :=
  trim_append_rdropWhile [] xs

theorem trim_dropWhile (xs : List α) : trim p (xs.dropWhile p) = trim p xs := by
  conv_rhs => rw [← List.takeWhile_append_dropWhile (p := p) (l := xs)]
  exact (trim_append_left fun x hx => List.mem_takeWhile_imp hx).symm

theorem trim_trim (xs : List α) : trim p (trim p xs) = trim p xs := by
  change trim p ((xs.dropWhile p).rdropWhile p) = trim p xs
  rw [trim_rdropWhile, trim_dropWhile]

theorem trim_isInfix (xs : List α) : trim p xs <:+: xs :=
  (List.rdropWhile_prefix p _).isInfix.trans (List.dropWhile_suffix p).isInfix

/-- Trimming keeps the elements that are not of the kind. -/
theorem countP_trim (xs : List α) : (trim p xs).countP (fun x => !p x) = xs.countP fun x => !p x := by
  have hdrop : ∀ ys : List α, (ys.dropWhile p).countP (fun x => !p x) = ys.countP fun x => !p x := by
    intro ys
    induction ys with
    | nil => rfl
    | cons y ys ih =>
      rw [List.dropWhile_cons]
      split
      next hy => rw [ih, List.countP_cons_of_neg (by simp [hy])]
      next => rfl
  rw [trim, List.rdropWhile, List.countP_reverse, hdrop, List.countP_reverse, hdrop]

/-- What stands around a part that begins and ends with other elements is trimmed at the outer ends only. -/
theorem trim_around {first last : α} (hfirst : p first = false) (hlast : p last = false) (xs ys : List α)
    {mid mid' : List α} (hmid : mid = first :: mid') (hend : mid.getLast? = some last) :
    trim p (xs ++ mid ++ ys) = xs.dropWhile p ++ mid ++ ys.rdropWhile p := by
  have hstart : (xs ++ mid ++ ys).dropWhile p = xs.dropWhile p ++ mid ++ ys := by
    rw [List.append_assoc, List.append_assoc, List.dropWhile_append]
    split
    next hempty =>
      rw [List.isEmpty_iff.mp hempty, hmid, List.cons_append, List.dropWhile_cons_of_neg (by simp [hfirst])]
      rfl
    next => rfl
  obtain ⟨init, hinit⟩ := List.getLast?_eq_some_iff.mp hend
  rw [trim, hstart, List.rdropWhile, List.reverse_append, List.dropWhile_append]
  split
  next hempty =>
    have hys : ys.rdropWhile p = [] := by
      rw [List.rdropWhile, List.isEmpty_iff.mp hempty]
      rfl
    rw [hys, hinit, List.reverse_append, List.reverse_append, List.reverse_singleton, List.append_nil]
    change (List.dropWhile p (last :: (init.reverse ++ (xs.dropWhile p).reverse))).reverse = _
    rw [List.dropWhile_cons_of_neg (by simp [hlast])]
    simp
  next =>
    rw [List.reverse_append, List.reverse_reverse]
    rfl

end Trim

end QCFuse.Library
