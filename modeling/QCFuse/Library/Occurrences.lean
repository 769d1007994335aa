import Mathlib.Data.List.Infix

/-!
# Occurrences of a pattern in a list

All occurrences of a pattern, overlapping or not, and those a search from left to right finds when
it goes on behind each one. The two agree exactly if no two occurrences overlap. What lies between
the occurrences found are the segments of the list.
-/

set_option autoImplicit false

namespace QCFuse.Library

universe u

variable {α : Type u}

/-- The pieces of `xs` from `prev` on, between cuts of `width` elements. -/
def pieces (xs : List α) (width : Nat) : Nat → List Nat → List (List α)
  | prev, [] => [xs.drop prev]
  | prev, m :: cuts => (xs.drop prev).take (m - prev) :: pieces xs width (m + width) cuts

theorem length_pieces (xs : List α) (width prev : Nat) (cuts : List Nat) :
    (pieces xs width prev cuts).length = cuts.length + 1 := by
  induction cuts generalizing prev with
  | nil => rfl
  | cons m cuts ih => rw [pieces, List.length_cons, ih, List.length_cons]

/-- Each start is at least `width` behind the ones before it. -/
def Apart (width : Nat) (starts : List Nat) : Prop := starts.Pairwise fun m m' => m + width ≤ m'

variable [DecidableEq α] (sep : List α)

/-- Where `sep` begins in a list whose first place is `base`. -/
def occurrences : Nat → List α → List Nat
  | _, [] => []
  | base, x :: xs => (if sep <+: x :: xs then [base] else []) ++ occurrences (base + 1) xs

/-- Where a search from left to right finds `sep`; the first `skip` elements belong to the one it
found last. -/
def leftToRight : Nat → Nat → List α → List Nat
  | _, _, [] => []
  | base, skip + 1, _ :: xs => leftToRight (base + 1) skip xs
  | base, 0, x :: xs =>
    if sep <+: x :: xs then base :: leftToRight (base + 1) (sep.length - 1) xs
    else leftToRight (base + 1) 0 xs

/-- The segments of a list between the occurrences found from left to right. -/
def segments (xs : List α) : List (List α) := pieces xs sep.length 0 (leftToRight sep 0 0 xs)

theorem length_segments (xs : List α) :
    (segments sep xs).length = (leftToRight sep 0 0 xs).length + 1 :=
  length_pieces xs sep.length 0 _

variable {sep}

theorem le_of_mem_occurrences {base m : Nat} {xs : List α} (h : m ∈ occurrences sep base xs) :
    base ≤ m := by
  induction xs generalizing base with
  | nil => cases h
  | cons x xs ih =>
    rw [occurrences] at h
    rcases List.mem_append.mp h with hbase | hrest
    · split at hbase
      next => exact (List.mem_singleton.mp hbase).ge
      next => cases hbase
    · have := ih hrest
      omega

/-- The occurrences as the places where the rest of the list begins with the pattern. -/
theorem occurrences_eq_filter (base : Nat) (xs : List α) : occurrences sep base xs =
    (List.range' base xs.length).filter fun m => decide (sep <+: xs.drop (m - base)) := by
  induction xs generalizing base with
  | nil => rfl
  | cons x xs ih =>
    have hrest : (List.range' (base + 1) xs.length).filter
        (fun m => decide (sep <+: (x :: xs).drop (m - base))) = occurrences sep (base + 1) xs := by
      rw [ih (base + 1)]
      refine List.filter_congr fun m hm => ?_
      have hm := (List.mem_range'_1.mp hm).1
      rw [show m - base = (m - (base + 1)) + 1 by omega, List.drop_succ_cons]
    rw [occurrences, List.length_cons, List.range'_succ, List.filter_cons, hrest, Nat.sub_self,
      List.drop_zero]
    by_cases h : sep <+: x :: xs
    · simp only [h, decide_true, if_true, List.singleton_append]
    · simp only [h, decide_false, if_false, List.nil_append, Bool.false_eq_true]

theorem le_of_mem_leftToRight {base skip m : Nat} {xs : List α}
    (h : m ∈ leftToRight sep base skip xs) : base + skip ≤ m := by
  induction xs generalizing base skip with
  | nil => cases h
  | cons x xs ih =>
    cases skip with
    | succ skip =>
      have := ih h
      omega
    | zero =>
      rw [leftToRight] at h
      split at h
      next =>
        rcases List.mem_cons.mp h with rfl | h
        · exact le_refl _
        · have := ih h
          omega
      next =>
        have := ih h
        omega

theorem leftToRight_sublist (base skip : Nat) (xs : List α) :
    (leftToRight sep base skip xs).Sublist (occurrences sep base xs) := by
  induction xs generalizing base skip with
  | nil => exact List.Sublist.refl _
  | cons x xs ih =>
    rw [occurrences]
    cases skip with
    | succ skip => exact (ih (base + 1) skip).trans (List.sublist_append_right _ _)
    | zero =>
      rw [leftToRight]
      split
      next => exact (ih (base + 1) _).cons_cons base
      next => exact ih (base + 1) 0

/-- What the search finds does not overlap. -/
theorem leftToRight_apart (hsep : sep ≠ []) (base skip : Nat) (xs : List α) :
    Apart sep.length (leftToRight sep base skip xs) := by
  have hpos := List.length_pos_iff.mpr hsep
  induction xs generalizing base skip with
  | nil => exact .nil
  | cons x xs ih =>
    cases skip with
    | succ skip => exact ih (base + 1) skip
    | zero =>
      rw [leftToRight]
      split
      next =>
        refine .cons (fun m hm => ?_) (ih (base + 1) _)
        have := le_of_mem_leftToRight hm
        omega
      next => exact ih (base + 1) 0

/-- If no two occurrences overlap, the search finds them all. -/
theorem leftToRight_eq_occurrences (hsep : sep ≠ []) {base skip : Nat} {xs : List α}
    (hskip : ∀ m ∈ occurrences sep base xs, base + skip ≤ m)
    (h : Apart sep.length (occurrences sep base xs)) :
    leftToRight sep base skip xs = occurrences sep base xs := by
  have hpos := List.length_pos_iff.mpr hsep
  induction xs generalizing base skip with
  | nil => rfl
  | cons x xs ih =>
    rw [occurrences] at h hskip ⊢
    have hlater : ∀ m ∈ occurrences sep (base + 1) xs, base + 1 ≤ m := fun m => le_of_mem_occurrences
    cases skip with
    | succ skip =>
      have hfirst : ¬ sep <+: x :: xs := by
        intro hpre
        rw [if_pos hpre] at hskip
        have := hskip base (List.mem_append_left _ (List.mem_singleton_self base))
        omega
      rw [if_neg hfirst, List.nil_append] at h hskip ⊢
      refine ih (fun m hm => ?_) h
      have := hskip m hm
      omega
    | zero =>
      rw [leftToRight]
      by_cases hpre : sep <+: x :: xs
      · rw [if_pos hpre] at h ⊢
        obtain ⟨hfirst, hrest⟩ := List.pairwise_cons.mp h
        rw [if_pos hpre, List.singleton_append]
        congr 1
        refine ih (fun m hm => ?_) hrest
        have := hfirst m hm
        omega
      · rw [if_neg hpre] at h ⊢
        rw [if_neg hpre, List.nil_append]
        exact ih (fun m hm => by have := hlater m hm; omega) h

/-- The search misses an occurrence exactly if two of them overlap. -/
theorem length_leftToRight_iff (hsep : sep ≠ []) (xs : List α) :
    (leftToRight sep 0 0 xs).length = (occurrences sep 0 xs).length ↔
      Apart sep.length (occurrences sep 0 xs) := by
  constructor
  · intro hlen
    have heq : leftToRight sep 0 0 xs = occurrences sep 0 xs :=
      (leftToRight_sublist 0 0 xs).eq_of_length hlen
    rw [← heq]
    exact leftToRight_apart hsep 0 0 xs
  · intro h
    rw [leftToRight_eq_occurrences hsep (fun m _ => Nat.zero_le m) h]

end QCFuse.Library
