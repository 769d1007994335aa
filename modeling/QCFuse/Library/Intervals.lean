import Mathlib.Data.Int.Range
import Mathlib.Data.List.Flatten

/-!
# Integer intervals, one after the other

A list of half-open intervals stands for the integers in it, interval by interval. Where the
intervals follow each other in order the integers increase; where each begins at the end of the
one before, the running sums of the widths are their boundaries.
-/

set_option autoImplicit false

namespace QCFuse.Library

/-- `x` lies in the half-open interval `c`. -/
def Inside (c : Int × Int) (x : Int) : Prop := c.1 ≤ x ∧ x < c.2

instance (c : Int × Int) (x : Int) : Decidable (Inside c x) := inferInstanceAs (Decidable (_ ∧ _))

/-- The integers of the intervals, interval by interval. -/
def points (ranges : List (Int × Int)) : List Int := ranges.flatMap fun c => Int.range c.1 c.2

theorem length_range (a b : Int) : (Int.range a b).length = (b - a).toNat := by
  rw [Int.range, List.length_map, List.length_range]

theorem pairwise_range (a b : Int) : (Int.range a b).Pairwise (· < ·) := by
  rw [Int.range, List.pairwise_map]
  exact List.pairwise_lt_range.imp fun h => by omega

theorem getElem?_range {a b : Int} {k : Nat} (hk : (k : Int) < b - a) :
    (Int.range a b)[k]? = some (a + k) := by
  rw [Int.range, List.getElem?_map, List.getElem?_range (by omega), Option.map_some]

@[simp] theorem points_nil : points [] = [] := rfl

@[simp] theorem points_cons (c : Int × Int) (ranges : List (Int × Int)) :
    points (c :: ranges) = Int.range c.1 c.2 ++ points ranges := rfl

theorem points_append (xs ys : List (Int × Int)) : points (xs ++ ys) = points xs ++ points ys :=
  List.flatMap_append

theorem mem_points {ranges : List (Int × Int)} {x : Int} :
    x ∈ points ranges ↔ ∃ c ∈ ranges, Inside c x := by
  simp only [points, List.mem_flatMap, Int.mem_range_iff, Inside]

/-- Intervals in order list their integers in order. -/
theorem pairwise_points {ranges : List (Int × Int)}
    (h : ranges.Pairwise fun c d => c.2 ≤ d.1) : (points ranges).Pairwise (· < ·) := by
  rw [points, List.pairwise_flatMap]
  refine ⟨fun c _ => pairwise_range c.1 c.2, h.imp fun {c d} hcd x hx y hy => ?_⟩
  have := Int.mem_range_iff.mp hx
  have := Int.mem_range_iff.mp hy
  omega

/-- Each interval begins where the one before ends, the first at `base`. -/
def Adjoining : Int → List (Int × Int) → Prop
  | _, [] => True
  | base, c :: rest => c.1 = base ∧ Adjoining c.2 rest

/-- The intervals between successive values of a function, and what adjoins them. -/
theorem adjoining_steps (g : Nat → Int) (m j : Nat) {rest : List (Int × Int)}
    (h : Adjoining (g (j + m)) rest) :
    Adjoining (g j) ((List.range' j m).map (fun i => (g i, g (i + 1))) ++ rest) := by
  induction m generalizing j with
  | zero => exact h
  | succ m ih =>
    rw [List.range'_succ, List.map_cons, List.cons_append]
    refine ⟨rfl, ih (j + 1) ?_⟩
    rwa [Nat.add_right_comm]

end QCFuse.Library
