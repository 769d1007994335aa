import Mathlib.Data.List.Nodup
import Mathlib.Tactic.Ring

/-!
# Splitting elements evenly over chunks

`n` elements in `c` chunks, the first `n % c` chunks one element longer. The chunk of an element and
the range of a chunk are computed by two formulas that agree.
-/

set_option autoImplicit false

namespace QCFuse.Library

/-- Where chunk `k` starts. -/
def chunkStart (n c k : Nat) : Nat := k * (n / c) + min k (n % c)

/-- The chunk that holds element `i`. -/
def chunkOf (n c i : Nat) : Nat :=
  if i < n % c * (n / c + 1) then i / (n / c + 1) else n % c + (i - n % c * (n / c + 1)) / (n / c)

theorem chunkStart_succ (n c k : Nat) :
    chunkStart n c (k + 1) = chunkStart n c k + n / c + if k < n % c then 1 else 0 := by
  unfold chunkStart
  rw [Nat.succ_mul]
  split
  next h => rw [Nat.min_eq_left h, Nat.min_eq_left (Nat.le_of_lt h)]; omega
  next h => rw [Nat.min_eq_right (by omega), Nat.min_eq_right (by omega)]; omega

theorem chunkStart_last {n c : Nat} (hc : 0 < c) : chunkStart n c c = n := by
  have hmod := Nat.mod_lt n hc
  rw [chunkStart, Nat.min_eq_right (by omega)]
  exact Nat.div_add_mod n c

theorem chunkStart_mono (n c : Nat) {j k : Nat} (h : j ≤ k) : chunkStart n c j ≤ chunkStart n c k := by
  have := Nat.mul_le_mul_right (n / c) h
  unfold chunkStart
  omega

/-- An element lies in the range of its chunk. -/
theorem chunkOf_spec {n c i : Nat} (hi : i < n) :
    chunkStart n c (chunkOf n c i) ≤ i ∧ i < chunkStart n c (chunkOf n c i + 1) := by
  have hn := Nat.div_add_mod n c
  rw [chunkStart_succ]
  unfold chunkOf chunkStart
  generalize hs : n / c = short at *
  generalize hl : n % c = long at *
  by_cases hlong : i < long * (short + 1)
  · rw [if_pos hlong]
    have hq := Nat.div_add_mod i (short + 1)
    have hr := Nat.mod_lt i (by omega : 0 < short + 1)
    have hlt : i / (short + 1) < long := (Nat.div_lt_iff_lt_mul (Nat.succ_pos short)).mpr hlong
    generalize i / (short + 1) = q at *
    rw [if_pos hlt, Nat.min_eq_left (Nat.le_of_lt hlt)]
    rw [Nat.add_mul, Nat.one_mul, Nat.mul_comm] at hq
    constructor <;> omega
  · rw [if_neg hlong]
    have hshort : 0 < short := by
      rcases Nat.eq_zero_or_pos short with rfl | hpos
      · omega
      · exact hpos
    obtain ⟨j, hj⟩ : ∃ j, i = long * (short + 1) + j := Nat.exists_eq_add_of_le (not_lt.mp hlong)
    rw [hj, Nat.add_sub_cancel_left]
    have hq := Nat.div_add_mod j short
    have hr := Nat.mod_lt j hshort
    generalize j / short = q at *
    rw [if_neg (by omega), Nat.min_eq_right (by omega), Nat.add_mul, Nat.mul_add, Nat.mul_one]
    rw [Nat.mul_comm short q] at hq
    constructor <;> omega

/-- The two formulas agree. -/
theorem chunkOf_eq_iff {n c i k : Nat} (hi : i < n) :
    chunkOf n c i = k ↔ chunkStart n c k ≤ i ∧ i < chunkStart n c (k + 1) := by
  obtain ⟨hlo, hhi⟩ := chunkOf_spec (c := c) hi
  constructor
  · rintro rfl
    exact ⟨hlo, hhi⟩
  · rintro ⟨hstart, hstop⟩
    rcases Nat.lt_trichotomy (chunkOf n c i) k with hlt | heq | hgt
    · have := chunkStart_mono n c (by omega : chunkOf n c i + 1 ≤ k)
      omega
    · exact heq
    · have := chunkStart_mono n c (by omega : k + 1 ≤ chunkOf n c i)
      omega

theorem chunkOf_lt {n c i : Nat} (hc : 0 < c) (hi : i < n) : chunkOf n c i < c := by
  by_contra hge
  have hle := chunkStart_mono n c (Nat.le_of_not_lt hge)
  rw [chunkStart_last hc] at hle
  have := (chunkOf_spec (c := c) hi).1
  omega

/-- Membership in a range of positions of a list without repetitions. -/
theorem mem_drop_take_iff {α : Type} [DecidableEq α] {xs : List α} (hxs : xs.Nodup) (start len : Nat) (x : α) :
    x ∈ (xs.drop start).take len ↔ x ∈ xs ∧ start ≤ xs.idxOf x ∧ xs.idxOf x < start + len := by
  rw [List.mem_take_iff_getElem]
  constructor
  · rintro ⟨j, hj, rfl⟩
    have hlen : j < (xs.drop start).length := by omega
    rw [List.length_drop] at hlen
    rw [List.getElem_drop, hxs.idxOf_getElem]
    exact ⟨List.getElem_mem _, by omega, by omega⟩
  · rintro ⟨hx, hstart, hstop⟩
    have hlt := List.idxOf_lt_length_of_mem hx
    have hj : xs.idxOf x - start < min len (xs.drop start).length := by
      rw [List.length_drop]
      omega
    refine ⟨xs.idxOf x - start, hj, ?_⟩
    rw [List.getElem_drop]
    simp only [Nat.add_sub_cancel' hstart]
    exact List.getElem_idxOf hlt

end QCFuse.Library
