import QCFuse.Library.Dict
import QCFuse.Library.LeastLoaded
import QCFuse.Source.DpBudget

/-!
# Budgeted dispatch

A round of `update_budget` raises the ranks with the least load to the next load. The number of distinct loads
falls with every round, and the numbers of the loop are the loads with the queue counted.
-/

set_option autoImplicit false

namespace QCFuse.Guarantees

open QCFuse.Library QCFuse.Source QCFuse.Source.DPBudget

/-- The load that is given for a rank. -/
def loadOf (loads : List RankLoad) (rank : Nat) : Nat :=
  ((loads.find? fun l => l.dpRank == rank).map RankLoad.numReqs).getD 0

/-- The largest of the loads. -/
def largest (loads : List RankLoad) : Nat := (loads.map RankLoad.numReqs).max?.getD 0

def ranksOf (loads : List RankLoad) : List Nat := loads.map RankLoad.dpRank

/-- What a queue is for: each of its ranks has the least counted load when its turn comes, and in the end all have
the largest of the given loads. -/
structure Budgeted (loads : List RankLoad) (queue : List Nat) : Prop where
  dispatched : dispatches queue.length ⟨queue⟩ = queue.map some
  least : LeastLoaded (ranksOf loads) (loadOf loads) queue
  level : ∀ l ∈ loads, counted (loadOf loads) queue l.dpRank = largest loads
  length : queue.length = (loads.map fun l => largest loads - l.numReqs).sum

variable {loads : List RankLoad}

theorem loadOf_dpRank (hdistinct : (ranksOf loads).Nodup) {l : RankLoad} (hl : l ∈ loads) :
    loadOf loads l.dpRank = l.numReqs := by
  rw [loadOf, find?_key hdistinct hl]
  rfl

theorem dispatches_eq (queue : List Nat) : dispatches queue.length ⟨queue⟩ = queue.map some := by
  induction queue with
  | nil => rfl
  | cons rank queue ih => exact congrArg (some rank :: ·) ih

theorem unequal_eq_false_iff {numReqs : List Nat} :
    unequal numReqs = false ↔ ∀ x ∈ numReqs, ∀ y ∈ numReqs, x = y := by
  cases numReqs with
  | nil => simp [unequal]
  | cons head rest =>
    have hhead : unequal (head :: rest) = false ↔ ∀ x ∈ head :: rest, x = head := by
      simp [unequal, List.any_eq_false]
    rw [hhead]
    constructor
    · intro h x hx y hy
      rw [h x hx, h y hy]
    · intro h x hx
      exact h x hx head List.mem_cons_self

/-- Between rounds: the numbers are the counted loads, and the largest has not changed. -/
structure Raised (loads : List RankLoad) (numReqs queue : List Nat) : Prop where
  numbers : numReqs = loads.map fun l => counted (loadOf loads) queue l.dpRank
  least : LeastLoaded (ranksOf loads) (loadOf loads) queue
  le_largest : ∀ x ∈ numReqs, x ≤ largest loads
  largest_mem : largest loads ∈ numReqs

namespace Raised

variable {numReqs queue : List Nat}

/-- A round goes through, and with it the least load is gone. -/
theorem raise (h : Raised loads numReqs queue) (hdistinct : (ranksOf loads).Nodup)
    (hunequal : unequal numReqs = true) :
    ∃ extension numReqs', raiseLeast loads numReqs = some (extension, numReqs') ∧
      Raised loads numReqs' (queue ++ extension) ∧ numReqs'.toFinset.card < numReqs.toFinset.card := by
  have hne : ¬ ∀ x ∈ numReqs, ∀ y ∈ numReqs, x = y := by
    rw [← unequal_eq_false_iff, hunequal]
    exact Bool.true_eq_false_eq_False
  obtain ⟨minLoad, hmin⟩ := Option.ne_none_iff_exists'.mp
    (mt List.min?_eq_none_iff.mp (List.ne_nil_of_mem h.largest_mem))
  obtain ⟨hminMem, hminLe⟩ := List.min?_eq_some_iff.mp hmin
  have hgreater : numReqs.filter (fun x => minLoad < x) ≠ [] := by
    intro hnil
    refine hne fun x hx y hy => ?_
    have hle : ∀ z ∈ numReqs, z = minLoad := by
      intro z hz
      have hnot := List.filter_eq_nil_iff.mp hnil z hz
      rw [decide_eq_true_iff, Nat.not_lt] at hnot
      exact Nat.le_antisymm hnot (hminLe z hz)
    rw [hle x hx, hle y hy]
  obtain ⟨secondMinLoad, hsecond⟩ := Option.ne_none_iff_exists'.mp (mt List.min?_eq_none_iff.mp hgreater)
  obtain ⟨hsecondMem, hsecondLe⟩ := List.min?_eq_some_iff.mp hsecond
  obtain ⟨hsecondMem, hlt⟩ := List.mem_filter.mp hsecondMem
  have hlt : minLoad < secondMinLoad := by simpa using hlt
  have hsecondLe : ∀ x ∈ numReqs, x ≠ minLoad → secondMinLoad ≤ x := fun x hx hxne =>
    hsecondLe x (List.mem_filter.mpr ⟨hx, by simpa using lt_of_le_of_ne (hminLe x hx) (Ne.symm hxne)⟩)
  -- the ranks of the round, and the counted loads behind it
  let lowest := (ranksOf loads).filter fun r => counted (loadOf loads) queue r = minLoad
  let extension := (List.replicate (secondMinLoad - minLoad) lowest).flatten
  have hlowest : ((loads.zip numReqs).filter fun entry => entry.2 = minLoad).map (fun entry => entry.1.dpRank) =
      lowest := by
    have hzip : loads.zip numReqs = loads.map fun l => (l, counted (loadOf loads) queue l.dpRank) := by
      rw [h.numbers]
      exact List.map_prod_left_eq_zip.symm
    simp only [lowest, ranksOf, hzip, List.filter_map, List.map_map]
    rfl
  have hmemLowest : ∀ r, r ∈ lowest ↔ r ∈ ranksOf loads ∧ counted (loadOf loads) queue r = minLoad := fun r => by
    simp [lowest]
  have hnumber : ∀ r ∈ ranksOf loads, counted (loadOf loads) queue r ∈ numReqs := by
    intro r hr
    obtain ⟨l, hl, rfl⟩ := List.mem_map.mp hr
    rw [h.numbers]
    exact List.mem_map_of_mem hl
  have hnodup : lowest.Nodup := hdistinct.filter _
  have hpasses : LeastLoaded (ranksOf loads) (counted (loadOf loads) queue) extension := by
    refine leastLoaded_passes hnodup (fun r hr => ((hmemLowest r).mp hr).1) (fun r hr => ((hmemLowest r).mp hr).2) ?_
    intro r hr hnot
    have hge := hsecondLe _ (hnumber r hr) fun heq => hnot ((hmemLowest r).mpr ⟨hr, heq⟩)
    omega
  have hcounted : ∀ r ∈ ranksOf loads, counted (loadOf loads) (queue ++ extension) r =
      if counted (loadOf loads) queue r = minLoad then secondMinLoad else counted (loadOf loads) queue r := by
    intro r hr
    rw [counted_append, counted_passes hnodup]
    simp only [hmemLowest, hr, true_and]
    split <;> omega
  let numReqs' := numReqs.map fun x => if x = minLoad then secondMinLoad else x
  have hmem' : ∀ x ∈ numReqs', x ∈ numReqs ∧ x ≠ minLoad := by
    intro x hx
    obtain ⟨y, hy, rfl⟩ := List.mem_map.mp hx
    split
    next => exact ⟨hsecondMem, Nat.ne_of_gt hlt⟩
    next hne => exact ⟨hy, hne⟩
  refine ⟨extension, numReqs', ?_, ⟨?_, h.least.append hpasses, fun x hx => h.le_largest x (hmem' x hx).1, ?_⟩, ?_⟩
  · simp only [raiseLeast, hmin, hsecond, hlowest, Option.bind_eq_bind, Option.bind_some]
    rfl
  · simp only [numReqs']
    conv_lhs => rw [h.numbers, List.map_map]
    exact List.map_congr_left fun l hl => (hcounted l.dpRank (List.mem_map_of_mem hl)).symm
  · refine List.mem_map.mpr ⟨largest loads, h.largest_mem, if_neg fun heq => ?_⟩
    have := h.le_largest _ hsecondMem
    omega
  · refine Finset.card_lt_card (Finset.ssubset_iff_of_subset ?_ |>.mpr ⟨minLoad, List.mem_toFinset.mpr hminMem, ?_⟩)
    · intro x hx
      exact List.mem_toFinset.mpr (hmem' x (List.mem_toFinset.mp hx)).1
    · intro hx
      exact (hmem' _ (List.mem_toFinset.mp hx)).2 rfl

/-- The loop comes to an end with all numbers equal. -/
theorem loop (h : Raised loads numReqs queue) (hdistinct : (ranksOf loads).Nodup) {fuel : Nat}
    (hfuel : numReqs.toFinset.card ≤ fuel + 1) :
    ∃ numReqs' queue', raiseLoop loads fuel numReqs queue = some queue' ∧ Raised loads numReqs' queue' ∧
      unequal numReqs' = false := by
  induction fuel generalizing numReqs queue with
  | zero =>
    have hequal : unequal numReqs = false := by
      rw [unequal_eq_false_iff]
      intro x hx y hy
      exact Finset.card_le_one.mp hfuel x (List.mem_toFinset.mpr hx) y (List.mem_toFinset.mpr hy)
    refine ⟨numReqs, queue, ?_, h, hequal⟩
    rw [raiseLoop, hequal]
    rfl
  | succ fuel ih =>
    cases hunequal : unequal numReqs with
    | false =>
      refine ⟨numReqs, queue, ?_, h, hunequal⟩
      rw [raiseLoop, hunequal]
      rfl
    | true =>
      obtain ⟨extension, numReqs', hround, hraised, hcard⟩ := h.raise hdistinct hunequal
      obtain ⟨numReqs'', queue', hloop, hend⟩ := ih hraised (by omega)
      refine ⟨numReqs'', queue', ?_, hend⟩
      rw [raiseLoop, hunequal, if_pos rfl]
      simp only [hround, Option.bind_eq_bind, Option.bind_some]
      exact hloop

theorem budgeted (h : Raised loads numReqs queue) (hdistinct : (ranksOf loads).Nodup)
    (hequal : unequal numReqs = false) : Budgeted loads queue := by
  have hlevel : ∀ l ∈ loads, counted (loadOf loads) queue l.dpRank = largest loads := by
    intro l hl
    refine unequal_eq_false_iff.mp hequal _ ?_ _ h.largest_mem
    rw [h.numbers]
    exact List.mem_map_of_mem hl
  refine ⟨dispatches_eq queue, h.least, hlevel, ?_⟩
  have hsum : ((ranksOf loads).map fun r => counted (loadOf loads) queue r - loadOf loads r).sum = queue.length :=
    sum_counted hdistinct fun r hr => h.least.mem hr
  rw [← hsum, ranksOf, List.map_map]
  refine congrArg List.sum (List.map_congr_left fun l hl => ?_)
  rw [Function.comp_apply, hlevel l hl, loadOf_dpRank hdistinct hl]

/-- Before the first round. -/
theorem start (hdistinct : (ranksOf loads).Nodup) (hne : loads ≠ []) :
    Raised loads (loads.map RankLoad.numReqs) [] := by
  obtain ⟨most, hmost⟩ := Option.ne_none_iff_exists'.mp
    (mt List.max?_eq_none_iff.mp (mt List.map_eq_nil_iff.mp hne) : (loads.map RankLoad.numReqs).max? ≠ none)
  obtain ⟨hmem, hle⟩ := List.max?_eq_some_iff.mp hmost
  have hlargest : largest loads = most := by rw [largest, hmost, Option.getD_some]
  refine ⟨List.map_congr_left fun l hl => ?_, leastLoaded_nil, fun x hx => hlargest ▸ hle x hx, hlargest ▸ hmem⟩
  rw [counted_nil, loadOf_dpRank hdistinct hl]

end Raised

/-- `update_budget` comes to an end within as many rounds as there are ranks, and its queue is a least-loaded one. -/
theorem updateBudget_leastLoaded (b : DPBudget) {loads : List RankLoad} (hdistinct : (ranksOf loads).Nodup)
    {fuel : Nat} (hfuel : loads.length ≤ fuel) : ∃ queue, b.updateBudget fuel loads = some ⟨queue⟩ ∧ Budgeted loads queue := by
  by_cases hempty : loads = []
  · subst hempty
    exact ⟨[], rfl, rfl, leastLoaded_nil, fun l hl => (by cases hl), rfl⟩
  · have hstart := Raised.start hdistinct hempty
    have hcard : (loads.map RankLoad.numReqs).toFinset.card ≤ fuel + 1 :=
      (List.toFinset_card_le _).trans (by rw [List.length_map]; omega)
    obtain ⟨numReqs', queue, hloop, hraised, hequal⟩ := hstart.loop hdistinct hcard
    obtain ⟨most, hmost⟩ := Option.ne_none_iff_exists'.mp
      (mt List.max?_eq_none_iff.mp (mt List.map_eq_nil_iff.mp hempty) : (loads.map RankLoad.numReqs).max? ≠ none)
    cases hall : (loads.map RankLoad.numReqs).all fun x => x = most with
    | false =>
      refine ⟨queue, ?_, hraised.budgeted hdistinct hequal⟩
      simp only [updateBudget, hmost, hall, Bool.false_eq_true, if_false, hloop, Option.map_some]
    | true =>
      refine ⟨[], ?_, hstart.budgeted hdistinct (unequal_eq_false_iff.mpr fun x hx y hy => ?_)⟩
      · simp only [updateBudget, hmost, hall, if_true]
      · have hmosts : ∀ z ∈ loads.map RankLoad.numReqs, z = most := fun z hz => by
          simpa using List.all_eq_true.mp hall z hz
        rw [hmosts x hx, hmosts y hy]

theorem updateBudget_leastLoaded_three : ∃ queue,
    (DPBudget.mk []).updateBudget 3 [⟨0, 1⟩, ⟨1, 3⟩, ⟨2, 1⟩] = some ⟨queue⟩ ∧
      Budgeted [⟨0, 1⟩, ⟨1, 3⟩, ⟨2, 1⟩] queue :=
  updateBudget_leastLoaded _ (by decide) (by decide)

end QCFuse.Guarantees
