import QCFuse.Source.PositionSpans

/-!
# Coalesced spans are the positions

The spans give back the positions in order, each with its offset in the packed rows, and none could be joined with the
next. The positions need not be sorted.
-/

set_option autoImplicit false

namespace QCFuse.Guarantees

open QCFuse.Source

/-- The positions of a span. -/
def spanPositions (span : PositionSpan) : List Int := pyRange span.start span.stop

def spanLength (span : PositionSpan) : Int := span.stop - span.start

/-- What the spans of a list of positions have to be. -/
structure Coalesced (positions : List Int) (spans : List PositionSpan) : Prop where
  expands : spans.flatMap spanPositions = positions
  packed : ∀ (k : Nat) (span : PositionSpan), spans[k]? = some span →
    span.outStart = ((spans.take k).map spanLength).sum
  nonempty : ∀ span ∈ spans, span.start < span.stop
  separate : spans.IsChain fun span next => span.stop ≠ next.start

theorem pyRange_concat {start stop : Int} (h : start ≤ stop) :
    pyRange start (stop + 1) = pyRange start stop ++ [stop] := by
  have hcount : (stop + 1 - start).toNat = (stop - start).toNat + 1 := by omega
  have hlast : start + ((stop - start).toNat : Int) = stop := by omega
  rw [pyRange, hcount, List.range_succ, List.map_append, List.map_singleton, hlast]
  rfl

theorem pyRange_single (pos : Int) : pyRange pos (pos + 1) = [pos] := by
  rw [pyRange_concat (le_refl pos), pyRange_eq_nil (le_refl pos), List.nil_append]

section Loop

variable {runStart prev : Int}

/-- The loop gives back the run that is open and the positions after it. -/
theorem coalesceLoop_expands (positions : List Int) (outStart : Int) (h : runStart ≤ prev) :
    (coalesceLoop runStart prev outStart positions).flatMap spanPositions =
      pyRange runStart (prev + 1) ++ positions := by
  induction positions generalizing runStart prev outStart with
  | nil => simp [coalesceLoop, spanPositions]
  | cons pos positions ih =>
    rw [coalesceLoop]
    split
    next hnext =>
      subst hnext
      rw [ih outStart (by omega), pyRange_concat (by omega), List.append_assoc]
      rfl
    next =>
      rw [List.flatMap_cons, ih _ (le_refl pos), pyRange_single]
      rfl

theorem coalesceLoop_packed (positions : List Int) (outStart : Int) (k : Nat) (span : PositionSpan)
    (hspan : (coalesceLoop runStart prev outStart positions)[k]? = some span) : span.outStart = outStart +
      (((coalesceLoop runStart prev outStart positions).take k).map spanLength).sum := by
  induction positions generalizing runStart prev outStart k with
  | nil =>
    cases k with
    | zero =>
      cases hspan
      simp
    | succ k => cases hspan
  | cons pos positions ih =>
    rw [coalesceLoop] at hspan ⊢
    split at hspan
    next hnext =>
      rw [if_pos hnext]
      exact ih outStart k hspan
    next hnext =>
      rw [if_neg hnext]
      cases k with
      | zero =>
        cases hspan
        simp
      | succ k =>
        rw [ih _ k hspan, List.take_succ_cons, List.map_cons, List.sum_cons]
        dsimp only [spanLength]
        omega

theorem coalesceLoop_nonempty (positions : List Int) (outStart : Int) (h : runStart ≤ prev) :
    ∀ span ∈ coalesceLoop runStart prev outStart positions, span.start < span.stop := by
  induction positions generalizing runStart prev outStart with
  | nil =>
    intro span hspan
    obtain rfl := List.mem_singleton.mp hspan
    exact Int.lt_add_one_of_le h
  | cons pos positions ih =>
    rw [coalesceLoop]
    split
    next hnext => exact ih outStart (by omega)
    next =>
      intro span hspan
      rcases List.mem_cons.mp hspan with rfl | hspan
      · exact Int.lt_add_one_of_le h
      · exact ih _ (le_refl pos) span hspan

/-- The first span starts where the open run does. -/
theorem coalesceLoop_start (runStart prev : Int) (positions : List Int) (outStart : Int) :
    ∃ stop spans, coalesceLoop runStart prev outStart positions = ⟨runStart, stop, outStart⟩ :: spans := by
  induction positions generalizing prev with
  | nil => exact ⟨prev + 1, [], rfl⟩
  | cons pos positions ih =>
    rw [coalesceLoop]
    split
    · exact ih pos
    · exact ⟨prev + 1, _, rfl⟩

theorem coalesceLoop_separate (positions : List Int) (outStart : Int) :
    (coalesceLoop runStart prev outStart positions).IsChain fun span next => span.stop ≠ next.start := by
  induction positions generalizing runStart prev outStart with
  | nil => exact List.isChain_singleton _
  | cons pos positions ih =>
    rw [coalesceLoop]
    split
    · exact ih outStart
    next hnext =>
      have hrest : (coalesceLoop pos pos (outStart + (prev - runStart + 1)) positions).IsChain
          fun span next => span.stop ≠ next.start := ih _
      obtain ⟨stop, spans, hspans⟩ := coalesceLoop_start pos pos positions (outStart + (prev - runStart + 1))
      rw [hspans] at hrest ⊢
      exact List.isChain_cons_cons.mpr ⟨fun heq => hnext heq.symm, hrest⟩

end Loop

/-- The spans of any list of positions are lossless, packed, not empty and separate. -/
theorem coalesceSortedPositions_coalesced (positions : List Int) :
    Coalesced positions (coalesceSortedPositions positions) := by
  cases positions with
  | nil => exact ⟨rfl, nofun, nofun, List.isChain_nil⟩
  | cons pos positions =>
    constructor
    · rw [coalesceSortedPositions, coalesceLoop_expands positions 0 (le_refl pos), pyRange_single]
      rfl
    · intro k span hspan
      rw [coalesceLoop_packed positions 0 k span hspan, Int.zero_add]
      rfl
    · exact coalesceLoop_nonempty positions 0 (le_refl pos)
    · exact coalesceLoop_separate positions 0

/-- Duplicates and steps down start a new span. -/
example : coalesceSortedPositions [4, 5, 5, 6, 2] = [⟨4, 6, 0⟩, ⟨5, 7, 2⟩, ⟨2, 3, 4⟩] := by decide

end QCFuse.Guarantees
