import Mathlib.Logic.Basic

/-!
# Labelled transition systems

A label names who moves and every choice left open, so a step is a partial function of it.
A guard restricts which labels may be taken in which state; a run that meets the guard at
every step is a guarded run.
-/

set_option autoImplicit false

namespace QCFuse.Library

structure Machine (State Label : Type) where
  step : Label → State → Option State

namespace Machine

variable {State Label : Type} (M : Machine State Label)

/-- States at the end of a run from `start` whose steps all meet `guard`. -/
inductive Reach (guard : State → Label → Prop) (start : State → Prop) : State → Prop
  | start {s : State} : start s → Reach guard start s
  | step {s s' : State} {label : Label} : Reach guard start s → guard s label →
      M.step label s = some s' → Reach guard start s'

variable {M}

/-- What holds at the start and is kept by guarded steps holds at the end of guarded runs. -/
theorem Reach.invariant {guard : State → Label → Prop} {start inv : State → Prop}
    (initial : ∀ s, start s → inv s)
    (preserved : ∀ s s' label, inv s → guard s label → M.step label s = some s' → inv s')
    {s : State} (h : M.Reach guard start s) : inv s := by
  induction h with
  | start hs => exact initial _ hs
  | step _ hguard hstep ih => exact preserved _ _ _ ih hguard hstep

theorem Reach.weaken {guard guard' : State → Label → Prop} {start start' : State → Prop}
    (hguard : ∀ s label, guard s label → guard' s label) (hstart : ∀ s, start s → start' s)
    {s : State} (h : M.Reach guard start s) : M.Reach guard' start' s := by
  induction h with
  | start hs => exact .start (hstart _ hs)
  | step _ hg hstep ih => exact .step ih (hguard _ _ hg) hstep

variable (M)

/-- The state after a list of labels, if every step is possible. -/
def run : List Label → State → Option State
  | [], s => some s
  | label :: labels, s => (M.step label s).bind (run labels)

variable {M}

/-- An executed list of labels is a run. -/
theorem Reach.of_run {guard : State → Label → Prop} {start : State → Prop} {labels : List Label}
    (hguard : ∀ label ∈ labels, ∀ s, guard s label) {s s' : State}
    (h : M.Reach guard start s) (hrun : M.run labels s = some s') :
    M.Reach guard start s' := by
  induction labels generalizing s with
  | nil =>
    cases hrun
    exact h
  | cons label labels ih =>
    unfold run at hrun
    cases hstep : M.step label s with
    | none =>
      rw [hstep] at hrun
      cases hrun
    | some t =>
      rw [hstep] at hrun
      exact ih (fun label' hmem => hguard label' (List.mem_cons_of_mem _ hmem))
        (.step h (hguard label List.mem_cons_self s) hstep) hrun

/-- The end of an executable list of labels is reached. -/
theorem reach_run {guard : State → Label → Prop} {s : State} {labels : List Label}
    (hguard : ∀ label ∈ labels, ∀ s, guard s label) (h : (M.run labels s).isSome) :
    M.Reach guard (· = s) ((M.run labels s).get h) :=
  Reach.of_run hguard (.start rfl) (Option.some_get h).symm

variable (M)

/-- The state after a list of labels, if every step is possible and meets the guard. -/
def guardedRun (guard : State → Label → Prop) [∀ s label, Decidable (guard s label)] :
    List Label → State → Option State
  | [], s => some s
  | label :: labels, s =>
    if guard s label then (M.step label s).bind (guardedRun guard labels) else none

variable {M}

theorem Reach.of_guardedRun {guard : State → Label → Prop} [∀ s label, Decidable (guard s label)]
    {start : State → Prop} {labels : List Label} {s s' : State} (h : M.Reach guard start s)
    (hrun : M.guardedRun guard labels s = some s') : M.Reach guard start s' := by
  induction labels generalizing s with
  | nil =>
    cases hrun
    exact h
  | cons label labels ih =>
    unfold guardedRun at hrun
    split at hrun
    next hguard =>
      obtain ⟨t, hstep, hrest⟩ := Option.bind_eq_some_iff.mp hrun
      exact ih (.step h hguard hstep) hrest
    next => cases hrun

theorem reach_guardedRun {guard : State → Label → Prop} [∀ s label, Decidable (guard s label)]
    {s : State} {labels : List Label} (h : (M.guardedRun guard labels s).isSome) :
    M.Reach guard (· = s) ((M.guardedRun guard labels s).get h) :=
  Reach.of_guardedRun (.start rfl) (Option.some_get h).symm

end Machine

end QCFuse.Library
