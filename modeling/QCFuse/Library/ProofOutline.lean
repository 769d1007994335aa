import Mathlib.Logic.Basic

/-!
# Proof outlines of a thread under interference

A thread runs a list of statements while other threads change the state by `rely`. An outline
puts an assertion before every statement: each is stable under `rely`, each implies what is
demanded at its statement, and each statement leads from its assertion to the next.
-/

set_option autoImplicit false

namespace QCFuse.Library

section Outline

variable {State Op : Type} (exec : Op → State → State → Prop) (rely : State → State → Prop)
  (demand : Op → State → Prop)

/-- Other threads keep the assertion. -/
def Stable (P : State → Prop) : Prop := ∀ s s', P s → rely s s' → P s'

inductive Outline : (State → Prop) → List Op → (State → Prop) → Prop
  | done {P Q : State → Prop} : Stable rely P → (∀ s, P s → Q s) → Outline P [] Q
  | next {P R Q : State → Prop} {op : Op} {ops : List Op} : Stable rely P →
      (∀ s, P s → demand op s) → (∀ s s', P s → exec op s s' → R s') →
      Outline R ops Q → Outline P (op :: ops) Q

/-- The rest of a thread is covered by an outline whose assertion holds now. -/
def Covered (ops : List Op) (Q : State → Prop) (s : State) : Prop :=
  ∃ P, Outline exec rely demand P ops Q ∧ P s

variable {exec rely demand}

theorem Outline.stable {P Q : State → Prop} {ops : List Op}
    (h : Outline exec rely demand P ops Q) : Stable rely P := by
  cases h with
  | done hstable _ => exact hstable
  | next hstable _ _ _ => exact hstable

theorem Outline.strengthen {P P' Q : State → Prop} {ops : List Op} (hstable : Stable rely P')
    (himp : ∀ s, P' s → P s) (h : Outline exec rely demand P ops Q) :
    Outline exec rely demand P' ops Q := by
  cases h with
  | done _ hQ => exact .done hstable fun s hs => hQ s (himp s hs)
  | next _ hdemand hexec hrest =>
    exact .next hstable (fun s hs => hdemand s (himp s hs))
      (fun s s' hs hstep => hexec s s' (himp s hs) hstep) hrest

theorem Outline.weaken {P Q Q' : State → Prop} {ops : List Op} (himp : ∀ s, Q s → Q' s)
    (h : Outline exec rely demand P ops Q) : Outline exec rely demand P ops Q' := by
  induction h with
  | done hstable hQ => exact .done hstable fun s hs => himp s (hQ s hs)
  | next hstable hdemand hexec _ ih => exact .next hstable hdemand hexec (ih himp)

theorem Outline.append {P R Q : State → Prop} {xs ys : List Op}
    (hxs : Outline exec rely demand P xs R) (hys : Outline exec rely demand R ys Q) :
    Outline exec rely demand P (xs ++ ys) Q := by
  induction hxs with
  | done hstable himp => exact hys.strengthen hstable himp
  | next hstable hdemand hexec _ ih => exact .next hstable hdemand hexec (ih hys)

/-- A loop, with an assertion for each turn. -/
theorem Outline.loop {P : Nat → State → Prop} {body : Nat → List Op} {n : Nat}
    (hstable : ∀ i, Stable rely (P i))
    (hbody : ∀ i < n, Outline exec rely demand (P i) (body i) (P (i + 1))) :
    Outline exec rely demand (P 0) ((List.range n).flatMap body) (P n) := by
  induction n with
  | zero => exact .done (hstable 0) fun s hs => hs
  | succ n ih =>
    rw [List.range_succ, List.flatMap_append, List.flatMap_cons, List.flatMap_nil, List.append_nil]
    exact (ih fun i hi => hbody i (Nat.lt_succ_of_lt hi)).append (hbody n (Nat.lt_succ_self n))

/-- Statements that all keep one assertion. -/
theorem Outline.keep {P : State → Prop} {ops : List Op} (hstable : Stable rely P)
    (hdemand : ∀ op ∈ ops, ∀ s, P s → demand op s)
    (hexec : ∀ op ∈ ops, ∀ s s', P s → exec op s s' → P s') :
    Outline exec rely demand P ops P := by
  induction ops with
  | nil => exact .done hstable fun s hs => hs
  | cons op ops ih =>
    exact .next hstable (hdemand op List.mem_cons_self) (hexec op List.mem_cons_self)
      (ih (fun x hx => hdemand x (List.mem_cons_of_mem _ hx))
        fun x hx => hexec x (List.mem_cons_of_mem _ hx))

theorem Covered.of_rely {ops : List Op} {Q : State → Prop} {s s' : State}
    (h : Covered exec rely demand ops Q s) (hstep : rely s s') :
    Covered exec rely demand ops Q s' := by
  obtain ⟨P, houtline, hs⟩ := h
  exact ⟨P, houtline, houtline.stable s s' hs hstep⟩

theorem Covered.of_exec {op : Op} {ops : List Op} {Q : State → Prop} {s s' : State}
    (h : Covered exec rely demand (op :: ops) Q s) (hstep : exec op s s') :
    Covered exec rely demand ops Q s' := by
  obtain ⟨P, houtline, hs⟩ := h
  cases houtline with
  | next _ _ hexec hrest => exact ⟨_, hrest, hexec s s' hs hstep⟩

theorem Covered.demanded {op : Op} {ops : List Op} {Q : State → Prop} {s : State}
    (h : Covered exec rely demand (op :: ops) Q s) : demand op s := by
  obtain ⟨P, houtline, hs⟩ := h
  cases houtline with
  | next _ hdemand _ _ => exact hdemand s hs

theorem Covered.finished {Q : State → Prop} {s : State}
    (h : Covered exec rely demand ([] : List Op) Q s) : Q s := by
  obtain ⟨P, houtline, hs⟩ := h
  cases houtline with
  | done _ hQ => exact hQ s hs

end Outline

end QCFuse.Library
