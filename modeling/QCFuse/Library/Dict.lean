import Mathlib.Data.List.Nodup
import Mathlib.Data.List.Perm.Basic

/-!
# Dictionaries in insertion order

Entries with distinct keys: lookup, assignment, which leaves a present key in its place,
deletion, and moving a key to the end.
-/

set_option autoImplicit false

namespace QCFuse.Library

universe u v

/-- Among elements with distinct keys, the key of one finds it. -/
theorem find?_key {α κ : Type} [BEq κ] [LawfulBEq κ] {key : α → κ} {xs : List α} (hnodup : (xs.map key).Nodup)
    {x : α} (hx : x ∈ xs) : (xs.find? fun y => key y == key x) = some x := by
  induction xs with
  | nil => cases hx
  | cons first xs ih =>
    rw [List.map_cons, List.nodup_cons] at hnodup
    rcases List.mem_cons.mp hx with rfl | hx
    · exact List.find?_cons_of_pos (beq_self_eq_true _)
    · have hne : ¬ (key first == key x) = true := fun heq =>
        hnodup.1 (beq_iff_eq.mp heq ▸ List.mem_map_of_mem hx)
      rw [List.find?_cons, Bool.eq_false_iff.mpr hne]
      exact ih hnodup.2 hx

theorem find?_key_eq_none {α κ : Type} [BEq κ] [LawfulBEq κ] {key : α → κ} {xs : List α} {k : κ} :
    (xs.find? fun y => key y == k) = none ↔ k ∉ xs.map key := by
  rw [List.find?_eq_none, List.mem_map]
  constructor
  · rintro h ⟨x, hx, rfl⟩
    exact h x hx (beq_self_eq_true _)
  · intro h x hx heq
    exact h ⟨x, hx, beq_iff_eq.mp heq⟩

structure Dict (κ : Type u) (α : Type v) where
  entries : List (κ × α)
  nodup : (entries.map Prod.fst).Nodup

namespace Dict

variable {κ : Type u} {α : Type v}

def empty : Dict κ α := ⟨[], List.nodup_nil⟩

def keys (d : Dict κ α) : List κ := d.entries.map Prod.fst

theorem keys_nodup (d : Dict κ α) : d.keys.Nodup := d.nodup

@[simp] theorem keys_empty : (empty : Dict κ α).keys = [] := rfl

theorem ext_entries {d d' : Dict κ α} (h : d.entries = d'.entries) : d = d' := by
  cases d
  cases d'
  cases h
  rfl

theorem entry_inj (d : Dict κ α) {k : κ} {a b : α} (ha : (k, a) ∈ d.entries) (hb : (k, b) ∈ d.entries) :
    a = b :=
  congrArg Prod.snd (List.inj_on_of_nodup_map d.nodup ha hb rfl)

variable [DecidableEq κ]

def get? (d : Dict κ α) (k : κ) : Option α := (d.entries.find? fun e => e.1 = k).map Prod.snd

theorem get?_eq_some_iff (d : Dict κ α) (k : κ) (a : α) : d.get? k = some a ↔ (k, a) ∈ d.entries := by
  constructor
  · intro h
    obtain ⟨e, he, rfl⟩ := Option.map_eq_some_iff.mp h
    have hkey := List.find?_some he
    obtain rfl := of_decide_eq_true hkey
    exact List.mem_of_find?_eq_some he
  · intro h
    cases hfind : d.entries.find? fun e => decide (e.1 = k) with
    | none =>
      have hnot := List.find?_eq_none.mp hfind _ h
      simp at hnot
    | some e =>
      have hkey := List.find?_some hfind
      obtain rfl := of_decide_eq_true hkey
      rw [get?, hfind, Option.map_some, d.entry_inj (List.mem_of_find?_eq_some hfind) h]

theorem mem_keys_iff (d : Dict κ α) (k : κ) : k ∈ d.keys ↔ ∃ a, d.get? k = some a := by
  simp only [get?_eq_some_iff, keys, List.mem_map, Prod.exists, exists_and_right, exists_eq_right]

theorem get?_eq_none_iff (d : Dict κ α) (k : κ) : d.get? k = none ↔ k ∉ d.keys := by
  rw [mem_keys_iff, ← Option.ne_none_iff_exists', not_not]

/-- `d[k] = a`. -/
def set (d : Dict κ α) (k : κ) (a : α) : Dict κ α :=
  if hk : k ∈ d.keys then
    ⟨d.entries.map fun e => if e.1 = k then (k, a) else e, by
      have hkeys : (d.entries.map fun e => if e.1 = k then (k, a) else e).map Prod.fst = d.keys := by
        rw [List.map_map, keys]
        refine List.map_congr_left fun e _ => ?_
        simp only [Function.comp_apply]
        split
        next he => exact he.symm
        next => rfl
      rw [hkeys]
      exact d.nodup⟩
  else ⟨d.entries ++ [(k, a)], by
    rw [List.map_append]
    exact d.nodup.append (List.nodup_singleton k) (List.disjoint_singleton.mpr hk)⟩

/-- `d.pop(k, None)`, and `del d[k]` for a present key. -/
def erase (d : Dict κ α) (k : κ) : Dict κ α :=
  ⟨d.entries.filter fun e => e.1 ≠ k, d.nodup.sublist (List.filter_sublist.map Prod.fst)⟩

/-- `d.move_to_end(k)` for a present key. -/
def moveToEnd (d : Dict κ α) (k : κ) : Dict κ α :=
  match d.get? k with
  | none => d
  | some a => (d.erase k).set k a

theorem mem_set_entries (d : Dict κ α) (k : κ) (a : α) (e : κ × α) :
    e ∈ (d.set k a).entries ↔ e = (k, a) ∨ e.1 ≠ k ∧ e ∈ d.entries := by
  unfold set
  split
  next hk =>
    simp only [List.mem_map]
    constructor
    · rintro ⟨e', he', rfl⟩
      split
      next => exact Or.inl rfl
      next hne => exact Or.inr ⟨hne, he'⟩
    · rintro (rfl | ⟨hne, he⟩)
      · obtain ⟨e', he', hkey⟩ := List.mem_map.mp hk
        exact ⟨e', he', if_pos hkey⟩
      · exact ⟨e, he, if_neg hne⟩
  next hk =>
    rw [List.mem_append, List.mem_singleton, or_comm]
    refine or_congr_right ⟨fun he => ⟨fun hkey => hk ?_, he⟩, And.right⟩
    rw [← hkey]
    exact List.mem_map_of_mem he

@[simp] theorem get?_set_self (d : Dict κ α) (k : κ) (a : α) : (d.set k a).get? k = some a := by
  rw [get?_eq_some_iff, mem_set_entries]
  exact Or.inl rfl

theorem get?_set_ne (d : Dict κ α) {k k' : κ} (a : α) (h : k' ≠ k) : (d.set k a).get? k' = d.get? k' := by
  refine Option.ext fun b => ?_
  rw [get?_eq_some_iff, get?_eq_some_iff, mem_set_entries]
  simp [h]

theorem mem_keys_set (d : Dict κ α) (k k' : κ) (a : α) : k' ∈ (d.set k a).keys ↔ k' = k ∨ k' ∈ d.keys := by
  by_cases h : k' = k
  · subst h
    simp [mem_keys_iff]
  · simp [mem_keys_iff, d.get?_set_ne a h, h]

theorem entries_set_of_notMem (d : Dict κ α) {k : κ} (a : α) (h : k ∉ d.keys) :
    (d.set k a).entries = d.entries ++ [(k, a)] := by
  rw [set, dif_neg h]

theorem keys_set_of_notMem (d : Dict κ α) {k : κ} (a : α) (h : k ∉ d.keys) :
    (d.set k a).keys = d.keys ++ [k] := by
  rw [keys, d.entries_set_of_notMem a h, List.map_append]
  rfl

theorem get?_erase_self (d : Dict κ α) (k : κ) : (d.erase k).get? k = none := by
  rw [get?_eq_none_iff]
  intro h
  obtain ⟨e, he, hkey⟩ := List.mem_map.mp h
  exact of_decide_eq_true (List.mem_filter.mp he).2 hkey

theorem get?_erase_ne (d : Dict κ α) {k k' : κ} (h : k' ≠ k) : (d.erase k).get? k' = d.get? k' := by
  refine Option.ext fun b => ?_
  rw [get?_eq_some_iff, get?_eq_some_iff, erase, List.mem_filter, decide_eq_true_eq]
  exact and_iff_left h

theorem keys_erase (d : Dict κ α) (k : κ) : (d.erase k).keys = d.keys.filter fun k' => k' ≠ k := by
  rw [keys, keys, erase, List.filter_map]
  rfl

theorem mem_keys_erase (d : Dict κ α) (k k' : κ) : k' ∈ (d.erase k).keys ↔ k' ≠ k ∧ k' ∈ d.keys := by
  rw [keys_erase, List.mem_filter, decide_eq_true_eq, and_comm]

/-- The entry of a present key, and the rest. -/
theorem entries_perm (d : Dict κ α) {k : κ} {a : α} (h : d.get? k = some a) :
    d.entries.Perm ((k, a) :: (d.erase k).entries) := by
  have hmem := (d.get?_eq_some_iff k a).mp h
  have hrest : (k, a) ∉ (d.erase k).entries := fun he => of_decide_eq_true (List.mem_filter.mp he).2 rfl
  refine (List.perm_ext_iff_of_nodup (List.Nodup.of_map _ d.nodup)
    (List.nodup_cons.mpr ⟨hrest, List.Nodup.of_map _ (d.erase k).nodup⟩)).mpr fun e => ?_
  rw [List.mem_cons, erase, List.mem_filter, decide_eq_true_eq]
  constructor
  · intro he
    by_cases hkey : e.1 = k
    · exact Or.inl (Prod.ext hkey (d.entry_inj (k := k) (hkey ▸ he) hmem))
    · exact Or.inr ⟨he, hkey⟩
  · rintro (rfl | ⟨he, -⟩)
    · exact hmem
    · exact he

theorem keys_perm (d : Dict κ α) {k : κ} (h : k ∈ d.keys) : d.keys.Perm (k :: (d.erase k).keys) := by
  obtain ⟨a, ha⟩ := (d.mem_keys_iff k).mp h
  exact (d.entries_perm ha).map Prod.fst

theorem entries_erase_head (d : Dict κ α) {k : κ} {a : α} {rest : List (κ × α)} (h : d.entries = (k, a) :: rest) :
    (d.erase k).entries = rest := by
  have hnodup := d.nodup
  rw [h, List.map_cons, List.nodup_cons] at hnodup
  have hfilter : (d.erase k).entries = d.entries.filter fun e => e.1 ≠ k := rfl
  rw [hfilter, h, List.filter_cons_of_neg (by simp), List.filter_eq_self]
  intro e he
  exact decide_eq_true fun heq => hnodup.1 (List.mem_map.mpr ⟨e, he, heq⟩)

theorem moveToEnd_perm (d : Dict κ α) (k : κ) : (d.moveToEnd k).entries.Perm d.entries := by
  unfold moveToEnd
  cases hget : d.get? k with
  | none => exact .refl _
  | some a =>
    have hnot : k ∉ (d.erase k).keys := (get?_eq_none_iff _ k).mp (d.get?_erase_self k)
    dsimp only
    rw [(d.erase k).entries_set_of_notMem a hnot]
    exact (List.perm_append_singleton (k, a) _).trans (d.entries_perm hget).symm

theorem get?_of_perm {d d' : Dict κ α} (h : d.entries.Perm d'.entries) (k : κ) : d.get? k = d'.get? k := by
  refine Option.ext fun a => ?_
  rw [get?_eq_some_iff, get?_eq_some_iff, h.mem_iff]

end Dict

end QCFuse.Library
