import Mathlib.Data.List.Sort
import Mathlib.Data.List.Chain
import Mathlib.Data.List.Perm.Subperm
import Mathlib.Logic.Relation

/-!
# Lists kept in an order

Insertion into a list sorted by a strict order, and lists of a forest's nodes in which every
parent comes before its children: what appending a leaf, dropping the last node and moving a
path from the root to the front do to them. Last, a search down a forest, which meets no node
twice.
-/

set_option autoImplicit false

namespace QCFuse.Library

universe u

variable {α : Type u}

/-! ## Sorted lists -/

section Sorted

variable {r : α → α → Prop} [DecidableRel r]

/-- Insertion of an element that is not there yet. -/
theorem pairwise_orderedInsert_of_notMem (htrans : ∀ a b c, r a b → r b c → r a c)
    (htotal : ∀ a b, r a b ∨ a = b ∨ r b a) {a : α} {xs : List α} (hnew : a ∉ xs)
    (h : xs.Pairwise r) : (xs.orderedInsert r a).Pairwise r := by
  induction xs with
  | nil => exact List.pairwise_singleton r a
  | cons b xs ih =>
    rw [List.pairwise_cons] at h
    rw [List.mem_cons, not_or] at hnew
    rw [List.orderedInsert_cons]
    split
    next hab =>
      refine List.pairwise_cons.mpr ⟨?_, List.pairwise_cons.mpr h⟩
      intro c hc
      rcases List.mem_cons.mp hc with rfl | hc
      · exact hab
      · exact htrans a b c hab (h.1 c hc)
    next hab =>
      refine List.pairwise_cons.mpr ⟨?_, ih hnew.2 h.2⟩
      intro c hc
      rcases (List.mem_orderedInsert r).mp hc with rfl | hc
      · exact ((htotal c b).resolve_left hab).resolve_left hnew.1
      · exact h.1 c hc

end Sorted

/-! ## Parents first -/

/-- The nodes of a forest below `root`, each behind its parent. -/
structure ParentsFirst (parent : α → α) (root : α) (xs : List α) : Prop where
  nodup : (root :: xs).Nodup
  parent_mem : ∀ a ∈ xs, parent a ∈ root :: xs
  parent_ne : ∀ a ∈ xs, parent a ≠ a
  before : xs.Pairwise fun a b => parent a ≠ b

namespace ParentsFirst

variable {parent parent' : α → α} {root : α} {xs : List α}

theorem nil (parent : α → α) (root : α) : ParentsFirst parent root [] where
  nodup := List.nodup_singleton root
  parent_mem := fun _ h => by cases h
  parent_ne := fun _ h => by cases h
  before := List.Pairwise.nil

theorem congr (h : ParentsFirst parent root xs) (hsame : ∀ a ∈ xs, parent' a = parent a) :
    ParentsFirst parent' root xs where
  nodup := h.nodup
  parent_mem := fun a ha => by
    rw [hsame a ha]
    exact h.parent_mem a ha
  parent_ne := fun a ha => by
    rw [hsame a ha]
    exact h.parent_ne a ha
  before := h.before.imp_of_mem fun ha _ hne => by
    rw [hsame _ ha]
    exact hne

/-- The last node has no children. -/
theorem last_leaf {last : α} (h : ParentsFirst parent root (xs ++ [last])) :
    ∀ a ∈ xs ++ [last], parent a ≠ last := by
  intro a ha
  rcases List.mem_append.mp ha with hxs | hlast
  · exact (List.pairwise_append.mp h.before).2.2 a hxs last (List.mem_singleton_self last)
  · obtain rfl := List.mem_singleton.mp hlast
    exact h.parent_ne a ha

theorem dropLast {last : α} (h : ParentsFirst parent root (xs ++ [last])) :
    ParentsFirst parent root xs where
  nodup := h.nodup.sublist ((List.sublist_append_left xs [last]).cons_cons root)
  parent_mem := fun a ha => by
    have hmem := h.parent_mem a (List.mem_append_left [last] ha)
    have hne := h.last_leaf a (List.mem_append_left [last] ha)
    rw [← List.cons_append, List.mem_append, List.mem_singleton] at hmem
    exact hmem.resolve_right hne
  parent_ne := fun a ha => h.parent_ne a (List.mem_append_left [last] ha)
  before := (List.pairwise_append.mp h.before).1

/-- A new leaf goes to the end. -/
theorem append_leaf {leaf : α} (h : ParentsFirst parent root xs) (hnew : leaf ∉ root :: xs)
    (hparent : parent leaf ∈ root :: xs) : ParentsFirst parent root (xs ++ [leaf]) where
  nodup := by
    rw [← List.cons_append]
    exact h.nodup.append (List.nodup_singleton leaf) (by simpa using hnew)
  parent_mem := fun a ha => by
    rw [← List.cons_append]
    refine List.mem_append_left [leaf] ?_
    rcases List.mem_append.mp ha with hxs | hleaf
    · exact h.parent_mem a hxs
    · rwa [List.mem_singleton.mp hleaf]
  parent_ne := fun a ha => by
    rcases List.mem_append.mp ha with hxs | hleaf
    · exact h.parent_ne a hxs
    · rw [List.mem_singleton.mp hleaf]
      intro hself
      exact hnew (hself ▸ hparent)
  before := by
    refine List.pairwise_append.mpr ⟨h.before, List.pairwise_singleton _ leaf, ?_⟩
    intro a ha b hb hab
    rw [List.mem_singleton.mp hb] at hab
    exact hnew (hab ▸ h.parent_mem a ha)

/-! ### Paths from the root -/

/-- Each node of a path hangs below the root or below an earlier node. -/
theorem parent_mem_path {path : List α} (hchain : (root :: path).IsChain fun a b => parent b = a)
    {a : α} (ha : a ∈ path) : parent a ∈ root :: path := by
  induction path generalizing root with
  | nil => cases ha
  | cons b path ih =>
    rw [List.isChain_cons_cons] at hchain
    rcases List.mem_cons.mp ha with rfl | ha
    · rw [hchain.1]
      exact List.mem_cons_self
    · exact List.mem_cons_of_mem root (ih hchain.2 ha)

variable [DecidableEq α]

/-- A parent that is listed stands further to the front. -/
theorem idxOf_parent_lt (h : ParentsFirst parent root xs) {a : α} (ha : a ∈ xs)
    (hparent : parent a ∈ xs) : xs.idxOf (parent a) < xs.idxOf a := by
  have hi := List.idxOf_lt_length_of_mem ha
  have hj := List.idxOf_lt_length_of_mem hparent
  by_contra hle
  rcases Nat.lt_or_eq_of_le (Nat.le_of_not_lt hle) with hlt | heq
  · have hne := List.pairwise_iff_getElem.mp h.before _ _ hi hj hlt
    rw [List.getElem_idxOf hi, List.getElem_idxOf hj] at hne
    exact hne rfl
  · exact h.parent_ne a ha (List.idxOf_inj hparent |>.mp heq.symm)

/-- The nodes of a path from the root stand in its order. -/
theorem path_pairwise (h : ParentsFirst parent root xs) {path : List α}
    (hchain : (root :: path).IsChain fun a b => parent b = a) (hsub : path ⊆ xs) :
    path.Pairwise fun a b => xs.idxOf a < xs.idxOf b := by
  have hlt : path.IsChain fun a b => xs.idxOf a < xs.idxOf b := by
    refine hchain.tail.imp_of_mem_imp ?_
    intro a b ha hb hab
    subst hab
    exact h.idxOf_parent_lt (hsub hb) (hsub ha)
  have : Trans (fun a b => xs.idxOf a < xs.idxOf b) (fun a b => xs.idxOf a < xs.idxOf b)
      (fun a b => xs.idxOf a < xs.idxOf b) := ⟨fun h₁ h₂ => Nat.lt_trans h₁ h₂⟩
  exact List.isChain_iff_pairwise.mp hlt

theorem path_nodup (h : ParentsFirst parent root xs) {path : List α}
    (hchain : (root :: path).IsChain fun a b => parent b = a) (hsub : path ⊆ xs) : path.Nodup :=
  (h.path_pairwise hchain hsub).imp fun hlt heq => by
    rw [heq] at hlt
    exact Nat.lt_irrefl _ hlt

/-- Moving nodes to the front one by one, the last of them first. -/
theorem foldr_front {path : List α} (hpath : path.Nodup) (hxs : xs.Nodup) :
    path.foldr (fun a ys => a :: ys.erase a) xs = path ++ xs.filter (· ∉ path) := by
  induction path with
  | nil => simp
  | cons a path ih =>
    rw [List.nodup_cons] at hpath
    rw [List.foldr_cons, ih hpath.2, List.erase_append_right _ hpath.1,
      (hxs.filter _).erase_eq_filter, List.filter_filter, List.cons_append]
    congr 2
    refine List.filter_congr fun b _ => ?_
    rw [Bool.eq_iff_iff]
    simp [List.mem_cons, not_or]

theorem front_perm {path : List α} (hpath : path.Nodup) (hxs : xs.Nodup) (hsub : path ⊆ xs) :
    (path ++ xs.filter (· ∉ path)).Perm xs := by
  have hin : path.Perm (xs.filter (· ∈ path)) := by
    refine (List.perm_ext_iff_of_nodup hpath (hxs.filter _)).mpr fun a => ?_
    rw [List.mem_filter, decide_eq_true_eq]
    exact ⟨fun ha => ⟨hsub ha, ha⟩, And.right⟩
  have hsplit := List.filter_append_perm (fun a => decide (a ∈ path)) xs
  simp only [← decide_not] at hsplit
  exact (hin.append_right _).trans hsplit

/-- Moving a path from the root to the front keeps parents first. -/
theorem move_path (h : ParentsFirst parent root xs) {path : List α}
    (hchain : (root :: path).IsChain fun a b => parent b = a) (hsub : path ⊆ xs) :
    ParentsFirst parent root (path ++ xs.filter (· ∉ path)) := by
  have hlt := h.path_pairwise hchain hsub
  have hperm := front_perm (h.path_nodup hchain hsub) h.nodup.of_cons hsub
  refine ⟨(hperm.cons root).nodup_iff.mpr h.nodup, fun a ha => ?_,
    fun a ha => h.parent_ne a (hperm.mem_iff.mp ha), ?_⟩
  · exact (hperm.cons root).mem_iff.mpr (h.parent_mem a (hperm.mem_iff.mp ha))
  refine List.pairwise_append.mpr ⟨?_, h.before.filter _, ?_⟩
  · refine hlt.imp_of_mem fun {a b} ha hb hab heq => ?_
    -- a parent stands before its child, so it cannot stand behind it as well
    have hback := h.idxOf_parent_lt (hsub ha) (heq ▸ hsub hb)
    rw [heq] at hback
    exact Nat.lt_asymm hab hback
  · intro a ha b hb heq
    obtain ⟨hxs, hout⟩ := List.mem_filter.mp hb
    rcases List.mem_cons.mp (parent_mem_path hchain ha) with hroot | hpath
    · exact (List.nodup_cons.mp h.nodup).1 (by rwa [← hroot, heq])
    · exact of_decide_eq_true hout (heq ▸ hpath)

/-- Every ancestor that is listed stands further to the front. -/
theorem ancestor_lt (h : ParentsFirst parent root xs) {a b : α} (hb : b ∈ xs) (ha : a ∈ xs)
    (hanc : Relation.TransGen (fun x y => y ∈ xs ∧ parent y = x) a b) :
    xs.idxOf a < xs.idxOf b := by
  induction hanc with
  | single hab =>
    obtain ⟨-, rfl⟩ := hab
    exact h.idxOf_parent_lt hb ha
  | @tail c d hac hcd ih =>
    obtain ⟨-, rfl⟩ := hcd
    have hc : parent d ∈ xs := by
      cases hac with
      | single hstep => exact hstep.1
      | tail _ hstep => exact hstep.1
    exact Nat.lt_trans (ih hc) (h.idxOf_parent_lt hb hc)

end ParentsFirst

/-! ## Searches -/

/-- A search from `start` over the nodes `all`: what it has visited, and what still waits. -/
structure Search (child : α → α → Prop) (rank : α → Nat) (all : List α) (start : α)
    (visited waiting : List α) : Prop where
  nodup : (visited ++ waiting).Nodup
  inside : visited ++ waiting ⊆ all
  origin : ∀ a ∈ visited ++ waiting, a = start ∨ ∃ p ∈ visited, child p a
  behind : ∀ a ∈ visited ++ waiting, rank start ≤ rank a

namespace Search

variable {child : α → α → Prop} {rank : α → Nat} {all : List α} {start : α} {visited waiting : List α}

theorem single (child : α → α → Prop) (rank : α → Nat) (hstart : start ∈ all) :
    Search child rank all start [] [start] where
  nodup := List.nodup_singleton start
  inside := List.cons_subset.mpr ⟨hstart, List.nil_subset all⟩
  origin := fun _ ha => Or.inl (List.mem_singleton.mp ha)
  behind := fun a ha => by rw [List.mem_singleton.mp ha]

/-- The node that is visited is replaced by children of its own. -/
theorem visit (hunique : ∀ p p' a, child p a → child p' a → p = p') (hrank : ∀ p a, child p a → rank p < rank a)
    {node : α} {rest waiting' children : List α} (h : Search child rank all start visited waiting)
    (hwaiting : waiting.Perm (node :: rest)) (hwaiting' : waiting'.Perm (rest ++ children))
    (hnodup : children.Nodup) (hchildren : ∀ a ∈ children, child node a ∧ a ∈ all) :
    Search child rank all start (node :: visited) waiting' := by
  have hmem : ∀ a, a ∈ node :: visited ++ waiting' ↔ a ∈ visited ++ waiting ∨ a ∈ children := by
    intro a
    simp only [List.mem_append, List.mem_cons, hwaiting.mem_iff, hwaiting'.mem_iff]
    tauto
  have hnode : node ∈ visited ++ waiting :=
    List.mem_append_right visited (hwaiting.mem_iff.mpr List.mem_cons_self)
  have hnot : node ∉ visited := by
    intro hvisited
    exact (List.nodup_append.mp h.nodup).2.2 node hvisited node
      (hwaiting.mem_iff.mpr List.mem_cons_self) rfl
  have hnew : ∀ a ∈ children, a ∉ visited ++ waiting := by
    intro a ha hold
    obtain ⟨hchild, -⟩ := hchildren a ha
    rcases h.origin a hold with rfl | ⟨p, hp, hpa⟩
    · exact Nat.not_lt_of_le (h.behind node hnode) (hrank node a hchild)
    · exact hnot (hunique p node a hpa hchild ▸ hp)
  refine ⟨?_, fun a ha => ?_, fun a ha => ?_, fun a ha => ?_⟩
  · have hperm : (node :: visited ++ waiting').Perm ((visited ++ waiting) ++ children) := by
      rw [List.append_assoc]
      refine List.Perm.trans ?_ (((hwaiting.append_right children).append_left visited).symm)
      rw [List.cons_append, List.cons_append]
      exact ((hwaiting'.append_left visited).cons node).trans List.perm_middle.symm
    refine hperm.nodup_iff.mpr (List.nodup_append.mpr ⟨h.nodup, hnodup, fun a ha b hb hab => ?_⟩)
    exact hnew b hb (hab ▸ ha)
  · rcases (hmem a).mp ha with hold | hchild
    · exact h.inside hold
    · exact (hchildren a hchild).2
  · rcases (hmem a).mp ha with hold | hchild
    · exact (h.origin a hold).imp_right fun ⟨p, hp, hpa⟩ => ⟨p, List.mem_cons_of_mem node hp, hpa⟩
    · exact Or.inr ⟨node, List.mem_cons_self, (hchildren a hchild).1⟩
  · rcases (hmem a).mp ha with hold | hchild
    · exact h.behind a hold
    · exact Nat.le_of_lt (Nat.lt_of_le_of_lt (h.behind node hnode) (hrank node a (hchildren a hchild).1))

/-- While something waits, not every node has been visited. -/
theorem visited_lt (h : Search child rank all start visited waiting) (hwaiting : waiting ≠ []) :
    visited.length < all.length := by
  have hle := (List.subperm_of_subset h.nodup h.inside).length_le
  have hpos := List.length_pos_of_ne_nil hwaiting
  rw [List.length_append] at hle
  omega

end Search

end QCFuse.Library
