import QCFuse.Guarantees.RadixTree

/-!
# Locks and eviction

Counting holders gives the order of the lock counts along a path; with it the heap loop of
`evict` finds every node that is not locked.
-/

set_option autoImplicit false

namespace QCFuse.Guarantees

open QCFuse.Library QCFuse.Source

variable {Tok : Type}

/-- The lock counts fall on the way down. -/
def LocksFall (f : Children Tok) : Prop :=
  f.Forall fun _ node below => ∀ c ∈ below.roots, c.lockRef ≤ node.lockRef

theorem id_mem_ids {f : Children Tok} {node : TreeNode Tok} (h : node ∈ f.nodes) : node.id ∈ ids f :=
  List.mem_map_of_mem h

/-- A node in the dictionary is held by as many as are counted at or below it. -/
theorem LocksCounted.root_le {holds : List Nat} {f : Children Tok} (h : LocksCounted holds f)
    {c : TreeNode Tok} (hc : c ∈ f.roots) : c.lockRef ≤ (holds.countP fun h => h ∈ ids f : Nat) := by
  induction f with
  | nil => cases hc
  | cons childKey node below rest _ ihr =>
    rcases List.mem_cons.mp hc with rfl | hc
    · rw [h.1, ids_cons]
      exact_mod_cast List.countP_mono_left fun i _ hi => by
        simp only [decide_eq_true_eq, List.mem_cons, List.mem_append] at hi ⊢
        exact hi.imp id .inl
    · refine (ihr h.2.2 hc).trans ?_
      rw [ids_cons]
      exact_mod_cast List.countP_mono_left fun i _ hi => by
        simp only [decide_eq_true_eq, List.mem_cons, List.mem_append] at hi ⊢
        exact .inr (.inr hi)

theorem LocksCounted.fall {holds : List Nat} {f : Children Tok} (h : LocksCounted holds f) :
    LocksFall f := by
  induction f with
  | nil => trivial
  | cons childKey node below rest ihb ihr =>
    refine ⟨fun c hc => (LocksCounted.root_le h.2.1 hc).trans ?_, ihb h.2.1, ihr h.2.2⟩
    rw [h.1]
    exact_mod_cast List.countP_mono_left fun i _ hi => by
      simp only [decide_eq_true_eq, List.mem_cons] at hi ⊢
      exact .inr hi

theorem LocksCounted.nonneg {holds : List Nat} {f : Children Tok} (h : LocksCounted holds f) :
    ∀ node ∈ f.nodes, 0 ≤ node.lockRef :=
  (h.imp fun _ node _ hcount => by rw [hcount]; omega : f.Forall fun _ node _ => 0 ≤ node.lockRef).node

/-- Nobody holds a node that is not locked. -/
theorem LocksCounted.not_held {holds : List Nat} {f : Children Tok} (h : LocksCounted holds f) :
    ∀ node ∈ f.nodes, node.lockRef ≤ 0 → node.id ∉ holds := by
  refine (h.imp fun _ node below hcount hlock hmem => ?_ :
    f.Forall fun _ node _ => node.lockRef ≤ 0 → node.id ∉ holds).node
  have hpos : 0 < holds.countP fun h => h ∈ node.id :: ids below :=
    List.countP_pos_iff.mpr ⟨node.id, hmem, by simp⟩
  omega

/-! ## Changing a lock count along a path -/

section Locks

variable {holds : List Nat} {f : Children Tok} {node : Nat}

def addLock (delta : Int) (n : TreeNode Tok) : TreeNode Tok := { n with lockRef := n.lockRef + delta }

@[simp] theorem addLock_id (delta : Int) (n : TreeNode Tok) : (addLock delta n).id = n.id := rfl

theorem onPath_iff {n : TreeNode Tok} {below : Children Tok} :
    (decide (n.id = node) || below.nodes.any fun m => decide (m.id = node)) = true ↔
      node ∈ n.id :: ids below := by
  simp only [Bool.or_eq_true, decide_eq_true_eq, List.any_eq_true, List.mem_cons, ids, List.mem_map]
  exact or_congr eq_comm Iff.rfl

@[simp] theorem ids_mapPath (hit : TreeNode Tok → Bool) (delta : Int) :
    ids (f.mapPath hit (addLock delta)) = ids f :=
  Forest.map_nodes_mapPath hit (addLock delta) (fun _ => rfl) f

theorem shaped_mapPath {P : Nat} (hit : TreeNode Tok → Bool) (delta : Int) (h : Shaped P f) :
    Shaped P (f.mapPath hit (addLock delta)) := by
  refine ⟨by rw [Forest.keys_mapPath]; exact h.1, h.2.mapPath hit _ fun childKey n below hn => ?_⟩
  obtain ⟨hshape, hkeys, hextra⟩ := hn
  refine ⟨?_, by rw [Forest.keys_mapPath]; exact hkeys, fun c hc => ?_⟩
  · split
    · exact ⟨hshape.nonempty, hshape.aligned, hshape.valued, hshape.filed⟩
    · exact hshape
  · have hroots := Forest.map_roots_mapPath (w := fun n : TreeNode Tok => n.key.extraKey) hit
      (addLock delta) (fun _ => rfl) below
    have hmem : c.key.extraKey ∈ below.roots.map fun n => n.key.extraKey := by
      rw [← hroots]
      exact List.mem_map_of_mem hc
    obtain ⟨d, hd, heq⟩ := List.mem_map.mp hmem
    rw [← heq, hextra d hd]
    split <;> rfl

theorem stored_mapPath (hit : TreeNode Tok → Bool) (delta : Int) (extraKey : Option String)
    (p : List Tok) (v : List Int) :
    TreeStores (f.mapPath hit (addLock delta)) extraKey p v ↔ TreeStores f extraKey p v := by
  induction f generalizing p v with
  | nil => exact Iff.rfl
  | cons childKey n below rest ihb ihr =>
    rw [Forest.mapPath, TreeStores, TreeStores, ihr]
    simp only [ihb]
    split <;> exact Iff.rfl

/-- One holder more. -/
theorem LocksCounted.lock (h : LocksCounted holds f) :
    LocksCounted (node :: holds) (f.mapPath (fun n => decide (n.id = node)) (addLock 1)) := by
  refine h.mapPath _ _ fun childKey n below hcount => ?_
  by_cases hpath : node ∈ n.id :: ids below
  · rw [if_pos (onPath_iff.mpr hpath), ids_mapPath, addLock_id, List.countP_cons,
      if_pos (decide_eq_true hpath)]
    show n.lockRef + 1 = _
    rw [hcount]
    rfl
  · rw [if_neg (fun h => hpath (onPath_iff.mp h)), ids_mapPath, List.countP_cons,
      if_neg (by simpa using hpath)]
    exact hcount

/-- One holder fewer. -/
theorem LocksCounted.unlock (h : LocksCounted holds f) (hheld : node ∈ holds) :
    LocksCounted (holds.erase node) (f.mapPath (fun n => decide (n.id = node)) (addLock (-1))) := by
  refine h.mapPath _ _ fun childKey n below hcount => ?_
  have hperm := (List.perm_cons_erase hheld).countP_eq fun h => decide (h ∈ n.id :: ids below)
  rw [hperm, List.countP_cons] at hcount
  by_cases hpath : node ∈ n.id :: ids below
  · rw [if_pos (onPath_iff.mpr hpath), ids_mapPath, addLock_id]
    rw [if_pos (decide_eq_true hpath)] at hcount
    show n.lockRef + -1 = _
    rw [hcount, Nat.cast_add, Nat.cast_one]
    exact Int.add_neg_cancel_right _ _
  · rw [if_neg (fun h => hpath (onPath_iff.mp h)), ids_mapPath]
    rw [if_neg (by simpa using hpath)] at hcount
    exact hcount

/-- A node on the path to a held one is locked. -/
theorem LocksCounted.path_pos (h : LocksCounted holds f) (hheld : node ∈ holds) :
    ∀ n ∈ f.pathNodes fun n => decide (n.id = node), 1 ≤ n.lockRef := by
  intro n hn
  obtain ⟨_, below, hcount, hpath⟩ := h.pathNodes _ hn
  have hpos : 0 < holds.countP fun h => h ∈ n.id :: ids below :=
    List.countP_pos_iff.mpr ⟨node, hheld, decide_eq_true (onPath_iff.mp hpath)⟩
  omega

theorem LocksCounted.path_nonneg (h : LocksCounted holds f) (node : Nat) :
    ∀ n ∈ f.pathNodes fun n => decide (n.id = node), 0 ≤ n.lockRef := by
  intro n hn
  obtain ⟨_, below, hcount, _⟩ := h.pathNodes _ hn
  omega

theorem sum_filter_eq (l : Int) (nodes : List (TreeNode Tok)) :
    ((nodes.filter fun n => decide (n.lockRef = l)).map fun n => (n.key.len : Int)).sum =
      (nodes.map fun n => if n.lockRef = l then (n.key.len : Int) else 0).sum := by
  induction nodes with
  | nil => rfl
  | cons n nodes ih =>
    rw [List.map_cons, List.sum_cons, List.filter_cons, ← ih]
    by_cases h : n.lockRef = l <;> simp [h]

/-- The weighted size after the lock counts on a path have changed. -/
theorem lockedSize_mapPath (weight : Int → Int) (hit : TreeNode Tok → Bool) (delta : Int) :
    lockedSize weight (f.mapPath hit (addLock delta)) = lockedSize weight f +
      ((f.pathNodes hit).map fun n =>
        (weight (n.lockRef + delta) - weight n.lockRef) * (n.key.len : Int)).sum := by
  induction f with
  | nil => rfl
  | cons childKey n below rest ihb ihr =>
    rw [Forest.mapPath, lockedSize_cons, lockedSize_cons, ihb, ihr, Forest.pathNodes, List.map_append,
      List.map_append, List.sum_append, List.sum_append]
    split
    · simp only [addLock, List.map_cons, List.map_nil, List.sum_cons, List.sum_nil]
      ring
    · simp only [List.map_nil, List.sum_nil]
      ring

end Locks

/-! ## The heap loop -/

section Evict

variable {holds : List Nat} {f : Children Tok}

theorem hitOnce_of_nodup {x : TreeNode Tok} (h : (ids f).Nodup) :
    Forest.HitOnce (fun n : TreeNode Tok => decide (n.id = x.id)) f.nodes := by
  have hpairs : f.nodes.Pairwise fun a b => a.id ≠ b.id := List.pairwise_map.mp h
  refine hpairs.imp fun {a b} hne hboth => ?_
  simp only [decide_eq_true_eq] at hboth
  exact hne (hboth.1.trans hboth.2.symm)

theorem nodes_nodup (h : (ids f).Nodup) : f.nodes.Nodup := List.Nodup.of_map _ h

/-- Nodes with one id are one node. -/
theorem node_eq_of_id (h : (ids f).Nodup) {a b : TreeNode Tok} (ha : a ∈ f.nodes) (hb : b ∈ f.nodes)
    (heq : a.id = b.id) : a = b := List.inj_on_of_nodup_map h ha hb heq

/-- An unlocked leaf that is deleted. -/
structure EvictsLeaf (x : TreeNode Tok) (f f' : Children Tok) : Prop where
  leaf : x ∈ f.leaves
  unlocked : x.lockRef ≤ 0
  deleted : f' = f.erase fun n => decide (n.id = x.id)

theorem EvictsLeaf.perm {x : TreeNode Tok} {f' : Children Tok} (h : EvictsLeaf x f f')
    (hids : (ids f).Nodup) : f.nodes.Perm (x :: f'.nodes) := by
  rw [h.deleted]
  exact Forest.erase_perm (hitOnce_of_nodup hids) h.leaf (decide_eq_true rfl)

theorem EvictsLeaf.ids_perm {x : TreeNode Tok} {f' : Children Tok} (h : EvictsLeaf x f f')
    (hids : (ids f).Nodup) : (ids f).Perm (x.id :: ids f') := (h.perm hids).map _

theorem EvictsLeaf.ids_nodup {x : TreeNode Tok} {f' : Children Tok} (h : EvictsLeaf x f f')
    (hids : (ids f).Nodup) : (ids f').Nodup :=
  (List.nodup_cons.mp ((h.ids_perm hids).nodup_iff.mp hids)).2

theorem EvictsLeaf.shaped {P : Nat} {x : TreeNode Tok} {f' : Children Tok} (h : EvictsLeaf x f f')
    (hshape : Shaped P f) : Shaped P f' := by
  rw [h.deleted]
  refine ⟨hshape.1.sublist (Forest.keys_erase_sublist f), hshape.2.erase fun childKey n below hn => ?_⟩
  exact ⟨hn.1, hn.2.1.sublist (Forest.keys_erase_sublist below),
    fun c hc => hn.2.2 c ((Forest.roots_erase_sublist below).mem hc)⟩

theorem EvictsLeaf.fall {x : TreeNode Tok} {f' : Children Tok} (h : EvictsLeaf x f f')
    (hfall : LocksFall f) : LocksFall f' := by
  rw [h.deleted]
  exact hfall.erase fun _ n below hn c hc => hn c ((Forest.roots_erase_sublist below).mem hc)

theorem stored_erase {hit : TreeNode Tok → Bool} {extraKey : Option String} {p : List Tok} {v : List Int}
    (h : TreeStores (f.erase hit) extraKey p v) : TreeStores f extraKey p v := by
  induction f generalizing p v with
  | nil => exact h
  | cons childKey n below rest ihb ihr =>
    rw [Forest.erase] at h
    split at h
    · exact .inr h
    · rcases h with ⟨heq, hhead | ⟨p', v', hp, hv, hbelow⟩⟩ | hrest
      · exact .inl ⟨heq, .inl hhead⟩
      · exact .inl ⟨heq, .inr ⟨p', v', hp, hv, ihb hbelow⟩⟩
      · exact .inr (ihr hrest)

/-- The holders are counted as before: nobody holds the deleted leaf. -/
theorem EvictsLeaf.locksCounted {x : TreeNode Tok} {f' : Children Tok} (h : EvictsLeaf x f f')
    (hids : (ids f).Nodup) (hlocks : LocksCounted holds f) (hnot : x.id ∉ holds) :
    LocksCounted holds f' := by
  obtain ⟨hleaf, hunlocked, rfl⟩ := h
  induction f with
  | nil => cases hleaf
  | cons childKey n below rest ihb ihr =>
    obtain ⟨_, _, hhere, hinc, hinr⟩ := (hitOnce_of_nodup (x := x) hids).cons
    rw [ids_cons] at hids
    obtain ⟨_, hbelowRest⟩ := List.nodup_cons.mp hids
    obtain ⟨hbelow, hrest, _⟩ := List.nodup_append'.mp hbelowRest
    have hhit : decide (x.id = x.id) = true := decide_eq_true rfl
    rw [Forest.erase]
    rcases Forest.leaves_cons_cases hleaf with ⟨rfl, rfl⟩ | hmem | hmem
    · rw [if_pos hhit]
      exact hlocks.2.2
    · obtain ⟨hn, hnorest⟩ := hinc ⟨x, Forest.leaves_subset_nodes _ x hmem, hhit⟩
      rw [if_neg (by rw [hn]; exact Bool.false_ne_true), Forest.erase_of_not_hit hnorest]
      refine ⟨hlocks.1.trans (congrArg Nat.cast (List.countP_congr fun i hi => ?_)),
        ihb hbelow hlocks.2.1 hmem, hlocks.2.2⟩
      have hne : i ≠ x.id := fun heq => hnot (heq ▸ hi)
      have hperm := (EvictsLeaf.ids_perm ⟨hmem, hunlocked, rfl⟩ hbelow).mem_iff (a := i)
      simp only [List.mem_cons, decide_eq_true_eq, hperm, hne, false_or]
    · obtain ⟨hn, hnobelow⟩ := hinr ⟨x, Forest.leaves_subset_nodes _ x hmem, hhit⟩
      rw [if_neg (by rw [hn]; exact Bool.false_ne_true), Forest.erase_of_not_hit hnobelow]
      exact ⟨hlocks.1, hlocks.2.1, ihr hrest hlocks.2.2 hmem⟩

/-- A chain of unlocked leaves deleted one after the other. -/
inductive Evicts : List (TreeNode Tok) → Children Tok → Children Tok → Prop where
  | done (f : Children Tok) : Evicts [] f f
  | next {x : TreeNode Tok} {xs : List (TreeNode Tok)} {f f' f'' : Children Tok} :
      EvictsLeaf x f f' → Evicts xs f' f'' → Evicts (x :: xs) f f''

theorem Evicts.perm {xs : List (TreeNode Tok)} {f' : Children Tok} (h : Evicts xs f f')
    (hids : (ids f).Nodup) : f.nodes.Perm (xs ++ f'.nodes) := by
  induction h with
  | done => exact List.Perm.refl _
  | next hleaf _ ih => exact (hleaf.perm hids).trans ((ih (hleaf.ids_nodup hids)).cons _)

theorem Evicts.unlocked {xs : List (TreeNode Tok)} {f' : Children Tok} (h : Evicts xs f f') :
    ∀ x ∈ xs, x.lockRef ≤ 0 := by
  induction h with
  | done => exact fun x hx => by cases hx
  | next hleaf _ ih =>
    intro y hy
    rcases List.mem_cons.mp hy with rfl | hy
    · exact hleaf.unlocked
    · exact ih y hy

theorem Evicts.stored {xs : List (TreeNode Tok)} {f' : Children Tok} (h : Evicts xs f f')
    {extraKey : Option String} {p : List Tok} {v : List Int} (hstored : TreeStores f' extraKey p v) :
    TreeStores f extraKey p v := by
  induction h with
  | done => exact hstored
  | next hleaf _ ih =>
    have := ih hstored
    rw [hleaf.deleted] at this
    exact stored_erase this

theorem Evicts.shaped {P : Nat} {xs : List (TreeNode Tok)} {f' : Children Tok} (h : Evicts xs f f')
    (hshape : Shaped P f) : Shaped P f' := by
  induction h with
  | done => exact hshape
  | next hleaf _ ih => exact ih (hleaf.shaped hshape)

theorem Evicts.locksCounted {xs : List (TreeNode Tok)} {f' : Children Tok} (h : Evicts xs f f')
    (hids : (ids f).Nodup) (hlocks : LocksCounted holds f) : LocksCounted holds f' := by
  induction h with
  | done => exact hlocks
  | next hleaf _ ih =>
    have hnot := hlocks.not_held _ (Forest.leaves_subset_nodes _ _ hleaf.leaf) hleaf.unlocked
    exact ih (hleaf.ids_nodup hids) (hleaf.locksCounted hids hlocks hnot)

/-- The heap between two passes: entries of leaves, each once, those of all unlocked ones among
them; and the root's when nothing is left below it. -/
structure HeapFor (rootNode : TreeNode Tok) (heap : List (TreeNode Tok)) (f : Children Tok) : Prop where
  entries : ∀ x ∈ heap, x ∈ f.leaves ∨ (x = rootNode ∧ f = .nil)
  nodup : (heap.map (·.id)).Nodup
  complete : ∀ leaf ∈ f.leaves, leaf.lockRef ≤ 0 → leaf ∈ heap

theorem HeapFor.pop {rootNode x : TreeNode Tok} {heap rest : List (TreeNode Tok)}
    (h : HeapFor rootNode heap f) (hperm : heap.Perm (x :: rest)) :
    (x ∈ f.leaves ∨ (x = rootNode ∧ f = .nil)) ∧ (∀ y ∈ rest, y.id ≠ x.id) ∧
      (∀ y ∈ rest, y ∈ f.leaves ∨ (y = rootNode ∧ f = .nil)) ∧ (rest.map (·.id)).Nodup ∧
      ∀ leaf ∈ f.leaves, leaf.lockRef ≤ 0 → leaf = x ∨ leaf ∈ rest := by
  have hids : (x.id :: rest.map (·.id)).Nodup := (hperm.map TreeNode.id).nodup_iff.mp h.nodup
  obtain ⟨hnot, hnodup⟩ := List.nodup_cons.mp hids
  refine ⟨h.entries x (hperm.mem_iff.mpr List.mem_cons_self), fun y hy heq => ?_, fun y hy => ?_, hnodup,
    fun leaf hleaf hlock => List.mem_cons.mp (hperm.mem_iff.mp (h.complete leaf hleaf hlock))⟩
  · exact hnot (heq ▸ List.mem_map_of_mem hy)
  · exact h.entries y (hperm.mem_iff.mpr (List.mem_cons_of_mem _ hy))

/-- A locked entry is passed over. -/
theorem HeapFor.skip {rootNode x : TreeNode Tok} {heap rest : List (TreeNode Tok)}
    (h : HeapFor rootNode heap f) (hperm : heap.Perm (x :: rest)) (hlocked : 0 < x.lockRef) :
    HeapFor rootNode rest f := by
  obtain ⟨_, _, hentries, hnodup, hcomplete⟩ := h.pop hperm
  refine ⟨hentries, hnodup, fun leaf hleaf hlock => (hcomplete leaf hleaf hlock).resolve_left ?_⟩
  rintro rfl
  omega

/-- The heap after an entry's leaf is deleted, with the parent that has become a leaf. -/
theorem HeapFor.evict {rootNode x : TreeNode Tok} {heap rest : List (TreeNode Tok)}
    (h : HeapFor rootNode heap f) (hperm : heap.Perm (x :: rest)) (hids : (ids f).Nodup)
    (hleaf : x ∈ f.leaves) :
    HeapFor rootNode
      ((if f.onlyHit (fun n => decide (n.id = x.id)) then some rootNode
        else f.onlyChildOf fun n => decide (n.id = x.id)).toList ++ rest)
      (f.erase fun n => decide (n.id = x.id)) := by
  obtain ⟨_, hother, hentries, hnodup, hcomplete⟩ := h.pop hperm
  have honce := hitOnce_of_nodup (x := x) hids
  have hleaves := Forest.mem_leaves_erase honce hleaf (decide_eq_true rfl)
  have hne := Forest.ne_nil_of_mem (Forest.leaves_subset_nodes _ _ hleaf)
  have hrest : ∀ y ∈ rest, y ∈ f.leaves ∧ y ∈ (f.erase fun n => decide (n.id = x.id)).leaves := by
    intro y hy
    have hy' := (hentries y hy).resolve_right fun hnil => hne hnil.2
    exact ⟨hy', (hleaves y).mpr (.inl ⟨hy', decide_eq_false (hother y hy)⟩)⟩
  by_cases honly : f.onlyHit (fun n => decide (n.id = x.id)) = true
  · rw [if_pos honly]
    have hnil : f.erase (fun n => decide (n.id = x.id)) = .nil := by
      have : (f.erase fun n => decide (n.id = x.id)).isNil = f.onlyHit fun n => decide (n.id = x.id) :=
        Forest.isNil_erase hne
      rw [honly] at this
      cases herase : f.erase (fun n => decide (n.id = x.id)) with
      | nil => rfl
      | cons => rw [herase] at this; cases this
    have hempty : rest = [] := by
      refine List.eq_nil_iff_forall_not_mem.mpr fun y hy => ?_
      have := (hrest y hy).2
      rw [hnil] at this
      cases this
    rw [hnil, hempty]
    refine ⟨fun y hy => .inr ⟨List.mem_singleton.mp hy, rfl⟩, List.nodup_singleton _, fun y hy => by cases hy⟩
  · rw [if_neg honly]
    refine ⟨fun y hy => ?_, ?_, fun y hy hlock => ?_⟩
    · rcases List.mem_append.mp hy with hy | hy
      · exact .inl ((hleaves y).mpr (.inr (Option.mem_toList.mp hy)))
      · exact .inl (hrest y hy).2
    · cases hparent : f.onlyChildOf (fun n => decide (n.id = x.id)) with
      | none => exact hnodup
      | some y =>
        -- the parent was no leaf, so it is not in the heap yet
        refine List.nodup_cons.mpr ⟨fun hmem => ?_, hnodup⟩
        obtain ⟨z, hz, heq⟩ := List.mem_map.mp hmem
        have hzleaf := (hrest z hz).1
        have hzy := node_eq_of_id hids (Forest.leaves_subset_nodes _ _ hzleaf)
          (Forest.onlyChildOf_mem hparent) heq
        exact Forest.onlyChildOf_not_leaf (nodes_nodup hids) hparent (hzy ▸ hzleaf)
    · rcases (hleaves y).mp hy with ⟨hleaf', hmiss⟩ | hparent
      · refine List.mem_append_right _ ((hcomplete y hleaf' hlock).resolve_left fun heq => ?_)
        rw [heq] at hmiss
        exact of_decide_eq_false hmiss rfl
      · exact List.mem_append_left _ (Option.mem_toList.mpr hparent)

/-- The loop deletes unlocked leaves until enough tokens are freed or no unlocked node is left. -/
theorem evictLoop_spec (policy : EvictionPolicy) {rootNode : TreeNode Tok} (fuel : Nat)
    (heap : List (TreeNode Tok)) (wanted : Int) (f : Children Tok) (hheap : HeapFor rootNode heap f)
    (hids : (ids f).Nodup) (hroot : rootNode.id ∉ ids f) (hfall : LocksFall f)
    (hfuel : f.nodes.length + heap.length ≤ fuel) :
    Evicts (evictLoop policy rootNode fuel heap wanted f).2 f
        (evictLoop policy rootNode fuel heap wanted f).1 ∧
      (wanted ≤ ((evictLoop policy rootNode fuel heap wanted f).2.map fun n => (n.value.length : Int)).sum ∨
        ∀ n ∈ (evictLoop policy rootNode fuel heap wanted f).1.nodes, 0 < n.lockRef) := by
  induction fuel generalizing heap wanted f with
  | zero =>
    have hnodes : f.nodes = [] := List.eq_nil_of_length_eq_zero (by omega)
    refine ⟨.done f, .inr fun n hn => ?_⟩
    rw [evictLoop, hnodes] at hn
    cases hn
  | succ fuel ih =>
    rw [evictLoop]
    by_cases hwanted : wanted ≤ 0
    · rw [if_pos hwanted]
      exact ⟨.done f, .inl (by simpa using hwanted)⟩
    · rw [if_neg hwanted]
      cases hpop : heappop policy.entryLt heap with
      | none =>
        refine ⟨.done f, .inr fun n hn => ?_⟩
        have hempty : heap = [] := by
          cases heap with
          | nil => rfl
          | cons x heap =>
            obtain ⟨y, rest, hsome⟩ := heappop_isSome policy.entryLt x heap
            rw [hsome] at hpop
            cases hpop
        by_contra hlock
        obtain ⟨leaf, hleaf, hunlocked⟩ := Forest.exists_leaf_of (p := fun n : TreeNode Tok => n.lockRef ≤ 0)
          (hfall.imp fun _ m below hm hle c hc => (hm c hc).trans hle) hn (Int.not_lt.mp hlock)
        have := hheap.complete leaf hleaf hunlocked
        rw [hempty] at this
        cases this
      | some entry =>
        obtain ⟨x, rest⟩ := entry
        have hperm := heappop_perm _ hpop
        have hlen := hperm.length_eq
        rw [List.length_cons] at hlen
        obtain ⟨hx, _, _, _, _⟩ := hheap.pop hperm
        simp only
        by_cases hxroot : x.id = rootNode.id
        · rw [if_pos hxroot]
          refine ⟨.done f, .inr fun n hn => ?_⟩
          rcases hx with hleaf | ⟨_, hnil⟩
          · exact absurd (hxroot ▸ id_mem_ids (Forest.leaves_subset_nodes _ _ hleaf)) hroot
          · rw [hnil] at hn
            cases hn
        · rw [if_neg hxroot]
          have hleaf := hx.resolve_right fun h => hxroot (congrArg TreeNode.id h.1)
          by_cases hlocked : x.lockRef > 0
          · rw [if_pos hlocked]
            exact ih rest wanted f (hheap.skip hperm hlocked) hids hroot hfall (by omega)
          · rw [if_neg hlocked]
            have hevict : EvictsLeaf x f (f.erase fun n => decide (n.id = x.id)) :=
              ⟨hleaf, Int.not_lt.mp hlocked, rfl⟩
            have hnodes := (hevict.perm hids).length_eq
            have hidsPerm := hevict.ids_perm hids
            rw [List.length_cons] at hnodes
            have hparent : ∀ parent : Option (TreeNode Tok), (parent.toList ++ rest).length ≤ rest.length + 1 := by
              intro parent
              cases parent <;> simp
            obtain ⟨hchain, hdone⟩ := ih _ (wanted - x.value.length) _
              (hheap.evict hperm hids hleaf) (hevict.ids_nodup hids)
              (fun hmem => hroot (hidsPerm.mem_iff.mpr (List.mem_cons_of_mem _ hmem))) (hevict.fall hfall)
              (by have := hparent (if f.onlyHit (fun n => decide (n.id = x.id)) then some rootNode
                    else f.onlyChildOf fun n => decide (n.id = x.id)); omega)
            refine ⟨.next hevict hchain, hdone.imp (fun hsum => ?_) id⟩
            rw [List.map_cons, List.sum_cons]
            omega

end Evict

end QCFuse.Guarantees
