import QCFuse.Guarantees.NgramIntegrity
import QCFuse.Source.NgramMatch

/-!
# Drafting ends

On a whole trie the searches of `matchBFS` and `matchProb`, and the one of `fillResult` through
the tree they draft, meet no node twice. So `batchMatch` answers every batch of nonempty contexts.
-/

set_option autoImplicit false

namespace QCFuse.Guarantees

open QCFuse.Library QCFuse.Source

/-! ## The drafted tree -/

namespace DraftTree

/-- Positions are handed out in order, each below one earlier position. -/
structure Ok (tree : DraftTree) : Prop where
  cursor : 0 < tree.cursor
  later : ∀ p, ∀ e ∈ tree.next p, p < e.2 ∧ e.2 < tree.cursor
  unique : ∀ p p' e e', e ∈ tree.next p → e' ∈ tree.next p' → e.2 = e'.2 → p = p'
  distinct : ∀ p, ((tree.next p).map Prod.snd).Nodup

theorem next_new (draftTokenNum p : Nat) : (DraftTree.new draftTokenNum).next p = [] := by
  simp only [DraftTree.next, DraftTree.new, List.getD_eq_getElem?_getD, List.getElem?_replicate]
  split <;> rfl

theorem ok_new (draftTokenNum : Nat) : Ok (DraftTree.new draftTokenNum) where
  cursor := Nat.one_pos
  later := fun p e he => by
    rw [next_new] at he
    cases he
  unique := fun p _ e _ he => by
    rw [next_new] at he
    cases he
  distinct := fun p => by
    rw [next_new]
    exact List.nodup_nil

variable {tree : DraftTree} {parent : Nat} {token : Int}

/-- `place` finds an entry, or hands out the next position. -/
theorem place_cases (tree : DraftTree) (parent : Nat) (token : Int) :
    (∃ e ∈ tree.next parent, e.1 = token ∧ tree.place parent token = (e.2, tree)) ∨
      (∀ e ∈ tree.next parent, e.1 ≠ token) ∧ (tree.place parent token).1 = tree.cursor ∧
      (tree.place parent token).2.cursor = tree.cursor + 1 ∧
      ∀ p, (tree.place parent token).2.next p = tree.next p ∨
        p = parent ∧ (tree.place parent token).2.next p = tree.next p ++ [(token, tree.cursor)] := by
  unfold DraftTree.place
  split
  next e hfind =>
    have htoken := List.find?_some hfind
    exact Or.inl ⟨e, List.mem_of_find?_eq_some hfind, of_decide_eq_true htoken, rfl⟩
  next hfind =>
    refine Or.inr ⟨fun e he => by simpa using List.find?_eq_none.mp hfind e he, rfl, rfl, fun p => ?_⟩
    by_cases hp : p = parent
    · subst hp
      by_cases hlt : p < tree.nodes.length
      · refine Or.inr ⟨rfl, ?_⟩
        simp [DraftTree.next, List.getElem?_set_self hlt]
      · refine Or.inl ?_
        simp only [DraftTree.next, List.set_eq_of_length_le (Nat.le_of_not_lt hlt)]
    · refine Or.inl ?_
      simp [DraftTree.next, List.getElem?_set_ne (Ne.symm hp)]

theorem Ok.place (h : Ok tree) (token : Int) (hparent : parent < tree.cursor) :
    Ok (tree.place parent token).2 ∧ (tree.place parent token).1 < (tree.place parent token).2.cursor ∧
      tree.cursor ≤ (tree.place parent token).2.cursor ∧
      (tree.place parent token).2.cursor ≤ tree.cursor + 1 := by
  rcases place_cases tree parent token with ⟨e, he, -, heq⟩ | ⟨-, hpos, hcursor, hnext⟩
  · rw [heq]
    exact ⟨h, (h.later parent e he).2, Nat.le_refl _, Nat.le_succ _⟩
  -- an entry is an old one, or the new one below `parent`
  have hmem : ∀ p, ∀ e ∈ (tree.place parent token).2.next p,
      e ∈ tree.next p ∨ p = parent ∧ e.2 = tree.cursor := by
    intro p e he
    rcases hnext p with heq | ⟨hp, heq⟩
    · exact Or.inl (heq ▸ he)
    · rw [heq, List.mem_append, List.mem_singleton] at he
      exact he.imp_right fun hnew => ⟨hp, by rw [hnew]⟩
  refine ⟨⟨by omega, fun p e he => ?_, fun p p' e e' he he' hsame => ?_, fun p => ?_⟩, by omega, by omega,
    by omega⟩
  · rcases hmem p e he with hold | ⟨hp, hnew⟩
    · have := h.later p e hold
      omega
    · omega
  · rcases hmem p e he with hold | ⟨hp, hnew⟩ <;> rcases hmem p' e' he' with hold' | ⟨hp', hnew'⟩
    · exact h.unique p p' e e' hold hold' hsame
    · have := (h.later p e hold).2
      omega
    · have := (h.later p' e' hold').2
      omega
    · exact hp.trans hp'.symm
  · rcases hnext p with heq | ⟨hp, heq⟩
    · rw [heq]
      exact h.distinct p
    · rw [heq, List.map_append, List.map_singleton]
      refine (h.distinct p).append (List.nodup_singleton _) ?_
      rw [List.disjoint_singleton]
      intro hold
      obtain ⟨e, he, heq'⟩ := List.mem_map.mp hold
      have := (h.later p e he).2
      omega

/-- One position below another. -/
def Below (tree : DraftTree) (p pos : Nat) : Prop := ∃ e ∈ tree.next p, e.2 = pos

theorem Ok.below_unique (h : Ok tree) (p p' pos : Nat) (hp : Below tree p pos) (hp' : Below tree p' pos) :
    p = p' := by
  obtain ⟨e, he, rfl⟩ := hp
  obtain ⟨e', he', heq⟩ := hp'
  exact h.unique p p' e e' he he' heq.symm

theorem Ok.below_lt (h : Ok tree) (p pos : Nat) (hp : Below tree p pos) : p < pos := by
  obtain ⟨e, he, rfl⟩ := hp
  exact (h.later p e he).1

end DraftTree

section Fill

variable {D : Type} (platform : Platform D) {tree : DraftTree}

theorem fillEntries_nodes (node prev : Nat) : ((fillEntries platform tree node prev).map fun e => e.2.1).Perm
    ((tree.next node).map Prod.snd) := by
  rw [fillEntries, List.map_map]
  exact (platform.mapOrder_perm (tree.next node)).map Prod.snd

/-- The children of a position, as the search visits them. -/
theorem fill_visit (prev : Nat) (h : DraftTree.Ok tree) {visited waiting' rest waiting : List Nat} {node : Nat}
    (hs : Search (DraftTree.Below tree) id (List.range tree.cursor) 0 visited waiting)
    (hwaiting : waiting.Perm (node :: rest))
    (hwaiting' : waiting'.Perm (rest ++ (fillEntries platform tree node prev).map fun e => e.2.1)) :
    Search (DraftTree.Below tree) id (List.range tree.cursor) 0 (node :: visited) waiting' := by
  refine hs.visit h.below_unique h.below_lt hwaiting
    (hwaiting'.trans ((fillEntries_nodes platform node prev).append_left rest)) (h.distinct node) ?_
  intro pos hpos
  obtain ⟨e, he, rfl⟩ := List.mem_map.mp hpos
  exact ⟨⟨e, he, rfl⟩, List.mem_range.mpr (h.later node e he).2⟩

theorem fillLoop_ok (h : DraftTree.Ok tree) (fuel : Nat) {visited : List Nat} {queue : List (Int × Nat × Nat)}
    (hs : Search (DraftTree.Below tree) id (List.range tree.cursor) 0 visited (queue.map fun e => e.2.1))
    (hfuel : tree.cursor ≤ visited.length + fuel) (places : List (Int × Int)) :
    ∃ out, fillLoop platform tree fuel queue places = .ok out := by
  induction fuel generalizing visited queue places with
  | zero =>
    cases queue with
    | nil => exact ⟨places, by rw [fillLoop]⟩
    | cons e queue =>
      have := hs.visited_lt (by simp)
      rw [List.length_range] at this
      omega
  | succ fuel ih =>
    cases queue with
    | nil => exact ⟨places, by rw [fillLoop]⟩
    | cons e queue =>
      obtain ⟨token, next, prev⟩ := e
      rw [fillLoop]
      refine ih (fill_visit platform places.length h hs (List.Perm.refl _) ?_) ?_ _
      · rw [List.map_append]
      · rw [List.length_cons]
        omega

theorem fillResult_ok (h : DraftTree.Ok tree) (lastToken : Int) {draftTokenNum : Nat}
    (hcursor : tree.cursor ≤ draftTokenNum) :
    ∃ result, fillResult platform tree lastToken draftTokenNum = .ok result := by
  have hroot := Search.single (DraftTree.Below tree) id (List.mem_range.mpr h.cursor)
  obtain ⟨out, hout⟩ := fillLoop_ok platform h draftTokenNum (fill_visit platform 0 h hroot (List.Perm.refl _)
    (by rw [List.nil_append])) (by rw [List.length_singleton]; omega) [(lastToken, -1)]
  exact ⟨_, by simp only [fillResult, hout, bind, Except.bind, pure, Except.pure]; rfl⟩

theorem fillBack_ok (h : DraftTree.Ok tree) {tokens : List Int} (hne : tokens ≠ []) {draftTokenNum : Nat}
    (hcursor : tree.cursor ≤ draftTokenNum) :
    ∃ result, fillBack platform tree tokens draftTokenNum = .ok result := by
  rw [fillBack, List.getLast?_eq_some_getLast hne]
  exact fillResult_ok platform h _ hcursor

end Fill

/-! ## Down the trie -/

section Trie

variable {D : Type} (platform : Platform D) {s : Ngram} {draftTokenNum : Nat}

def TrieChild (s : Ngram) (p c : Nat) : Prop := c ∈ s.globalLru ∧ (s.nodes c).parent = p

/-- A search down the trie. -/
abbrev Descent (s : Ngram) (start : Nat) (visited waiting : List Nat) : Prop :=
  Search (TrieChild s) (fun n => (s.root :: s.globalLru).idxOf n) (s.root :: s.globalLru) start visited waiting

theorem Linked.child_rank (h : Linked s) (p c : Nat) (hc : TrieChild s p c) :
    (s.root :: s.globalLru).idxOf p < (s.root :: s.globalLru).idxOf c := by
  obtain ⟨hmem, rfl⟩ := hc
  have hroot : s.root ≠ c := fun heq => (List.nodup_cons.mp h.order.nodup).1 (heq ▸ hmem)
  rw [List.idxOf_cons_ne _ hroot]
  by_cases hp : s.root = (s.nodes c).parent
  · rw [← hp, List.idxOf_cons_self]
    exact Nat.succ_pos _
  · rw [List.idxOf_cons_ne _ hp]
    refine Nat.succ_lt_succ (h.order.idxOf_parent_lt hmem ?_)
    exact (List.mem_cons.mp (h.order.parent_mem c hmem)).resolve_left (Ne.symm hp)

/-- Visiting a node queues some of its children. -/
theorem Linked.visit (h : Linked s) {start node : Nat} {visited waiting waiting' rest children : List Nat}
    (hd : Descent s start visited waiting) (hwaiting : waiting.Perm (node :: rest))
    (hwaiting' : waiting'.Perm (rest ++ children)) (hnodup : children.Nodup)
    (hsub : children ⊆ (s.nodes node).child.map Prod.snd) : Descent s start (node :: visited) waiting' := by
  have hnode : node ∈ s.root :: s.globalLru :=
    hd.inside (List.mem_append_right visited (hwaiting.mem_iff.mpr List.mem_cons_self))
  refine hd.visit (fun p p' c hp hp' => hp.2.symm.trans hp'.2) h.child_rank hwaiting hwaiting' hnodup ?_
  intro c hc
  obtain ⟨hmem, hparent, -⟩ := (h.node_ok node hnode).mem_of_lru (hsub hc)
  exact ⟨⟨hmem, hparent⟩, List.mem_cons_of_mem s.root hmem⟩

theorem Linked.length_nodes_le (h : Linked s) : (s.root :: s.globalLru).length ≤ s.capacity := by
  have := h.count_free
  rw [List.length_cons]
  omega

theorem Linked.descend_mem (h : Linked s) {p node : Nat} {tokens : List Int} (hp : p ∈ s.root :: s.globalLru)
    (hd : QCFuse.Source.descend s.nodes p tokens = some node) : node ∈ s.root :: s.globalLru := by
  induction tokens generalizing p with
  | nil =>
    cases hd
    exact hp
  | cons token tokens ih =>
    obtain ⟨c, hfind, hrest⟩ := Option.bind_eq_some_iff.mp hd
    exact ih (List.mem_cons_of_mem s.root ((h.node_ok p hp).child_mem _ (TrieNode.mem_of_find hfind)).1) hrest

theorem Linked.matchNodes_mem (h : Linked s) {tokens : List Int} {batchSize : Nat} {entry : Nat × Nat}
    (hentry : entry ∈ s.matchNodes tokens batchSize) : entry.1 ∈ s.root :: s.globalLru := by
  obtain ⟨size, -, hsize⟩ := List.mem_filterMap.mp hentry
  obtain ⟨node, hd, rfl⟩ := Option.map_eq_some_iff.mp hsize
  exact h.descend_mem List.mem_cons_self hd

/-! ### `matchBFS` -/

/-- What holds of the tree and of the positions that are queued. -/
structure Drafting (draftTokenNum : Nat) (tree : DraftTree) (parents : List Nat) : Prop where
  ok : DraftTree.Ok tree
  cursor : tree.cursor ≤ draftTokenNum + 1
  parents : ∀ p ∈ parents, p < tree.cursor

theorem Drafting.place {tree : DraftTree} {parent : Nat} {parents : List Nat}
    (h : Drafting draftTokenNum tree (parent :: parents)) (token : Int) (hlt : tree.cursor ≤ draftTokenNum) :
    Drafting draftTokenNum (tree.place parent token).2 ((tree.place parent token).1 :: parent :: parents) := by
  obtain ⟨hok, hpos, hle, hgrow⟩ := h.ok.place token (h.parents parent List.mem_cons_self)
  refine ⟨hok, by omega, fun p hp => ?_⟩
  rcases List.mem_cons.mp hp with rfl | hp
  · exact hpos
  · exact Nat.lt_of_lt_of_le (h.parents p hp) hle

theorem Drafting.subset {tree : DraftTree} {parents parents' : List Nat}
    (h : Drafting draftTokenNum tree parents) (hsub : parents' ⊆ parents) :
    Drafting draftTokenNum tree parents' :=
  ⟨h.ok, h.cursor, fun p hp => h.parents p (hsub hp)⟩

open Ngram in
theorem bfsChildren_ok (parent : Nat) (breadth : D) (children : List Nat) {tree : DraftTree}
    {queue : List (BfsEntry D)} (h : Drafting draftTokenNum tree (parent :: queue.map Prod.fst)) :
    ∃ queued, queued.Sublist children ∧
      Drafting draftTokenNum (bfsChildren s draftTokenNum parent breadth children (tree, queue)).1
        (parent :: (bfsChildren s draftTokenNum parent breadth children (tree, queue)).2.map Prod.fst) ∧
      (bfsChildren s draftTokenNum parent breadth children (tree, queue)).2.map (fun e => e.2.2) =
        queue.map (fun e => e.2.2) ++ queued := by
  induction children generalizing tree queue with
  | nil => exact ⟨[], List.Sublist.refl [], h, (List.append_nil _).symm⟩
  | cons child children ih =>
    by_cases hlt : tree.cursor ≤ draftTokenNum
    · have hplace := h.place (s.nodes child).token hlt
      have hnext : Drafting draftTokenNum (tree.place parent (s.nodes child).token).2 (parent ::
          (queue ++ [((tree.place parent (s.nodes child).token).1, breadth, child)]).map Prod.fst) := by
        refine hplace.subset fun p hp => ?_
        rw [List.map_append, List.map_singleton] at hp
        simp only [List.mem_cons, List.mem_append] at hp ⊢
        tauto
      obtain ⟨queued, hsub, hd, hnodes⟩ := ih hnext
      have hstep : bfsChildren s draftTokenNum parent breadth (child :: children) (tree, queue) =
          bfsChildren s draftTokenNum parent breadth children ((tree.place parent (s.nodes child).token).2,
            queue ++ [((tree.place parent (s.nodes child).token).1, breadth, child)]) := by
        rw [bfsChildren, List.foldl_cons, ← bfsChildren]
        simp only [if_pos hlt]
      rw [hstep]
      refine ⟨child :: queued, hsub.cons_cons child, hd, ?_⟩
      rw [hnodes, List.map_append, List.map_singleton, List.append_assoc, List.singleton_append]
    · have hstep : bfsChildren s draftTokenNum parent breadth (child :: children) (tree, queue) =
          bfsChildren s draftTokenNum parent breadth children (tree, queue) := by
        rw [bfsChildren, List.foldl_cons, ← bfsChildren]
        simp only [if_neg hlt]
      rw [hstep]
      obtain ⟨queued, hsub, hd, hnodes⟩ := ih h
      exact ⟨queued, hsub.cons child, hd, hnodes⟩

open Ngram in
theorem bfsLoop_ok (h : Linked s) {start : Nat} (scale : D) {fuel : Nat} {visited : List Nat}
    {tree : DraftTree} {queue : List (BfsEntry D)} (hd : Descent s start visited (queue.map fun e => e.2.2))
    (hfuel : (s.root :: s.globalLru).length ≤ visited.length + fuel)
    (hdraft : Drafting draftTokenNum tree (queue.map Prod.fst)) :
    ∃ tree', bfsLoop platform s draftTokenNum scale fuel tree queue = .ok tree' ∧
      Drafting draftTokenNum tree' [] := by
  induction fuel generalizing visited tree queue with
  | zero =>
    cases queue with
    | nil => exact ⟨tree, by rw [bfsLoop], hdraft⟩
    | cons e queue =>
      have := hd.visited_lt (by simp)
      omega
  | succ fuel ih =>
    cases queue with
    | nil => exact ⟨tree, by rw [bfsLoop], hdraft⟩
    | cons e queue =>
      obtain ⟨parent, breadth, node⟩ := e
      by_cases hlt : tree.cursor ≤ draftTokenNum
      · have hnode : node ∈ s.root :: s.globalLru :=
          hd.inside (List.mem_append_right visited List.mem_cons_self)
        have hok := h.node_ok node hnode
        obtain ⟨queued, hsub, hdraft', hnodes⟩ := bfsChildren_ok (s := s) parent (platform.sub breadth scale)
          ((s.nodes node).lru.take (max 1 (platform.toInt breadth)).toNat) hdraft
        have hlru := hsub.trans (List.take_sublist _ _)
        have hvisit := h.visit hd (List.Perm.refl _) (List.Perm.of_eq hnodes)
          ((hok.lru_perm.nodup_iff.mpr hok.snd_nodup).sublist hlru) (List.Subset.trans hlru.subset hok.lru_perm.subset)
        obtain ⟨tree', hrun, hout⟩ := ih hvisit (by rw [List.length_cons (a := node)]; omega)
          (hdraft'.subset (List.subset_cons_self _ _))
        exact ⟨tree', by rw [bfsLoop, if_pos hlt]; exact hrun, hout⟩
      · exact ⟨tree, by rw [bfsLoop, if_neg hlt], hdraft.subset (List.nil_subset _)⟩

theorem drafting_new (draftTokenNum : Nat) : Drafting draftTokenNum (DraftTree.new draftTokenNum) [] :=
  ⟨DraftTree.ok_new draftTokenNum, Nat.le_add_left 1 draftTokenNum, fun _ hp => absurd hp List.not_mem_nil⟩

/-- A loop whose body cannot fail while an invariant holds. -/
theorem foldlM_ok {σ τ : Type} (inv : σ → Prop) (body : σ → τ → Except NgramError σ) (xs : List τ) {a : σ}
    (ha : inv a) (hbody : ∀ b, inv b → ∀ x ∈ xs, ∃ b', body b x = .ok b' ∧ inv b') :
    ∃ b, xs.foldlM body a = .ok b ∧ inv b := by
  induction xs generalizing a with
  | nil => exact ⟨a, rfl, ha⟩
  | cons x xs ih =>
    obtain ⟨b, hb, hinv⟩ := hbody a ha x List.mem_cons_self
    obtain ⟨c, hc, hout⟩ := ih hinv fun b' hb' y hy => hbody b' hb' y (List.mem_cons_of_mem x hy)
    refine ⟨c, ?_, hout⟩
    rw [List.foldlM_cons, hb]
    exact hc

/-- The searches from the matched nodes, one after the other. -/
theorem matchBFS_loops (h : Linked s) (tokens : List Int) (batchSize : Nat) :
    ∃ tree, (s.matchNodes tokens batchSize).foldlM (fun tree (entry : Nat × Nat) =>
        Ngram.bfsLoop platform s (s.param.getDraftTokenNum batchSize) (Ngram.bfsBreadthScale platform s)
          (s.capacity + 1) tree [(0, Ngram.bfsBreadth platform s entry.2, entry.1)])
        (DraftTree.new (s.param.getDraftTokenNum batchSize)) = .ok tree ∧
      Drafting (s.param.getDraftTokenNum batchSize) tree [] :=
  foldlM_ok (fun tree => Drafting (s.param.getDraftTokenNum batchSize) tree []) _ (s.matchNodes tokens batchSize)
    (drafting_new _) (by
      intro tree htree entry hentry
      have hle := h.length_nodes_le
      refine bfsLoop_ok platform h _ (Search.single _ _ (h.matchNodes_mem hentry)) ?_ ⟨htree.ok, htree.cursor, ?_⟩
      · rw [List.length_nil]
        omega
      · intro p hp
        rw [List.mem_singleton.mp hp]
        exact htree.ok.cursor)

theorem matchBFS_ok (h : Linked s) {tokens : List Int} (hne : tokens ≠ []) (batchSize : Nat) :
    ∃ result, Ngram.matchBFS platform s tokens batchSize = .ok result := by
  obtain ⟨tree, hrun, htree⟩ := matchBFS_loops platform h tokens batchSize
  obtain ⟨result, hresult⟩ := fillBack_ok platform htree.ok hne htree.cursor
  exact ⟨result, by simp only [Ngram.matchBFS, bind, Except.bind] at hrun ⊢; rw [hrun]; exact hresult⟩

/-! ### `matchProb` -/

theorem pushAll_perm (entry : Nat → HeapEntry D) (children : List Nat) (heap : List (HeapEntry D)) :
    (children.foldl (fun heap child => platform.emplace heap (entry child)) heap).Perm
      (heap ++ children.map entry) := by
  induction children generalizing heap with
  | nil => simp
  | cons child children ih =>
    rw [List.foldl_cons, List.map_cons]
    exact (ih _).trans (((platform.emplace_perm heap (entry child)).append_right _).trans List.perm_middle.symm)

theorem addToHeap_perm (parent node : Nat) (prob : D) (heap : List (HeapEntry D)) :
    ∃ entry : Nat → HeapEntry D, (∀ child, (entry child).1 = parent ∧ (entry child).2.1 = child) ∧
      (Ngram.addToHeap platform s parent node prob heap).Perm
        (heap ++ ((s.nodes node).sortedChildren.take s.param.maxBfsBreadth).map entry) :=
  ⟨_, fun _ => ⟨rfl, rfl⟩, pushAll_perm platform _ _ heap⟩

/-- The children of a node join the heap. -/
theorem Linked.visit_heap (h : Linked s) (parent : Nat) (prob : D) {start node : Nat} {visited waiting : List Nat}
    {heap : List (HeapEntry D)} (hd : Descent s start visited waiting)
    (hwaiting : waiting.Perm (node :: heap.map fun e => e.2.1)) :
    Descent s start (node :: visited) ((Ngram.addToHeap platform s parent node prob heap).map fun e => e.2.1) := by
  obtain ⟨entry, hentry, hperm⟩ := addToHeap_perm platform (s := s) parent node prob heap
  have hnode : node ∈ s.root :: s.globalLru :=
    hd.inside (List.mem_append_right visited (hwaiting.mem_iff.mpr List.mem_cons_self))
  have hok := h.node_ok node hnode
  have hsub := List.take_sublist s.param.maxBfsBreadth (s.nodes node).sortedChildren
  refine h.visit hd hwaiting ?_ ((hok.sorted_perm.nodup_iff.mpr hok.snd_nodup).sublist hsub)
    (List.Subset.trans hsub.subset hok.sorted_perm.subset)
  have hmap := hperm.map fun e => e.2.1
  rw [List.map_append, List.map_map] at hmap
  have hid : (fun e : HeapEntry D => e.2.1) ∘ entry = id := funext fun c => (hentry c).2
  rwa [hid, List.map_id] at hmap

theorem addToHeap_parents (parent node : Nat) (prob : D) (heap : List (HeapEntry D)) :
    (Ngram.addToHeap platform s parent node prob heap).map Prod.fst ⊆ parent :: heap.map Prod.fst := by
  obtain ⟨entry, hentry, hperm⟩ := addToHeap_perm platform (s := s) parent node prob heap
  intro p hp
  obtain ⟨e, he, rfl⟩ := List.mem_map.mp hp
  rcases List.mem_append.mp (hperm.subset he) with hold | hnew
  · exact List.mem_cons_of_mem parent (List.mem_map_of_mem hold)
  · obtain ⟨c, -, rfl⟩ := List.mem_map.mp hnew
    rw [(hentry c).1]
    exact List.mem_cons_self

/-- The loop ends with an empty heap or with no position left. -/
structure Drafted (draftTokenNum : Nat) (draft : DraftTree × List (HeapEntry D)) : Prop where
  drafting : Drafting draftTokenNum draft.1 (draft.2.map Prod.fst)
  finished : draft.2 = [] ∨ draftTokenNum < draft.1.cursor

theorem probLoop_full {tree : DraftTree} {heap : List (HeapEntry D)} (fuel : Nat)
    (hfull : draftTokenNum < tree.cursor) :
    Ngram.probLoop platform s draftTokenNum fuel tree heap = .ok (tree, heap) := by
  cases heap with
  | nil => rw [Ngram.probLoop]
  | cons e heap =>
    obtain ⟨parent, node, prob⟩ := e
    cases fuel <;> rw [Ngram.probLoop, if_neg (Nat.not_le_of_lt hfull)]

theorem probLoop_ok (h : Linked s) {start : Nat} {fuel : Nat} {visited : List Nat} {tree : DraftTree}
    {heap : List (HeapEntry D)} (hd : Descent s start visited (heap.map fun e => e.2.1))
    (hfuel : (s.root :: s.globalLru).length ≤ visited.length + fuel)
    (hdraft : Drafting draftTokenNum tree (heap.map Prod.fst)) :
    ∃ draft, Ngram.probLoop platform s draftTokenNum fuel tree heap = .ok draft ∧
      Drafted draftTokenNum draft := by
  induction fuel generalizing visited tree heap with
  | zero =>
    cases heap with
    | nil => exact ⟨(tree, []), by rw [Ngram.probLoop], hdraft, Or.inl rfl⟩
    | cons e heap =>
      have := hd.visited_lt (by simp)
      omega
  | succ fuel ih =>
    cases heap with
    | nil => exact ⟨(tree, []), by rw [Ngram.probLoop], hdraft, Or.inl rfl⟩
    | cons e rest =>
      obtain ⟨parent, node, prob⟩ := e
      by_cases hlt : tree.cursor ≤ draftTokenNum
      · have hpop := platform.pop_perm (parent, node, prob) rest
        have hvisit := h.visit_heap platform (tree.place parent (s.nodes node).token).1 prob hd
          ((hpop.map fun e : HeapEntry D => e.2.1).cons node).symm
        have hparents := addToHeap_parents platform (s := s) (tree.place parent (s.nodes node).token).1 node prob
          (platform.pop ((parent, node, prob) :: rest))
        obtain ⟨draft, hrun, hout⟩ := ih hvisit (by rw [List.length_cons (a := node)]; omega)
          ((hdraft.place (s.nodes node).token hlt).subset (List.Subset.trans hparents
            (List.cons_subset_cons _ (List.subset_cons_of_subset parent (hpop.map Prod.fst).subset))))
        exact ⟨draft, by rw [Ngram.probLoop, if_pos hlt]; exact hrun, hout⟩
      · have hfull := Nat.lt_of_not_le hlt
        exact ⟨_, probLoop_full platform _ hfull, hdraft, Or.inr hfull⟩

/-- The searches from the matched nodes, with the heap that stays between them. -/
theorem matchProb_loops (h : Linked s) (tokens : List Int) (batchSize : Nat) :
    ∃ draft, (s.matchNodes tokens batchSize).foldlM
        (fun (draft : DraftTree × List (HeapEntry D)) (entry : Nat × Nat) =>
          Ngram.probLoop platform s (s.param.getDraftTokenNum batchSize) (s.capacity + 1) draft.1
            (Ngram.addToHeap platform s 0 entry.1 (platform.ofInt 1) draft.2))
        (DraftTree.new (s.param.getDraftTokenNum batchSize), []) = .ok draft ∧
      Drafted (s.param.getDraftTokenNum batchSize) draft :=
  foldlM_ok (Drafted (s.param.getDraftTokenNum batchSize)) _ (s.matchNodes tokens batchSize)
    ⟨drafting_new _, Or.inl rfl⟩ (by
      rintro ⟨tree, heap⟩ hdraft entry hentry
      have hparents : Drafting (s.param.getDraftTokenNum batchSize) tree
          ((Ngram.addToHeap platform s 0 entry.1 (platform.ofInt 1) heap).map Prod.fst) := by
        refine ⟨hdraft.drafting.ok, hdraft.drafting.cursor, fun p hp => ?_⟩
        rcases List.mem_cons.mp (addToHeap_parents platform _ _ _ _ hp) with rfl | hold
        · exact hdraft.drafting.ok.cursor
        · exact hdraft.drafting.parents p hold
      rcases hdraft.finished with hempty | hfull
      · have hle := h.length_nodes_le
        obtain rfl : heap = [] := hempty
        exact probLoop_ok platform h (h.visit_heap platform _ _ (Search.single _ _ (h.matchNodes_mem hentry))
          (List.Perm.refl _)) (by rw [List.length_singleton]; omega) hparents
      · exact ⟨_, probLoop_full platform _ hfull, hparents, Or.inr hfull⟩)

theorem matchProb_ok (h : Linked s) {tokens : List Int} (hne : tokens ≠ []) (batchSize : Nat) :
    ∃ result, Ngram.matchProb platform s tokens batchSize = .ok result := by
  obtain ⟨draft, hrun, hdraft⟩ := matchProb_loops platform h tokens batchSize
  obtain ⟨result, hresult⟩ := fillBack_ok platform hdraft.drafting.ok hne hdraft.drafting.cursor
  exact ⟨result, by simp only [Ngram.matchProb, bind, Except.bind] at hrun ⊢; rw [hrun]; exact hresult⟩

/-- On a whole trie every batch of nonempty contexts is answered. -/
theorem batchMatch_ok (h : Linked s) {tokens : List (List Int)} (hne : ∀ tks ∈ tokens, tks ≠ []) :
    ∃ result, Ngram.batchMatch platform s tokens = .ok result := by
  have hmatch : ∀ tks ∈ tokens, ∃ result, (if s.param.matchType = "BFS" then
      Ngram.matchBFS platform s tks tokens.length else Ngram.matchProb platform s tks tokens.length) =
        .ok result := by
    intro tks htks
    split
    · exact matchBFS_ok platform h (hne tks htks) tokens.length
    · exact matchProb_ok platform h (hne tks htks) tokens.length
  obtain ⟨results, hrun⟩ := mapM_exists hmatch
  exact ⟨_, by simp only [Ngram.batchMatch, hrun, bind, Except.bind, pure, Except.pure]; rfl⟩

end Trie

end QCFuse.Guarantees
