import QCFuse.Library.Forest
import QCFuse.Source.GrammarMask

/-!
# Grammar masks

The mask of a draft tree holds, for each node, what the grammar accepts after the node's path, the walk
leaves the grammar as it was, and the acceptance loop feeds it only what it accepts.
-/

set_option autoImplicit false

namespace QCFuse.Guarantees

open QCFuse.Library QCFuse.Source

section Grammar

variable {Γ : Type} (grammar : GrammarObject Γ)

/-- What is relied on of a grammar object over a vocabulary. -/
structure LawfulGrammar (vocabSize words : Nat) : Prop where
  rollback_accept : ∀ g token g', grammar.acceptToken g token = some g' → grammar.rollback g' = g
  fill_length : ∀ g, (grammar.fillVocabMask g).length = words
  fill_exact : ∀ g token, grammar.isTerminated g = false → token < vocabSize →
    maskBit (grammar.fillVocabMask g) token = .ok (grammar.acceptToken g token).isSome
  allocate_length : ∀ batchSize, (grammar.allocateVocabMask vocabSize batchSize).length = batchSize
  allocate_words : ∀ batchSize, ∀ row ∈ grammar.allocateVocabMask vocabSize batchSize, row.length = words
  vocab_le : vocabSize ≤ 32 * words
  /-- A grammar that has not ended can go on. -/
  live : ∀ g, grammar.isTerminated g = false → ∃ token < vocabSize, (grammar.acceptToken g token).isSome

/-- The grammar after the tokens, if every one of them is acceptable. -/
def stateAfter (g : Γ) : List Nat → Option Γ
  | [] => some g
  | token :: tokens =>
    if grammar.isTerminated g then none else (grammar.acceptToken g token).bind fun g => stateAfter g tokens

/-- The row of a node: the grammar's mask after the node's path, or zero. -/
def rowAfter (words : Nat) (g : Γ) (path : List Nat) : MaskRow :=
  match stateAfter grammar g path with
  | some g => if grammar.isTerminated g then List.replicate words 0 else grammar.fillVocabMask g
  | none => List.replicate words 0

end Grammar

/-! ## Draft trees -/

/-- The tokens on the way to each node. -/
def nodePaths : Forest Nat Nat → List (List Nat × Nat)
  | .nil => []
  | .cons token pos children rest =>
    ([token], pos) :: (nodePaths children).map (fun node => (token :: node.1, node.2)) ++ nodePaths rest

/-- The links from `link` on spell the forest: of a node, its first child and its next sibling. -/
def Spells (tree : DraftLinks) : Forest Nat Nat → Int → Prop
  | .nil, link => link = -1
  | .cons token pos children rest, link =>
    link = (pos : Int) ∧ tree.draftTokens[pos]? = some token ∧
      ∃ child sibling, tree.retrieveNextToken[pos]? = some child ∧ tree.retrieveNextSibling[pos]? = some sibling ∧
        Spells tree children child ∧ Spells tree rest sibling

section Walk

variable {Γ : Type} {grammar : GrammarObject Γ} {V words : Nat} {tree : DraftLinks}

theorem nodePaths_pos {f : Forest Nat Nat} {node : List Nat × Nat} (h : node ∈ nodePaths f) : node.2 ∈ f.nodes := by
  induction f generalizing node with
  | nil => exact absurd h List.not_mem_nil
  | cons token pos children rest ihc ihr =>
    rw [nodePaths, List.mem_append, List.mem_cons, List.mem_map] at h
    rcases h with (rfl | ⟨node, hnode, rfl⟩) | h
    · exact List.mem_cons_self
    · have hchild := ihc hnode
      exact List.mem_cons_of_mem _ (List.mem_append_left _ hchild)
    · exact List.mem_cons_of_mem _ (List.mem_append_right _ (ihr h))

/-- A visit of the dictionary that a link leads to. -/
def visit (grammar : GrammarObject Γ) (tree : DraftLinks) (depth : Nat) (link : Int) (parentPos : Int) (g : Γ)
    (tokenBitmask : List MaskRow) : Py (Γ × List MaskRow) :=
  if link ≠ -1 then
    dfs grammar tree.retrieveNextToken tree.retrieveNextSibling tree.draftTokens depth link parentPos g tokenBitmask
  else .ok (g, tokenBitmask)

theorem pyIndex_get {α : Type} {xs : List α} {n : Nat} {x : α} (h : xs[n]? = some x) : pyIndex xs (n : Int) = .ok x :=
  (pyIndex_ok_iff xs n x).mpr h

/-- A visit of a rejected node goes on to its siblings. -/
theorem visit_rejected {depth pos parentPos : Nat} {token : Nat} {g : Γ} {tokenBitmask : List MaskRow}
    {row : MaskRow} {sibling : Int} (hpos : pos ≠ 0) (htoken : tree.draftTokens[pos]? = some token)
    (hsibling : tree.retrieveNextSibling[pos]? = some sibling) (hrow : tokenBitmask[parentPos]? = some row)
    (hbit : maskBit row token = .ok false) :
    visit grammar tree (depth + 1) pos parentPos g tokenBitmask =
      visit grammar tree depth sibling parentPos g tokenBitmask := by
  have hne : ¬ (pos : Int) = 0 := by omega
  rw [visit, if_pos (by omega), dfs, if_neg hne, pyIndex_get hrow, pyIndex_get htoken, pyIndex_get hsibling]
  simp only [bind, Except.bind, hbit]
  rfl

/-- A visit of an accepted node: its children, if the grammar has not ended, and its siblings. -/
theorem visit_accepted (depth : Nat) {pos parentPos : Nat} {token : Nat} {g g' : Γ} {tokenBitmask : List MaskRow}
    {row : MaskRow} {child sibling : Int} (hpos : pos ≠ 0) (htoken : tree.draftTokens[pos]? = some token)
    (hchild : tree.retrieveNextToken[pos]? = some child)
    (hsibling : tree.retrieveNextSibling[pos]? = some sibling) (hrow : tokenBitmask[parentPos]? = some row)
    (hbit : maskBit row token = .ok true) (haccept : grammar.acceptToken g token = some g') :
    visit grammar tree (depth + 1) pos parentPos g tokenBitmask =
      if grammar.isTerminated g' then visit grammar tree depth sibling parentPos (grammar.rollback g') tokenBitmask
      else
        (visit grammar tree depth child pos g' (tokenBitmask.set pos (grammar.fillVocabMask g'))).bind fun out =>
          visit grammar tree depth sibling parentPos (grammar.rollback out.1) out.2 := by
  have hne : ¬ (pos : Int) = 0 := by omega
  rw [visit, if_pos (by omega), dfs, if_neg hne, pyIndex_get hrow, pyIndex_get htoken, pyIndex_get hsibling,
    pyIndex_get hchild]
  simp only [bind, Except.bind, hbit, ne_eq, hne, not_false_eq_true, if_true, GrammarObject.accept, haccept]
  by_cases hend : grammar.isTerminated g' = true
  · rw [if_pos hend, if_pos hend]
    rfl
  · rw [if_neg hend, if_neg hend]
    unfold visit
    by_cases hlink : child = -1
    · simp only [hlink, ne_eq, not_true_eq_false, if_false, Int.toNat_natCast]
    · simp only [ne_eq, hlink, not_false_eq_true, if_true, Int.toNat_natCast]

/-- What a visit does: the grammar is back where it was, each node has its row, and no other row changed. -/
structure Visited (grammar : GrammarObject Γ) (words : Nat) (g : Γ) (f : Forest Nat Nat)
    (before : List MaskRow) (out : Py (Γ × List MaskRow)) (after : List MaskRow) : Prop where
  result : out = .ok (g, after)
  length : after.length = before.length
  others : ∀ i, i ∉ f.nodes → after[i]? = before[i]?
  rows : ∀ node ∈ nodePaths f, after[node.2]? = some (rowAfter grammar words g node.1)

theorem rowAfter_zero {g : Γ} {path : List Nat} (h : stateAfter grammar g path = none) :
    rowAfter grammar words g path = List.replicate words 0 := by
  rw [rowAfter, h]

theorem rowAfter_live {g : Γ} (hlive : grammar.isTerminated g = false) :
    rowAfter grammar words g [] = grammar.fillVocabMask g := by
  simp only [rowAfter, stateAfter, hlive, Bool.false_eq_true, if_false]

theorem stateAfter_cons {g g' : Γ} {token : Nat} (hlive : grammar.isTerminated g = false)
    (haccept : grammar.acceptToken g token = some g') (path : List Nat) :
    stateAfter grammar g (token :: path) = stateAfter grammar g' path := by
  rw [stateAfter, hlive, haccept]
  rfl

theorem rowAfter_accepted {g g' : Γ} {token : Nat} (hlive : grammar.isTerminated g = false)
    (haccept : grammar.acceptToken g token = some g') (path : List Nat) :
    rowAfter grammar words g (token :: path) = rowAfter grammar words g' path := by
  rw [rowAfter, rowAfter, stateAfter_cons hlive haccept]

/-- The walk over the children of a node whose row is filled. -/
theorem visit_spec (hlaw : LawfulGrammar grammar V words) (htokens : ∀ token ∈ tree.draftTokens, token < V)
    (f : Forest Nat Nat) (depth : Nat) {link : Int} {parentPos : Nat} {g : Γ} (tokenBitmask : List MaskRow)
    (hlinked : Spells tree f link) (hdepth : f.nodes.length ≤ depth) (hnodup : f.nodes.Nodup)
    (hroot : 0 ∉ f.nodes) (hparent : parentPos ∉ f.nodes)
    (hzero : ∀ pos ∈ f.nodes, tokenBitmask[pos]? = some (List.replicate words 0))
    (hrow : tokenBitmask[parentPos]? = some (grammar.fillVocabMask g)) (hlive : grammar.isTerminated g = false) :
    ∃ after, Visited grammar words g f tokenBitmask
      (visit grammar tree depth link parentPos g tokenBitmask) after := by
  induction f generalizing depth link parentPos g tokenBitmask with
  | nil =>
    refine ⟨tokenBitmask, ?_, rfl, fun _ _ => rfl, fun node hnode => absurd hnode List.not_mem_nil⟩
    rw [visit, if_neg (by simpa [Spells] using hlinked)]
  | cons token pos children rest ihc ihr =>
    obtain ⟨rfl, htoken, child, sibling, hchild, hsibling, hchildren, hrest⟩ := hlinked
    simp only [Forest.nodes, List.nodup_cons, List.nodup_append, List.mem_append, List.mem_cons, not_or,
      List.length_cons, List.length_append] at hdepth hnodup hroot hparent hzero
    obtain ⟨⟨hposc, hposr⟩, hnodupc, hnodupr, hdisjoint⟩ := hnodup
    obtain ⟨depth, rfl⟩ : ∃ d, depth = d + 1 := ⟨depth - 1, by omega⟩
    have hpos : pos ≠ 0 := fun h => hroot.1 h.symm
    have hbit := hlaw.fill_exact g token hlive (htokens token (List.mem_of_getElem? htoken))
    have hstart := hzero pos (Or.inl rfl)
    -- the node and its children come first, whatever the grammar says of the node
    obtain ⟨first, hfirst, hlen, hothers, hself, hbelow⟩ : ∃ first,
        visit grammar tree (depth + 1) pos parentPos g tokenBitmask =
          visit grammar tree depth sibling parentPos g first ∧
        first.length = tokenBitmask.length ∧
        (∀ i, i ≠ pos → i ∉ children.nodes → first[i]? = tokenBitmask[i]?) ∧
        first[pos]? = some (rowAfter grammar words g [token]) ∧
        ∀ node ∈ nodePaths children, first[node.2]? = some (rowAfter grammar words g (token :: node.1)) := by
      cases haccept : grammar.acceptToken g token with
      | none =>
        rw [haccept] at hbit
        have hnone : ∀ path, rowAfter grammar words g (token :: path) = List.replicate words 0 := fun path => by
          rw [rowAfter_zero]
          rw [stateAfter, hlive, haccept]
          rfl
        refine ⟨tokenBitmask, visit_rejected hpos htoken hsibling hrow hbit, rfl, fun _ _ _ => rfl, ?_,
          fun node hnode => ?_⟩
        · rw [hnone, hstart]
        · rw [hnone, hzero node.2 (Or.inr (Or.inl (nodePaths_pos hnode)))]
      | some g' =>
        rw [haccept] at hbit
        have hback := hlaw.rollback_accept g token g' haccept
        have hstep := visit_accepted depth hpos htoken hchild hsibling hrow hbit haccept
        by_cases hend : grammar.isTerminated g' = true
        · have hzeros : ∀ path, rowAfter grammar words g (token :: path) = List.replicate words 0 := fun path => by
            rw [rowAfter, stateAfter_cons hlive haccept]
            cases path with
            | nil => simp only [stateAfter, hend, if_true]
            | cons next path => simp only [stateAfter, hend, if_true]
          rw [if_pos hend, hback] at hstep
          refine ⟨tokenBitmask, hstep, rfl, fun _ _ _ => rfl, ?_, fun node hnode => ?_⟩
          · rw [hzeros, hstart]
          · rw [hzeros, hzero node.2 (Or.inr (Or.inl (nodePaths_pos hnode)))]
        · have hlive' : grammar.isTerminated g' = false := by simpa using hend
          have hlt : pos < tokenBitmask.length := (List.getElem?_eq_some_iff.mp hstart).1
          have hfilled : (tokenBitmask.set pos (grammar.fillVocabMask g'))[pos]? = some (grammar.fillVocabMask g') :=
            List.getElem?_set_self hlt
          obtain ⟨after, hresult, hafter, hkept, hrows⟩ := ihc depth
            (tokenBitmask.set pos (grammar.fillVocabMask g')) hchildren (by omega) hnodupc
            hroot.2.1 hposc (fun i hi => by
              have hne : pos ≠ i := fun heq => hposc (heq ▸ hi)
              rw [List.getElem?_set_ne hne]
              exact hzero i (Or.inr (Or.inl hi))) hfilled hlive'
          rw [if_neg hend, hresult] at hstep
          refine ⟨after, hstep.trans (by rw [Except.bind, hback]), hafter.trans List.length_set, fun i hi hic => ?_,
            ?_, fun node hnode => ?_⟩
          · rw [hkept i hic, List.getElem?_set_ne (Ne.symm hi)]
          · rw [hkept pos hposc, hfilled, rowAfter_accepted hlive haccept, rowAfter_live hlive']
          · rw [hrows node hnode, rowAfter_accepted hlive haccept]
    obtain ⟨after, hresult, hafter, hkept, hrows⟩ := ihr depth first hrest (by omega) hnodupr hroot.2.2 hparent.2.2
      (fun i hi => by
        rw [hothers i (fun heq => hposr (heq ▸ hi)) fun hic => hdisjoint i hic i hi rfl]
        exact hzero i (Or.inr (Or.inr hi)))
      (by rw [hothers parentPos hparent.1 hparent.2.1]; exact hrow) hlive
    refine ⟨after, hfirst.trans hresult, hafter.trans hlen, fun i hi => ?_, fun node hnode => ?_⟩
    · simp only [Forest.nodes, List.mem_cons, List.mem_append, not_or] at hi
      rw [hkept i hi.2.2, hothers i hi.1 hi.2.1]
    · rw [nodePaths, List.mem_append, List.mem_cons, List.mem_map] at hnode
      rcases hnode with (rfl | ⟨node, hnode, rfl⟩) | hnode
      · rw [hkept pos hposr, hself]
      · have hic := nodePaths_pos hnode
        rw [hkept node.2 fun hir => hdisjoint node.2 hic node.2 hir rfl, hbelow node hnode]
      · exact hrows node hnode

/-- The links and tokens spell a tree of `n` positions: the root at position 0, and these nodes below it. -/
structure SpellsTree (tree : DraftLinks) (n : Nat) (children : Forest Nat Nat) : Prop where
  tokens : tree.draftTokens.length = n
  nextToken : tree.retrieveNextToken.length = n
  nextSibling : tree.retrieveNextSibling.length = n
  firstChild : ∃ child, tree.retrieveNextToken[0]? = some child ∧ Spells tree children child
  alone : tree.retrieveNextSibling[0]? = some (-1)
  nodup : (0 :: children.nodes).Nodup

theorem Spells.lt {f : Forest Nat Nat} {link : Int} (h : Spells tree f link) :
    ∀ pos ∈ f.nodes, pos < tree.draftTokens.length := by
  induction f generalizing link with
  | nil => exact fun pos hpos => absurd hpos List.not_mem_nil
  | cons token pos children rest ihc ihr =>
    obtain ⟨-, htoken, child, sibling, -, -, hchildren, hrest⟩ := h
    intro i hi
    rcases List.mem_cons.mp hi with rfl | hi
    · exact (List.getElem?_eq_some_iff.mp htoken).1
    · rcases List.mem_append.mp hi with hi | hi
      · exact ihc hchildren i hi
      · exact ihr hrest i hi

theorem SpellsTree.nodes_lt {n : Nat} {children : Forest Nat Nat} (h : SpellsTree tree n children) :
    ∀ pos ∈ 0 :: children.nodes, pos < n := by
  obtain ⟨child, hchild, hlinked⟩ := h.firstChild
  intro pos hpos
  rcases List.mem_cons.mp hpos with rfl | hpos
  · exact h.nextToken ▸ (List.getElem?_eq_some_iff.mp hchild).1
  · exact h.tokens ▸ hlinked.lt pos hpos

/-- The tree has at most as many nodes as there are draft tokens, which bounds the recursion. -/
theorem SpellsTree.nodes_length {n : Nat} {children : Forest Nat Nat} (h : SpellsTree tree n children) :
    children.nodes.length + 1 ≤ n := by
  have hsubperm : (0 :: children.nodes).Subperm (List.range n) :=
    List.subperm_of_subset h.nodup fun pos hpos => List.mem_range.mpr (h.nodes_lt pos hpos)
  simpa using hsubperm.length_le

theorem nodePaths_below {children : Forest Nat Nat} {node : List Nat × Nat}
    (h : node ∈ ([], 0) :: nodePaths children) : node.2 ∈ 0 :: children.nodes := by
  rcases List.mem_cons.mp h with rfl | h
  · exact List.mem_cons_self
  · exact List.mem_cons_of_mem _ (nodePaths_pos h)

/-- `traverse_tree` on a draft tree. -/
theorem traverseTree_spec (hlaw : LawfulGrammar grammar V words) {n : Nat} {children : Forest Nat Nat}
    (htree : SpellsTree tree n children) (htokens : ∀ token ∈ tree.draftTokens, token < V) (g : Γ)
    {rows : List MaskRow} (hlen : rows.length = n) (hwords : ∀ row ∈ rows, row.length = words) :
    ∃ after, traverseTree grammar tree.retrieveNextToken tree.retrieveNextSibling tree.draftTokens g rows =
        .ok (g, after) ∧ after.length = n ∧
      (∀ i, i < n → i ∉ 0 :: children.nodes → after[i]? = some (List.replicate words 0)) ∧
      ∀ node ∈ ([], 0) :: nodePaths children, after[node.2]? = some (rowAfter grammar words g node.1) := by
  obtain ⟨child, hchild, hlinked⟩ := htree.firstChild
  obtain ⟨hroot, hnodup⟩ := List.nodup_cons.mp htree.nodup
  have hcount := htree.nodes_length
  obtain ⟨depth, rfl⟩ : ∃ d, n = d + 1 := ⟨n - 1, by omega⟩
  have hzeros : ∀ i, i < depth + 1 → (rows.map fun row => row.map fun _ => (0 : BitVec 32))[i]? =
      some (List.replicate words 0) := fun i hi => by
    rw [List.getElem?_map, List.getElem?_eq_getElem (hlen ▸ hi), Option.map_some, List.map_const',
      hwords _ (List.getElem_mem _)]
  have hzlen : (rows.map fun row => row.map fun _ => (0 : BitVec 32)).length = depth + 1 := by
    rw [List.length_map, hlen]
  generalize hzero : (rows.map fun row => row.map fun _ => (0 : BitVec 32)) = zero at hzeros hzlen
  rw [traverseTree, if_pos ⟨by rw [htree.nextToken, htree.nextSibling], by rw [htree.nextSibling, htree.tokens]⟩,
    hzero, htree.tokens, dfs]
  have hnext : pyIndex tree.retrieveNextToken 0 = .ok child := pyIndex_get hchild
  have hsibling : pyIndex tree.retrieveNextSibling 0 = .ok (-1) := pyIndex_get htree.alone
  rw [hnext, hsibling]
  by_cases hend : grammar.isTerminated g = true
  · refine ⟨zero, ?_, hzlen, fun i hi _ => hzeros i hi, fun node hnode => ?_⟩
    · simp [hend, bind, Except.bind]
    · have hlt : node.2 < depth + 1 := htree.nodes_lt node.2 (nodePaths_below hnode)
      rw [hzeros node.2 hlt]
      rcases node with ⟨_ | ⟨token, path⟩, pos⟩
      · simp only [rowAfter, stateAfter, hend, if_true]
      · simp only [rowAfter, stateAfter, hend, if_true]
  · have hlive : grammar.isTerminated g = false := by simpa using hend
    have hfilled : (zero.set 0 (grammar.fillVocabMask g))[0]? = some (grammar.fillVocabMask g) :=
      List.getElem?_set_self (by omega)
    obtain ⟨after, hresult, hafter, hkept, hrows⟩ := visit_spec hlaw htokens children depth
      (zero.set 0 (grammar.fillVocabMask g)) hlinked (by omega) hnodup hroot hroot
      (fun i hi => by
        have hne : 0 ≠ i := fun heq => hroot (heq ▸ hi)
        rw [List.getElem?_set_ne hne]
        exact hzeros i (htree.nodes_lt i (List.mem_cons_of_mem _ hi))) hfilled hlive
    refine ⟨after, ?_, hafter.trans (List.length_set.trans hzlen), fun i hi hnot => ?_, fun node hnode => ?_⟩
    · rw [visit] at hresult
      simp only [ne_eq, not_true_eq_false, if_false, if_true, hlive, Bool.false_eq_true, bind, Except.bind,
        Int.toNat_zero]
      by_cases hlink : child = -1
      · rw [if_neg (not_not_intro hlink)] at hresult ⊢
        exact hresult
      · rw [if_pos hlink, Nat.cast_zero] at hresult
        rw [if_pos hlink, hresult]
    · obtain ⟨hne, hnot⟩ := not_or.mp (fun h => hnot (List.mem_cons.mpr h))
      rw [hkept i hnot, List.getElem?_set_ne (Ne.symm hne), hzeros i hi]
    · rcases List.mem_cons.mp hnode with rfl | hnode
      · rw [hkept 0 hroot, hfilled, rowAfter_live hlive]
      · exact hrows node hnode

/-! ## The batch -/

/-- The draft trees of a batch, with tokens of the vocabulary. -/
structure SpellsTrees (V n : Nat) (links : List DraftLinks) (trees : List (Forest Nat Nat)) : Prop where
  length : links.length = trees.length
  trees : ∀ (i : Nat) tree children, links[i]? = some tree → trees[i]? = some children → SpellsTree tree n children
  tokens : ∀ tree ∈ links, ∀ token ∈ tree.draftTokens, token < V

/-- Every node of a request that has a grammar has its row in the mask. -/
def MaskOf (grammar : GrammarObject Γ) (words n : Nat) (trees : List (Forest Nat Nat)) (reqs : List (Option Γ))
    (mask : Option (List MaskRow)) : Prop :=
  ∀ (i : Nat) g children, reqs[i]? = some (some g) → trees[i]? = some children →
    ∃ m ∈ mask, ∀ node ∈ ([], 0) :: nodePaths children,
      m[i * n + node.2]? = some (rowAfter grammar words g node.1)

theorem getElem?_overwrite_lt {α : Type} {xs ys : List α} {off i : Nat} (hoff : off ≤ xs.length) (h : i < off) :
    (overwrite xs off ys)[i]? = xs[i]? := by
  rw [overwrite, List.append_assoc, List.getElem?_append_left (by rw [List.length_take]; omega),
    List.getElem?_take_of_lt h]

theorem getElem?_overwrite_block {α : Type} {xs ys : List α} {off i : Nat} (hoff : off ≤ xs.length)
    (h : i < ys.length) : (overwrite xs off ys)[off + i]? = ys[i]? := by
  have hlen : (xs.take off).length = off := by
    rw [List.length_take]
    omega
  rw [overwrite, List.append_assoc, List.getElem?_append_right (by omega), hlen, Nat.add_sub_cancel_left,
    List.getElem?_append_left h]

theorem drop_overwrite {α : Type} {xs ys : List α} {off : Nat} (h : off + ys.length ≤ xs.length) :
    (overwrite xs off ys).drop (off + ys.length) = xs.drop (off + ys.length) := by
  have hlen : (xs.take off ++ ys).length = off + ys.length := by
    rw [List.length_append, List.length_take]
    omega
  rw [overwrite, ← hlen, List.drop_left]

/-- The rows that are still to be written are as they were allocated. -/
def Allocated (words total from_ : Nat) (mask : Option (List MaskRow)) : Prop :=
  ∀ m ∈ mask, m.length = total ∧ ∀ row ∈ m.drop from_, row.length = words

/-- A turn of the loop fills the rows of its request. -/
theorem generateRow_spec (hlaw : LawfulGrammar grammar V words) {n : Nat} {links : List DraftLinks}
    {trees : List (Forest Nat Nat)} (htrees : SpellsTrees V n links trees) {done : List (Option Γ)}
    {mask : Option (List MaskRow)} (hlt : done.length < links.length) (hmask : MaskOf grammar words n trees done mask)
    (hshape : Allocated words (links.length * n) (done.length * n) mask) (req : Option Γ) :
    ∃ mask', generateRow grammar n (links.length * n) V links (done, mask) (req, done.length) =
        .ok (done ++ [req], mask') ∧ MaskOf grammar words n trees (done ++ [req]) mask' ∧
      Allocated words (links.length * n) ((done.length + 1) * n) mask' := by
  have hstep : done.length * n + n = (done.length + 1) * n := (Nat.succ_mul _ _).symm
  cases req with
  | none =>
    refine ⟨mask, rfl, fun i g children hreq hchildren => ?_, fun m hm => ⟨(hshape m hm).1, fun row hrow => ?_⟩⟩
    · rcases Nat.lt_or_ge i done.length with hi | hi
      · rw [List.getElem?_append_left hi] at hreq
        exact hmask i g children hreq hchildren
      · rw [List.getElem?_append_right hi] at hreq
        exact absurd (List.mem_of_getElem? hreq) (by simp)
    · rw [← hstep, ← List.drop_drop] at hrow
      exact (hshape m hm).2 row (List.mem_of_mem_drop hrow)
  | some g =>
    obtain ⟨tree, htree⟩ : ∃ tree, links[done.length]? = some tree := ⟨_, List.getElem?_eq_getElem hlt⟩
    obtain ⟨children, hchildren⟩ : ∃ children, trees[done.length]? = some children :=
      ⟨_, List.getElem?_eq_getElem (htrees.length ▸ hlt)⟩
    -- the mask, allocated at the first grammar
    obtain ⟨m, hm, hmlen, hmwords, hmrows⟩ : ∃ m, mask.getD (grammar.allocateVocabMask V (links.length * n)) = m ∧
        m.length = links.length * n ∧ (∀ row ∈ m.drop (done.length * n), row.length = words) ∧
        ∀ m' ∈ mask, m = m' := by
      cases mask with
      | none =>
        exact ⟨_, rfl, hlaw.allocate_length _, fun row hrow =>
          hlaw.allocate_words _ row (List.mem_of_mem_drop hrow), fun m' hm' => by cases hm'⟩
      | some m => exact ⟨m, rfl, (hshape m rfl).1, (hshape m rfl).2, fun m' hm' => Option.some.inj hm'⟩
    have hfits : done.length * n + n ≤ m.length := by
      rw [hmlen, hstep]
      exact Nat.mul_le_mul_right n hlt
    obtain ⟨after, hresult, hafter, -, hrows⟩ := traverseTree_spec hlaw (htrees.trees _ _ _ htree hchildren)
      (htrees.tokens tree (List.mem_of_getElem? htree)) g (length_slice hfits)
      (fun row hrow => hmwords row (List.mem_of_mem_take hrow))
    have hrun : generateRow grammar n (links.length * n) V links (done, mask) (some g, done.length) =
        .ok (done ++ [some g], some (overwrite m (done.length * n) after)) := by
      simp only [generateRow, hm, pyIndex_get htree, bind, Except.bind, hresult]
      rfl
    refine ⟨_, hrun, fun i g' children' hreq hchildren' => ⟨_, rfl, fun node hnode => ?_⟩, fun m' hm' => ?_⟩
    · rcases Nat.lt_or_ge i done.length with hi | hi
      · rw [List.getElem?_append_left hi] at hreq
        obtain ⟨m', hm', hrow⟩ := hmask i g' children' hreq hchildren'
        have htree' : ∃ tree', links[i]? = some tree' := ⟨_, List.getElem?_eq_getElem (by omega)⟩
        obtain ⟨tree', htree'⟩ := htree'
        have hpos := (htrees.trees i tree' children' htree' hchildren').nodes_lt node.2 (nodePaths_below hnode)
        have hbefore : i * n + node.2 < done.length * n := by
          have hblock : (i + 1) * n ≤ done.length * n := Nat.mul_le_mul_right n hi
          rw [Nat.succ_mul] at hblock
          omega
        rw [getElem?_overwrite_lt (by omega) hbefore, hmrows m' hm']
        exact hrow node hnode
      · have hself : i = done.length := by
          have := (List.getElem?_eq_some_iff.mp hreq).1
          rw [List.length_append, List.length_singleton] at this
          omega
        subst hself
        rw [List.getElem?_append_right (Nat.le_refl _), Nat.sub_self] at hreq
        obtain rfl : g = g' := Option.some.inj (Option.some.inj hreq)
        obtain rfl : children = children' := Option.some.inj (hchildren.symm.trans hchildren')
        have hpos := (htrees.trees _ _ _ htree hchildren).nodes_lt node.2 (nodePaths_below hnode)
        rw [getElem?_overwrite_block (by omega) (hafter ▸ hpos)]
        exact hrows node hnode
    · obtain rfl := Option.some.inj hm'
      have hfits' : done.length * n + after.length ≤ m.length := hafter.symm ▸ hfits
      have hdrop := drop_overwrite hfits'
      rw [hafter, hstep] at hdrop
      refine ⟨(length_overwrite hfits').trans hmlen, fun row hrow => ?_⟩
      rw [hdrop, ← hstep, ← List.drop_drop] at hrow
      exact hmwords row (List.mem_of_mem_drop hrow)

/-- `generate_token_bitmask` on a batch: no grammar has moved, and the rows are in place. -/
theorem generateTokenBitmask_spec (hlaw : LawfulGrammar grammar V words) {n : Nat} {links : List DraftLinks}
    {trees : List (Forest Nat Nat)} (htrees : SpellsTrees V n links trees) {reqs : List (Option Γ)}
    (hlen : reqs.length = links.length) :
    ∃ mask, generateTokenBitmask grammar n reqs links V = .ok (reqs, mask) ∧
      MaskOf grammar words n trees reqs mask := by
  have hloop : ∀ (rest done : List (Option Γ)) mask, done.length + rest.length = links.length →
      MaskOf grammar words n trees done mask →
      Allocated words (links.length * n) (done.length * n) mask →
      ∃ mask', (rest.zipIdx done.length).foldlM (generateRow grammar n (links.length * n) V links) (done, mask) =
        .ok (done ++ rest, mask') ∧ MaskOf grammar words n trees (done ++ rest) mask' := by
    intro rest
    induction rest with
    | nil =>
      intro done mask _ hmask _
      rw [List.append_nil]
      exact ⟨mask, rfl, hmask⟩
    | cons req rest ih =>
      intro done mask hcount hmask hshape
      rw [List.length_cons] at hcount
      obtain ⟨mask', hstep, hmask', hshape'⟩ := generateRow_spec hlaw htrees (by omega) hmask hshape req
      have hlength : (done ++ [req]).length = done.length + 1 := by rw [List.length_append, List.length_singleton]
      obtain ⟨out, hrun, hout⟩ := ih (done ++ [req]) mask' (by omega) hmask' (hlength.symm ▸ hshape')
      rw [List.append_assoc, List.singleton_append] at hrun hout
      rw [hlength] at hrun
      refine ⟨out, ?_, hout⟩
      rw [List.zipIdx_cons, List.foldlM_cons, hstep]
      exact hrun
  obtain ⟨mask, hrun, hmask⟩ := hloop reqs [] none (by simpa using hlen)
    (fun i g children hreq => by simp at hreq) (fun m hm => by cases hm)
  refine ⟨mask, ?_, hmask⟩
  rw [generateTokenBitmask, if_pos hlen]
  exact hrun

/-! ## The acceptance loop -/

section Accept

variable {R L : Type} [LinearOrder L]

/-- The entries of a dictionary of children: a token, its position and the children there. -/
def childEntries : Forest Nat Nat → List (Nat × Nat × Forest Nat Nat)
  | .nil => []
  | .cons token pos children rest => (token, pos, children) :: childEntries rest

theorem childEntries_paths {f : Forest Nat Nat} {entry : Nat × Nat × Forest Nat Nat} (h : entry ∈ childEntries f)
    {node : List Nat × Nat} (hnode : node ∈ ([], entry.2.1) :: nodePaths entry.2.2) :
    (entry.1 :: node.1, node.2) ∈ nodePaths f := by
  induction f with
  | nil => exact absurd h List.not_mem_nil
  | cons token pos children rest _ ihr =>
    rw [nodePaths, List.mem_append, List.mem_cons, List.mem_map]
    rcases List.mem_cons.mp h with rfl | h
    · rcases List.mem_cons.mp hnode with rfl | hnode
      · exact .inl (.inl rfl)
      · exact .inl (.inr ⟨node, hnode, rfl⟩)
    · exact .inr (ihr h)

/-- From a node the verifier goes to the child whose token it chose there. -/
inductive Followed (choose : Nat → Nat) : Nat → Forest Nat Nat → List Nat → Prop where
  | stop (pos : Nat) (children : Forest Nat Nat) : Followed choose pos children [pos]
  | child {pos next : Nat} {children below : Forest Nat Nat} {path : List Nat}
      (hmem : (choose pos, next, below) ∈ childEntries children) (hpath : Followed choose next below path) :
      Followed choose pos children (pos :: path)

/-- A logit after the mask is applied. -/
def maskedLogit (row : MaskRow) (logits : Nat → L) (token : Nat) : WithBot L :=
  if maskBit row token = .ok true then (logits token : WithBot L) else ⊥

/-- The token is a masked argmax over the vocabulary. -/
def MaskedArgmax (V : Nat) (row : MaskRow) (logits : Nat → L) (token : Nat) : Prop :=
  token < V ∧ ∀ other < V, maskedLogit row logits other ≤ maskedLogit row logits token

theorem MaskedArgmax.bit {row : MaskRow} {logits : Nat → L} {token : Nat} (h : MaskedArgmax V row logits token)
    {other : Nat} (hlt : other < V) (hother : maskBit row other = .ok true) : maskBit row token = .ok true := by
  have hle := h.2 other hlt
  by_contra hno
  rw [maskedLogit, maskedLogit, if_pos hother, if_neg hno] at hle
  exact WithBot.coe_ne_bot (le_bot_iff.mp hle)

theorem pyIndex_ne_valueError {α : Type} (xs : List α) (i : Int) (message : String) :
    pyIndex xs i ≠ .error (.valueError message) := by
  unfold pyIndex
  generalize (if i < 0 then i + xs.length else i) = j
  dsimp only
  split
  · simp
  · split <;> simp

theorem bind_ne_valueError {α β : Type} {x : Py α} {f : α → Py β} {message : String}
    (hx : x ≠ .error (.valueError message)) (hf : ∀ a, x = .ok a → f a ≠ .error (.valueError message)) :
    x.bind f ≠ .error (.valueError message) := by
  cases x with
  | error e =>
    intro h
    exact hx (congrArg Except.error (Except.error.inj h))
  | ok a => exact hf a rfl

theorem checkFinished_ne_valueError (search : R → Text → Bool) (req : StopReq R) (n : Nat) (message : String) :
    req.checkFinished search n ≠ .error (.valueError message) := by
  unfold StopReq.checkFinished
  split_ifs
  · simp
  · simp
  · simp
  · exact bind_ne_valueError (pyIndex_ne_valueError _ _ _) fun a _ h => by cases h
  · dsimp only
    split
    · simp
    · split
      · simp
      · refine bind_ne_valueError ?_ fun a _ h => by cases h
        unfold StopReq.checkStrBasedFinish
        split_ifs
        · simp
        · refine bind_ne_valueError ?_ fun a _ => by split <;> exact fun h => by cases h
          unfold StopReq.tailStr
          split <;> simp

/-- A request whose grammar has ended is finished by the check. -/
theorem finished_of_terminated (search : R → Text → Bool) {req req' : StopReq R} {n : Nat}
    (hgrammar : req.grammar = some true) (h : req.checkFinished search n = .ok req') : req'.finished = true := by
  unfold StopReq.checkFinished at h
  split_ifs at h with hfinished
  · rw [← Except.ok.inj h]
    exact hfinished
  · rw [← Except.ok.inj h]
    rfl
  · rw [← Except.ok.inj h]
    rfl
  · cases hmatched : pyIndex req.outputIds (-1) with
    | error e =>
      rw [hmatched] at h
      cases h
    | ok matched =>
      rw [hmatched] at h
      rw [← Except.ok.inj h]
      rfl

variable {search : R → Text → Bool} {predict : List Nat}

/-- Without a grammar nothing is fed. -/
theorem acceptRow_none (row : List Int) (req : StopReq R) (message : String) :
    acceptRow grammar search predict row (req, none) ≠ .error (.valueError message) := by
  induction row generalizing req with
  | nil => simp [acceptRow]
  | cons idx row ih =>
    rw [acceptRow]
    split_ifs
    · simp
    · refine bind_ne_valueError (pyIndex_ne_valueError _ _ _) fun id _ =>
        bind_ne_valueError (checkFinished_ne_valueError _ _ _ _) fun req' _ => ?_
      split_ifs
      · simp
      · exact ih req'

/-- What the verifier did for a request whose rows of the mask start at `off`. -/
structure Verified (V off : Nat) (m : List MaskRow) (logits : Nat → Nat → L) (predict : List Nat)
    (children : Forest Nat Nat) (acceptIndex : List Int) : Prop where
  accepted : ∃ choose path count, Followed choose 0 children path ∧
    acceptIndex = path.map (fun pos => ((off + pos : Nat) : Int)) ++ List.replicate count (-1) ∧
    ∀ pos ∈ path, predict[off + pos]? = some (choose pos) ∧
      ∀ row, m[off + pos]? = some row → MaskedArgmax V row (logits (off + pos)) (choose pos)

/-- Along the accepted path the grammar is fed what its mask allows. -/
theorem acceptRow_sound (hlaw : LawfulGrammar grammar V words) {off : Nat} {m : List MaskRow}
    {logits : Nat → Nat → L} {choose : Nat → Nat} {pos : Nat} {children : Forest Nat Nat} {path : List Nat}
    (hpath : Followed choose pos children path) (count : Nat) (req : StopReq R) (g : Γ)
    (hrows : ∀ node ∈ ([], pos) :: nodePaths children, m[off + node.2]? = some (rowAfter grammar words g node.1))
    (hchoose : ∀ p ∈ path, predict[off + p]? = some (choose p) ∧
      ∀ row, m[off + p]? = some row → MaskedArgmax V row (logits (off + p)) (choose p)) (message : String) :
    acceptRow grammar search predict (path.map (fun pos => ((off + pos : Nat) : Int)) ++ List.replicate count (-1))
      (req, some g) ≠ .error (.valueError message) := by
  have hpad : ∀ req : StopReq R × Option Γ,
      acceptRow grammar search predict (List.replicate count (-1)) req ≠ .error (.valueError message) := by
    intro req
    cases count with
    | zero => simp [acceptRow]
    | succ count =>
      rw [List.replicate_succ, acceptRow, if_pos rfl]
      simp
  -- a turn: the check ends the request where the grammar has ended, else the token is in the filled row
  have hturn : ∀ (p : Nat) (row : List Int) (req : StopReq R) (g : Γ),
      m[off + p]? = some (rowAfter grammar words g []) → predict[off + p]? = some (choose p) →
      (∀ r, m[off + p]? = some r → MaskedArgmax V r (logits (off + p)) (choose p)) →
      (∀ (req' : StopReq R) g', grammar.isTerminated g = false → grammar.acceptToken g (choose p) = some g' →
        acceptRow grammar search predict row (req', some g') ≠ .error (.valueError message)) →
      acceptRow grammar search predict (((off + p : Nat) : Int) :: row) (req, some g) ≠
        .error (.valueError message) := by
    intro p row req g hrow hpredict hargmax hrest
    rw [acceptRow, if_neg (by omega), pyIndex_get hpredict]
    refine bind_ne_valueError (fun h => by cases h) fun id hid => ?_
    obtain rfl : choose p = id := Except.ok.inj hid
    refine bind_ne_valueError (checkFinished_ne_valueError _ _ _ _) fun req' hcheck => ?_
    by_cases hfinished : req'.finished = true
    · rw [if_pos hfinished]
      simp
    · rw [if_neg hfinished]
      have hlive : grammar.isTerminated g = false := by
        by_contra hend
        have hend : grammar.isTerminated g = true := by simpa using hend
        exact hfinished (finished_of_terminated search (by simp [hend]) hcheck)
      rw [rowAfter_live hlive] at hrow
      obtain ⟨other, hlt, haccept⟩ := hlaw.live g hlive
      have hargmax := hargmax _ hrow
      have hbit := hargmax.bit hlt ((hlaw.fill_exact g other hlive hlt).trans (congrArg _ haccept))
      have hsome := (hlaw.fill_exact g (choose p) hlive hargmax.1).symm.trans hbit
      obtain ⟨g', hg'⟩ := Option.isSome_iff_exists.mp (Except.ok.inj hsome)
      simp only [GrammarObject.accept, hg']
      exact hrest req' g' hlive hg'
  induction hpath generalizing req g with
  | stop pos children =>
    obtain ⟨hpredict, hargmax⟩ := hchoose pos List.mem_cons_self
    exact hturn pos _ req g (hrows _ List.mem_cons_self) hpredict hargmax fun req' g' _ _ => hpad _
  | @child pos next children below path hmem hpath ih =>
    obtain ⟨hpredict, hargmax⟩ := hchoose pos List.mem_cons_self
    refine hturn pos _ req g (hrows _ List.mem_cons_self) hpredict hargmax fun req' g' hlive haccept => ?_
    refine ih req' g' (fun node hnode => ?_) fun p hp => hchoose p (List.mem_cons_of_mem _ hp)
    rw [hrows _ (List.mem_cons_of_mem _ (childEntries_paths hmem hnode)), rowAfter_accepted hlive haccept]

theorem mapM_error {α β : Type} {f : α → Py β} {xs : List α} {e : PyError} (h : xs.mapM f = .error e) :
    ∃ x ∈ xs, f x = .error e := by
  induction xs with
  | nil => cases h
  | cons x xs ih =>
    rw [List.mapM_cons] at h
    cases hx : f x with
    | error e' =>
      rw [hx] at h
      obtain rfl : e' = e := Except.error.inj h
      exact ⟨x, List.mem_cons_self, hx⟩
    | ok y =>
      rw [hx] at h
      cases hxs : xs.mapM f with
      | error e' =>
        simp only [hxs] at h
        obtain rfl : e' = e := Except.error.inj h
        obtain ⟨x', hx', he⟩ := ih hxs
        exact ⟨x', List.mem_cons_of_mem _ hx', he⟩
      | ok ys =>
        simp only [hxs] at h
        cases h

/-- A grammar of the one text `0 1`; its state is what it has accepted. -/
def twoTokenGrammar : GrammarObject (List Nat) where
  acceptToken g token := if g.length < 2 ∧ token = g.length then some (token :: g) else none
  rollback := List.tail
  isTerminated g := 2 ≤ g.length
  allocateVocabMask _ batchSize := List.replicate batchSize [-1]
  fillVocabMask g := [if g.length = 0 then 1 else 2]

theorem twoTokenGrammar_lawful : LawfulGrammar twoTokenGrammar 2 1 where
  rollback_accept g token g' h := by
    simp only [twoTokenGrammar] at h
    split_ifs at h
    rw [← Option.some.inj h]
    rfl
  fill_length g := rfl
  fill_exact g token hlive htoken := by
    have hlt : g.length < 2 := by simpa [twoTokenGrammar] using hlive
    simp only [twoTokenGrammar, hlt, true_and]
    generalize g.length = n at hlt
    interval_cases n <;> interval_cases token <;> rfl
  allocate_length batchSize := List.length_replicate
  allocate_words batchSize row hrow := by rw [List.eq_of_mem_replicate hrow]; rfl
  vocab_le := by decide
  live g hlive := by
    have hlt : g.length < 2 := by simpa [twoTokenGrammar] using hlive
    refine ⟨g.length, hlt, ?_⟩
    simp only [twoTokenGrammar, hlt, and_self, if_true, Option.isSome_some]

/-- A root, the tokens 0 and 1 below it, and the token 1 below the first of them. -/
def fourNodeLinks : DraftLinks := ⟨[1, 3, -1, -1], [-1, 2, -1, -1], [0, 0, 1, 1]⟩

def fourNodeTree : Forest Nat Nat := .cons 0 1 (.cons 1 3 .nil .nil) (.cons 1 2 .nil .nil)

theorem fourNodeTree_spelled : SpellsTrees 2 4 [fourNodeLinks] [fourNodeTree] where
  length := rfl
  trees i tree children htree hchildren := by
    obtain ⟨hlt, rfl⟩ := List.getElem?_eq_some_iff.mp htree
    obtain ⟨hlt', rfl⟩ := List.getElem?_eq_some_iff.mp hchildren
    obtain rfl : i = 0 := by simpa using hlt
    have hnodup : (0 :: fourNodeTree.nodes).Nodup := by decide
    refine ⟨rfl, rfl, rfl, ⟨1, rfl, ?_⟩, rfl, hnodup⟩
    exact ⟨rfl, rfl, 3, 2, rfl, rfl, ⟨rfl, rfl, -1, -1, rfl, rfl, rfl, rfl⟩, rfl, rfl, -1, -1, rfl, rfl, rfl, rfl⟩
  tokens := by decide

end Accept

end Walk

end QCFuse.Guarantees
