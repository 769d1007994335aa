import QCFuse.Library.Orders
import QCFuse.Source.NgramCache
import QCFuse.Source.Python

/-!
# The n-gram trie stays whole

Places are free, the root, or listed once in `global_lru_`, parents first; a node stands once in
each container of its parent. A window that needs every place of the pool is the exception:
the root cannot be evicted for it.
-/

set_option autoImplicit false

namespace QCFuse.Guarantees

open QCFuse.Library QCFuse.Source

/-- A step of the trie: a sequence from the queue, or a reset. -/
inductive NgramOp where
  | insert (data : List Int)
  | reset
  deriving DecidableEq, Repr

namespace NgramOp

def run (s : Ngram) : NgramOp → Except NgramError Ngram
  | insert data => s.insert data
  | reset => s.reset

/-- The last window that was inserted. -/
def lastWindow (param : NgramParam) (last : Option (List Int)) : NgramOp → Option (List Int)
  | insert data => (Ngram.windows param data).getLast?.or last
  | reset => none

end NgramOp

/-- `a` is above `b` in the trie. -/
def Above (s : Ngram) : Nat → Nat → Prop :=
  Relation.TransGen fun a b => b ∈ s.globalLru ∧ (s.nodes b).parent = a

/-- A node stands once in each container. -/
structure PlacedOnce (s : Ngram) (node : Nat) : Prop where
  globalLru : s.globalLru.count node = 1
  parent : (s.nodes node).parent ∈ s.root :: s.globalLru
  child : (s.nodes (s.nodes node).parent).child.count ((s.nodes node).token, node) = 1
  lru : (s.nodes (s.nodes node).parent).lru.count node = 1
  sortedChildren : (s.nodes (s.nodes node).parent).sortedChildren.count node = 1

/-- What a node's containers hold are its children, and tokens tell them apart. -/
structure HoldsChildren (s : Ngram) (node : Nat) : Prop where
  keys : ((s.nodes node).child.map Prod.fst).Nodup
  child : ∀ entry ∈ (s.nodes node).child, entry.2 ∈ s.globalLru ∧ (s.nodes entry.2).parent = node ∧
    (s.nodes entry.2).token = entry.1
  lru : ∀ c ∈ (s.nodes node).lru, c ∈ s.globalLru ∧ (s.nodes c).parent = node
  sortedChildren : ∀ c ∈ (s.nodes node).sortedChildren, c ∈ s.globalLru ∧ (s.nodes c).parent = node
  sorted : (s.nodes node).sortedChildren.Pairwise (compareByFreq s.nodes)

structure TrieIntegrity (s : Ngram) : Prop where
  partition : (s.nodePool.take s.freeNodeCount ++ s.root :: s.globalLru).Perm (List.range s.capacity)
  placed : ∀ node ∈ s.globalLru, PlacedOnce s node
  holds : ∀ node ∈ s.root :: s.globalLru, HoldsChildren s node
  ancestors : ∀ a ∈ s.globalLru, ∀ b ∈ s.globalLru, Above s a b →
    s.globalLru.idxOf a < s.globalLru.idxOf b

/-! ## Children in order of frequency -/

section CompareByFreq

variable {nodes nodes' : Nat → TrieNode}

theorem compareByFreq_trans (a b c : Nat) (hab : compareByFreq nodes a b) (hbc : compareByFreq nodes b c) :
    compareByFreq nodes a c := by
  unfold compareByFreq at *
  omega

theorem compareByFreq_total (a b : Nat) : compareByFreq nodes a b ∨ a = b ∨ compareByFreq nodes b a := by
  unfold compareByFreq
  omega

theorem compareByFreq_irrefl (a : Nat) : ¬compareByFreq nodes a a := by
  unfold compareByFreq
  omega

theorem compareByFreq_congr {a b : Nat} (ha : (nodes' a).freq = (nodes a).freq ∧ (nodes' a).token = (nodes a).token)
    (hb : (nodes' b).freq = (nodes b).freq ∧ (nodes' b).token = (nodes b).token) :
    compareByFreq nodes' a b ↔ compareByFreq nodes a b := by
  rw [compareByFreq, compareByFreq, ha.1, ha.2, hb.1, hb.2]

/-- Erasing from the set takes the node out and nothing else. -/
theorem sortedErase_eq {xs : List Nat} (h : xs.Nodup) (node : Nat) :
    sortedErase nodes node xs = xs.erase node := by
  rw [sortedErase, h.erase_eq_filter]
  refine List.filter_congr fun x _ => ?_
  rw [Bool.eq_iff_iff, decide_eq_true_eq, bne_iff_ne]
  constructor
  · rintro (hlt | hlt) rfl <;> exact compareByFreq_irrefl x hlt
  · intro hne
    have htotal : compareByFreq nodes x node ∨ x = node ∨ compareByFreq nodes node x := compareByFreq_total x node
    rcases htotal with hlt | heq | hlt
    · exact Or.inl hlt
    · exact absurd heq hne
    · exact Or.inr hlt

theorem sortedInsert_congr (h : ∀ q, (nodes' q).freq = (nodes q).freq ∧ (nodes' q).token = (nodes q).token)
    (node : Nat) (xs : List Nat) : sortedInsert nodes' node xs = sortedInsert nodes node xs := by
  induction xs with
  | nil => rfl
  | cons x xs ih =>
    rw [sortedInsert, List.orderedInsert_cons, ← sortedInsert, ih, sortedInsert, sortedInsert,
      List.orderedInsert_cons]
    exact if_congr (compareByFreq_congr (h node) (h x)) rfl rfl

theorem sortedInsert_perm (node : Nat) (xs : List Nat) : (sortedInsert nodes node xs).Perm (node :: xs) :=
  List.perm_orderedInsert _ node xs

theorem sortedInsert_pairwise {node : Nat} {xs : List Nat} (hnew : node ∉ xs)
    (h : xs.Pairwise (compareByFreq nodes)) : (sortedInsert nodes node xs).Pairwise (compareByFreq nodes) :=
  pairwise_orderedInsert_of_notMem compareByFreq_trans compareByFreq_total hnew h

end CompareByFreq

theorem TrieNode.mem_of_find {node : TrieNode} {token : Int} {c : Nat} (h : node.find token = some c) :
    (token, c) ∈ node.child := by
  obtain ⟨e, he, rfl⟩ := Option.map_eq_some_iff.mp h
  have hkey := List.find?_some he
  obtain rfl := of_decide_eq_true hkey
  exact List.mem_of_find?_eq_some he

/-! ## The invariant -/

/-- A node's containers hold the same children, in their orders. -/
structure NodeOk (nodes : Nat → TrieNode) (lru : List Nat) (p : Nat) : Prop where
  keys : ((nodes p).child.map Prod.fst).Nodup
  child_mem : ∀ e ∈ (nodes p).child, e.2 ∈ lru ∧ (nodes e.2).parent = p ∧ (nodes e.2).token = e.1
  lru_perm : (nodes p).lru.Perm ((nodes p).child.map Prod.snd)
  sorted_perm : (nodes p).sortedChildren.Perm ((nodes p).child.map Prod.snd)
  sorted : (nodes p).sortedChildren.Pairwise (compareByFreq nodes)

structure Linked (s : Ngram) : Prop where
  partition : (s.nodePool.take s.freeNodeCount ++ s.root :: s.globalLru).Perm (List.range s.capacity)
  pool : s.nodePool.length = s.capacity
  order : ParentsFirst (fun n => (s.nodes n).parent) s.root s.globalLru
  node_ok : ∀ p ∈ s.root :: s.globalLru, NodeOk s.nodes s.globalLru p
  mem_child : ∀ n ∈ s.globalLru, ((s.nodes n).token, n) ∈ (s.nodes (s.nodes n).parent).child

/-- Labels of a node that its parent's containers depend on. -/
def SameLabel (nodes nodes' : Nat → TrieNode) (n : Nat) : Prop :=
  (nodes' n).token = (nodes n).token ∧ (nodes' n).parent = (nodes n).parent ∧
    (nodes' n).freq = (nodes n).freq

namespace NodeOk

variable {nodes nodes' : Nat → TrieNode} {lru lru' : List Nat} {p : Nat}

theorem snd_nodup (h : NodeOk nodes lru p) : ((nodes p).child.map Prod.snd).Nodup := by
  refine List.Nodup.of_map (fun c => (nodes c).token) ?_
  rw [List.map_map]
  convert h.keys using 1
  exact List.map_congr_left fun e he => (h.child_mem e he).2.2

theorem mem_of_lru (h : NodeOk nodes lru p) {c : Nat} (hc : c ∈ (nodes p).child.map Prod.snd) :
    c ∈ lru ∧ (nodes c).parent = p ∧ ((nodes c).token, c) ∈ (nodes p).child := by
  obtain ⟨e, he, rfl⟩ := List.mem_map.mp hc
  obtain ⟨hmem, hparent, htoken⟩ := h.child_mem e he
  refine ⟨hmem, hparent, ?_⟩
  rw [htoken]
  exact he

/-- What happens away from a node and its children does not matter to it. -/
theorem congr (h : NodeOk nodes lru p) (hchild : (nodes' p).child = (nodes p).child)
    (hlru : (nodes' p).lru = (nodes p).lru) (hsorted : (nodes' p).sortedChildren = (nodes p).sortedChildren)
    (hlabel : ∀ c ∈ (nodes p).child.map Prod.snd, c ∈ lru' ∧ SameLabel nodes nodes' c) :
    NodeOk nodes' lru' p := by
  refine ⟨hchild ▸ h.keys, fun e he => ?_, ?_, ?_, ?_⟩
  · rw [hchild] at he
    obtain ⟨hmem, htoken, hparent, -⟩ := hlabel e.2 (List.mem_map_of_mem he)
    rw [hparent, htoken]
    exact ⟨hmem, (h.child_mem e he).2⟩
  · rw [hlru, hchild]
    exact h.lru_perm
  · rw [hsorted, hchild]
    exact h.sorted_perm
  · rw [hsorted]
    refine h.sorted.imp_of_mem fun {a b} ha hb hab => ?_
    obtain ⟨-, hta, -, hfa⟩ := hlabel a (h.sorted_perm.subset ha)
    obtain ⟨-, htb, -, hfb⟩ := hlabel b (h.sorted_perm.subset hb)
    exact (compareByFreq_congr ⟨hfa, hta⟩ ⟨hfb, htb⟩).mpr hab

/-- A child without its entry, and the entries that stay. -/
theorem child_split (h : NodeOk nodes lru p) {c : Nat} (hc : ((nodes c).token, c) ∈ (nodes p).child) :
    (nodes p).child.Perm (((nodes c).token, c) ::
      (nodes p).child.filter fun e => e.1 ≠ (nodes c).token) := by
  have hfilter : ((nodes p).child.filter fun e => decide (e.1 ≠ (nodes c).token)) =
      (nodes p).child.erase ((nodes c).token, c) := by
    rw [(List.Nodup.of_map _ h.keys).erase_eq_filter]
    refine List.filter_congr fun e he => ?_
    rw [Bool.eq_iff_iff, decide_eq_true_eq, bne_iff_ne]
    exact not_congr ⟨fun heq => List.inj_on_of_nodup_map h.keys he hc heq, fun heq => by rw [heq]⟩
  rw [hfilter]
  exact List.perm_cons_erase hc

theorem find_of_mem (h : NodeOk nodes lru p) {token : Int} {c : Nat} (hc : (token, c) ∈ (nodes p).child) :
    (nodes p).find token = some c := by
  rw [TrieNode.find]
  cases hfind : (nodes p).child.find? fun e => decide (e.1 = token) with
  | none =>
    have hnot := List.find?_eq_none.mp hfind _ hc
    simp at hnot
  | some e =>
    have hkey := List.find?_some hfind
    have heq := List.inj_on_of_nodup_map h.keys (List.mem_of_find?_eq_some hfind) hc (of_decide_eq_true hkey)
    rw [Option.map_some, heq]

/-- A child leaves every container of its parent. -/
theorem erase {last : Nat} (h : NodeOk nodes (lru ++ [last]) p)
    (hlast : ((nodes last).token, last) ∈ (nodes p).child)
    (hnode : nodes' p = { nodes p with
      lru := (nodes p).lru.erase last
      sortedChildren := sortedErase nodes last (nodes p).sortedChildren
      child := (nodes p).child.filter fun e => e.1 ≠ (nodes last).token })
    (hlabel : ∀ q, SameLabel nodes nodes' q) : NodeOk nodes' lru p := by
  have hsplit := h.child_split hlast
  have hsnd := hsplit.map Prod.snd
  rw [List.map_cons] at hsnd
  have hsorted : sortedErase nodes last (nodes p).sortedChildren = (nodes p).sortedChildren.erase last :=
    sortedErase_eq (h.sorted_perm.nodup_iff.mpr h.snd_nodup) last
  have herase : ∀ xs : List Nat, xs.Perm ((nodes p).child.map Prod.snd) → (xs.erase last).Perm
      (((nodes p).child.filter fun e => e.1 ≠ (nodes last).token).map Prod.snd) := by
    intro xs hxs
    have hperm := (hxs.trans hsnd).erase last
    rwa [List.erase_cons_head] at hperm
  refine ⟨?_, fun e he => ?_, ?_, ?_, ?_⟩
  · rw [hnode]
    exact h.keys.sublist (List.filter_sublist.map Prod.fst)
  · rw [hnode] at he
    obtain ⟨he, hne⟩ := List.mem_filter.mp he
    obtain ⟨hmem, hparent, htoken⟩ := h.child_mem e he
    rw [(hlabel e.2).1, (hlabel e.2).2.1]
    refine ⟨?_, hparent, htoken⟩
    rcases List.mem_append.mp hmem with hlru | heq
    · exact hlru
    · rw [List.mem_singleton.mp heq] at htoken
      exact absurd htoken.symm (of_decide_eq_true hne)
  · rw [hnode]
    exact herase _ h.lru_perm
  · rw [hnode]
    simp only [hsorted]
    exact herase _ h.sorted_perm
  · rw [hnode]
    simp only [hsorted]
    exact (h.sorted.sublist List.erase_sublist).imp fun {a b} hab =>
      (compareByFreq_congr ⟨(hlabel a).2.2, (hlabel a).1⟩ ⟨(hlabel b).2.2, (hlabel b).1⟩).mpr hab

/-- A new child under a token that leads nowhere yet. -/
theorem insert {node : Nat} {token : Int} (h : NodeOk nodes lru p)
    (hnew : node ∉ lru) (hfind : (nodes p).find token = none)
    (hfresh : (nodes' node).token = token ∧ (nodes' node).parent = p)
    (hlabel : ∀ q ∈ lru, SameLabel nodes nodes' q)
    (hchild : (nodes' p).child = (nodes p).child ++ [(token, node)])
    (hlru : (nodes' p).lru = node :: (nodes p).lru)
    (hsorted : (nodes' p).sortedChildren = sortedInsert nodes' node (nodes p).sortedChildren) :
    NodeOk nodes' (lru ++ [node]) p := by
  have hsnd : (node :: (nodes p).child.map Prod.snd).Perm ((nodes' p).child.map Prod.snd) := by
    rw [hchild, List.map_append]
    exact (List.perm_append_singleton node _).symm
  have hmem : ∀ c ∈ (nodes p).sortedChildren, c ∈ lru := fun c hc =>
    (h.mem_of_lru (h.sorted_perm.subset hc)).1
  refine ⟨?_, fun e he => ?_, ?_, ?_, ?_⟩
  · rw [hchild, List.map_append]
    refine h.keys.append (List.nodup_singleton token) ?_
    rw [List.map_singleton, List.disjoint_singleton]
    intro hkey
    obtain ⟨e, he, rfl⟩ := List.mem_map.mp hkey
    rw [h.find_of_mem he] at hfind
    cases hfind
  · rw [hchild] at he
    rcases List.mem_append.mp he with he | he
    · obtain ⟨hlru, hparent, htoken⟩ := h.child_mem e he
      obtain ⟨ht, hp, -⟩ := hlabel e.2 hlru
      rw [ht, hp]
      exact ⟨List.mem_append_left [node] hlru, hparent, htoken⟩
    · rw [List.mem_singleton.mp he]
      exact ⟨List.mem_append_right lru (List.mem_singleton_self node), hfresh.2, hfresh.1⟩
  · rw [hlru]
    exact (h.lru_perm.cons node).trans hsnd
  · rw [hsorted]
    exact ((sortedInsert_perm node _).trans (h.sorted_perm.cons node)).trans hsnd
  · rw [hsorted]
    refine sortedInsert_pairwise (fun hc => hnew (hmem node hc)) ?_
    refine h.sorted.imp_of_mem fun {a b} ha hb hab => ?_
    obtain ⟨hta, -, hfa⟩ := hlabel a (hmem a ha)
    obtain ⟨htb, -, hfb⟩ := hlabel b (hmem b hb)
    exact (compareByFreq_congr ⟨hfa, hta⟩ ⟨hfb, htb⟩).mpr hab

/-- A child moves to the front of `lru` and to the place its frequency gives it. -/
theorem bump {node : Nat} (h : NodeOk nodes lru p) (hnode : node ∈ (nodes p).child.map Prod.snd)
    (hlabel : ∀ q ∈ lru, (nodes' q).token = (nodes q).token ∧ (nodes' q).parent = (nodes q).parent)
    (hfreq : ∀ q, q ≠ node → (nodes' q).freq = (nodes q).freq)
    (hchild : (nodes' p).child = (nodes p).child)
    (hlru : (nodes' p).lru = node :: (nodes p).lru.erase node)
    (hsorted : (nodes' p).sortedChildren =
      sortedInsert nodes' node (sortedErase nodes node (nodes p).sortedChildren)) :
    NodeOk nodes' lru p := by
  have hnodup := h.sorted_perm.nodup_iff.mpr h.snd_nodup
  rw [sortedErase_eq hnodup] at hsorted
  have hback : ∀ xs : List Nat, xs.Perm ((nodes p).child.map Prod.snd) →
      (node :: xs.erase node).Perm ((nodes' p).child.map Prod.snd) := by
    intro xs hxs
    rw [hchild]
    exact (List.perm_cons_erase (hxs.mem_iff.mpr hnode)).symm.trans hxs
  refine ⟨hchild ▸ h.keys, fun e he => ?_, ?_, ?_, ?_⟩
  · rw [hchild] at he
    obtain ⟨hmem, hrest⟩ := h.child_mem e he
    obtain ⟨ht, hp⟩ := hlabel e.2 hmem
    rw [ht, hp]
    exact ⟨hmem, hrest⟩
  · rw [hlru]
    exact hback _ h.lru_perm
  · rw [hsorted]
    exact (sortedInsert_perm node _).trans (hback _ h.sorted_perm)
  · rw [hsorted]
    refine sortedInsert_pairwise hnodup.not_mem_erase ?_
    have hkeep : ∀ c ∈ (nodes p).sortedChildren.erase node,
        (nodes' c).freq = (nodes c).freq ∧ (nodes' c).token = (nodes c).token := by
      intro c hc
      obtain ⟨hne, hmem⟩ := hnodup.mem_erase_iff.mp hc
      exact ⟨hfreq c hne, (hlabel c (h.mem_of_lru (h.sorted_perm.subset hmem)).1).1⟩
    exact (h.sorted.sublist List.erase_sublist).imp_of_mem fun {a b} ha hb hab =>
      (compareByFreq_congr (hkeep a ha) (hkeep b hb)).mpr hab

end NodeOk

/-! ## The operations on nodes -/

section Operations

variable {s s' : Ngram}

/-- What no operation on the nodes changes. -/
structure SameFrame (s s' : Ngram) : Prop where
  param : s'.param = s.param
  capacity : s'.capacity = s.capacity
  root : s'.root = s.root

theorem SameFrame.trans {t : Ngram} (h : SameFrame s s') (h' : SameFrame s' t) : SameFrame s t :=
  ⟨h'.param.trans h.param, h'.capacity.trans h.capacity, h'.root.trans h.root⟩

theorem sameLabel_update (nodes : Nat → TrieNode) (p : Nat) (r : TrieNode)
    (ht : r.token = (nodes p).token) (hp : r.parent = (nodes p).parent) (hf : r.freq = (nodes p).freq)
    (q : Nat) : SameLabel nodes (Function.update nodes p r) q := by
  by_cases hq : q = p
  · subst hq
    simp only [SameLabel, Function.update_self]
    exact ⟨ht, hp, hf⟩
  · simp only [SameLabel, Function.update_of_ne hq, and_self]

namespace Linked

theorem count_free (h : Linked s) : s.freeNodeCount + 1 + s.globalLru.length = s.capacity := by
  have hlen := h.partition.length_eq
  have hpool := h.pool
  simp only [List.length_append, List.length_take, List.length_cons, List.length_range] at hlen
  omega

theorem nodup (h : Linked s) : (s.nodePool.take s.freeNodeCount ++ s.root :: s.globalLru).Nodup :=
  h.partition.nodup_iff.mpr List.nodup_range

/-- The node that is evicted is a leaf. -/
theorem last_child {lru : List Nat} {last : Nat} (h : Linked s) (hlru : s.globalLru = lru ++ [last]) :
    (s.nodes last).child = [] := by
  have hlast : last ∈ s.globalLru := hlru ▸ List.mem_append_right lru (List.mem_singleton_self last)
  refine List.eq_nil_iff_forall_not_mem.mpr fun e he => ?_
  obtain ⟨hmem, hparent, -⟩ := (h.node_ok last (List.mem_cons_of_mem s.root hlast)).child_mem e he
  exact (hlru ▸ h.order).last_leaf e.2 (hlru ▸ hmem) hparent

theorem release {lru : List Nat} {last : Nat} (h : Linked s) (hlru : s.globalLru = lru ++ [last]) :
    Linked (Ngram.release { s with globalLru := s.globalLru.dropLast } last) := by
  have hdrop : s.globalLru.dropLast = lru := by rw [hlru, List.dropLast_concat]
  have hlast : last ∈ s.globalLru := hlru ▸ List.mem_append_right lru (List.mem_singleton_self last)
  have horder : ParentsFirst (fun n => (s.nodes n).parent) s.root (lru ++ [last]) := hlru ▸ h.order
  have hlabel := sameLabel_update s.nodes (s.nodes last).parent
    { s.nodes (s.nodes last).parent with
      lru := (s.nodes (s.nodes last).parent).lru.erase last
      sortedChildren := sortedErase s.nodes last (s.nodes (s.nodes last).parent).sortedChildren
      child := (s.nodes (s.nodes last).parent).child.filter fun e => e.1 ≠ (s.nodes last).token }
    rfl rfl rfl
  have hcount := h.count_free
  have hfree : s.freeNodeCount < s.nodePool.length := by
    have hpos : 0 < s.globalLru.length := List.length_pos_of_mem hlast
    rw [h.pool]
    omega
  refine ⟨?_, ?_, ?_, ?_, ?_⟩
  · simp only [Ngram.release, Ngram.modify, hdrop]
    rw [List.take_succ_eq_append_getElem (by rwa [List.length_set]), List.getElem_set_self,
      List.take_set_of_le (Nat.le_refl _), List.append_assoc]
    refine List.Perm.trans ?_ h.partition
    refine List.Perm.append_left _ ?_
    rw [hlru, List.singleton_append]
    exact ((List.perm_append_singleton last (s.root :: lru)).symm)
  · simp only [Ngram.release, Ngram.modify, List.length_set]
    exact h.pool
  · simp only [Ngram.release, Ngram.modify, hdrop]
    exact horder.dropLast.congr fun n _ => (hlabel n).2.1
  · simp only [Ngram.release, Ngram.modify, hdrop]
    intro q hq
    have hok := h.node_ok q (by
      rw [hlru, ← List.cons_append]
      exact List.mem_append_left [last] hq)
    rw [hlru] at hok
    by_cases hparent : q = (s.nodes last).parent
    · refine hok.erase ?_ ?_ hlabel
      · rw [hparent]
        exact h.mem_child last hlast
      · rw [hparent, Function.update_self]
    · refine hok.congr (by rw [Function.update_of_ne hparent]) (by rw [Function.update_of_ne hparent])
        (by rw [Function.update_of_ne hparent]) fun c hc => ⟨?_, hlabel c⟩
      obtain ⟨hmem, hq', -⟩ := hok.mem_of_lru hc
      rcases List.mem_append.mp hmem with hmem | hmem
      · exact hmem
      · rw [List.mem_singleton.mp hmem] at hq'
        exact absurd hq'.symm hparent
  · simp only [Ngram.release, Ngram.modify, hdrop]
    intro n hn
    have hmem := h.mem_child n (hlru ▸ List.mem_append_left [last] hn)
    rw [(hlabel n).1, (hlabel n).2.1]
    by_cases hparent : (s.nodes n).parent = (s.nodes last).parent
    · rw [hparent, Function.update_self]
      refine List.mem_filter.mpr ⟨hparent ▸ hmem, decide_eq_true ?_⟩
      intro htoken
      -- two children of one parent under one token would be one node
      have hok := h.node_ok _ (h.order.parent_mem last hlast)
      have heq := List.inj_on_of_nodup_map hok.keys (hparent ▸ hmem) (h.mem_child last hlast) htoken
      have hnodup : (lru ++ [last]).Nodup := hlru ▸ h.order.nodup.of_cons
      exact (List.nodup_append.mp hnodup).2.2 n hn last (List.mem_singleton_self last)
        (congrArg Prod.snd heq)
    · rw [Function.update_of_ne hparent]
      exact hmem

end Linked

/-- `node` is the child of `cursor` under `token`, and the trie around it is whole. -/
structure Entered (s : Ngram) (cursor : Nat) (token : Int) (node : Nat) (s' : Ngram) : Prop where
  linked : Linked s'
  frame : SameFrame s s'
  path : s'.path = s.path
  free : s.freeNodeCount ≤ s'.freeNodeCount + 1
  grows : s.globalLru ⊆ s'.globalLru
  mem : node ∈ s'.globalLru
  label : (s'.nodes node).token = token ∧ (s'.nodes node).parent = cursor
  labels : ∀ q ∈ s.globalLru, (s'.nodes q).token = (s.nodes q).token ∧
    (s'.nodes q).parent = (s.nodes q).parent

/-- The last free place is in no use. -/
theorem Linked.free_place {free : Nat} (h : Linked s) (hfree : s.freeNodeCount = free + 1) :
    ∃ node, s.nodePool[free]? = some node ∧ node ∉ s.root :: s.globalLru ∧
      s.nodePool.take s.freeNodeCount = s.nodePool.take free ++ [node] := by
  have hcount := h.count_free
  have hlt : free < s.nodePool.length := by
    rw [h.pool]
    omega
  have htake : s.nodePool.take s.freeNodeCount = s.nodePool.take free ++ [s.nodePool[free]] := by
    rw [hfree, List.take_succ_eq_append_getElem hlt]
  refine ⟨s.nodePool[free], List.getElem?_eq_getElem hlt, fun hmem => ?_, htake⟩
  have hnodup := h.nodup
  rw [htake] at hnodup
  exact (List.nodup_append.mp hnodup).2.2 _ (List.mem_append_right _ (List.mem_singleton_self _)) _ hmem rfl

theorem Linked.attach {cursor : Nat} {token : Int} (h : Linked s) (hcursor : cursor ∈ s.root :: s.globalLru)
    (hfind : (s.nodes cursor).find token = none) (hfree : 0 < s.freeNodeCount) :
    ∃ node s', s.attach cursor token = .ok (node, s') ∧ Entered s cursor token node s' := by
  obtain ⟨free, hsucc⟩ := Nat.exists_eq_succ_of_ne_zero (Nat.pos_iff_ne_zero.mp hfree)
  obtain ⟨node, hplace, hnew, htake⟩ := h.free_place hsucc
  have hne : cursor ≠ node := fun heq => hnew (heq ▸ hcursor)
  simp only [Ngram.attach, Ngram.getNode, hsucc, hplace, bind, Except.bind, pure, Except.pure]
  refine ⟨node, _, rfl, ?_⟩
  generalize ht : Ngram.modify _ cursor _ = t
  have hnode : t.nodes node = ⟨[], token, cursor, [], 1, []⟩ := by
    rw [← ht]
    simp [Ngram.modify, TrieNode.empty, Function.update_of_ne (Ne.symm hne)]
  have hother : ∀ q, q ≠ node → q ≠ cursor → t.nodes q = s.nodes q := by
    intro q hq hqc
    rw [← ht]
    simp [Ngram.modify, Function.update_of_ne hq, Function.update_of_ne hqc]
  have hcur : (t.nodes cursor).child = (s.nodes cursor).child ++ [(token, node)] ∧
      (t.nodes cursor).lru = node :: (s.nodes cursor).lru ∧
      (t.nodes cursor).sortedChildren = sortedInsert t.nodes node (s.nodes cursor).sortedChildren ∧
      SameLabel s.nodes t.nodes cursor := by
    rw [← ht]
    simp only [Ngram.modify, Function.update_self, Function.update_of_ne hne, SameLabel, and_self, and_true,
      true_and]
    refine (sortedInsert_congr (fun q => ?_) node _).symm
    by_cases hq : q = cursor
    · rw [hq, Function.update_self, Function.update_of_ne hne, Function.update_of_ne hne]
      exact ⟨rfl, rfl⟩
    · rw [Function.update_of_ne hq]
      exact ⟨rfl, rfl⟩
  have hlabel : ∀ q, q ≠ node → SameLabel s.nodes t.nodes q := by
    intro q hq
    by_cases hqc : q = cursor
    · exact hqc ▸ hcur.2.2.2
    · rw [SameLabel, hother q hq hqc]
      exact ⟨rfl, rfl, rfl⟩
  have hframe : SameFrame s t := by
    rw [← ht]
    exact ⟨rfl, rfl, rfl⟩
  have hfields : t.globalLru = s.globalLru ++ [node] ∧ t.freeNodeCount = free ∧ t.path = s.path ∧
      t.nodePool = s.nodePool := by
    rw [← ht]
    exact ⟨rfl, rfl, rfl, rfl⟩
  obtain ⟨hlru, hcount, hpath, hpool⟩ := hfields
  have hcursor' : ∀ q ∈ s.globalLru, SameLabel s.nodes t.nodes q := fun q hq =>
    hlabel q fun heq => hnew (heq ▸ List.mem_cons_of_mem s.root hq)
  have hne_of_mem : ∀ q ∈ s.root :: s.globalLru, q ≠ node := fun q hq heq => hnew (heq ▸ hq)
  refine ⟨⟨?_, ?_, ?_, ?_, ?_⟩, hframe, hpath, ?_, ?_, ?_, ?_, fun q hq => ?_⟩
  · rw [hpool, hcount, hlru, hframe.root, hframe.capacity]
    refine List.Perm.trans ?_ h.partition
    rw [htake, List.append_assoc, ← List.cons_append]
    refine List.Perm.append_left _ ?_
    exact List.perm_append_comm
  · rw [hpool, hframe.capacity]
    exact h.pool
  · rw [hlru, hframe.root]
    have hsame : ParentsFirst (fun n => (t.nodes n).parent) s.root s.globalLru :=
      h.order.congr fun q hq => (hcursor' q hq).2.1
    refine hsame.append_leaf hnew ?_
    rw [hnode]
    exact hcursor
  · rw [hlru, hframe.root, ← List.cons_append]
    intro q hq
    rcases List.mem_append.mp hq with hq | hq
    · have hok := h.node_ok q hq
      by_cases hqc : q = cursor
      · subst hqc
        refine hok.insert (fun hmem => hnew (List.mem_cons_of_mem s.root hmem)) hfind ?_ hcursor' hcur.1
          hcur.2.1 hcur.2.2.1
        rw [hnode]
        exact ⟨rfl, rfl⟩
      · have hsame := hother q (hne_of_mem q hq) hqc
        refine hok.congr (by rw [hsame]) (by rw [hsame]) (by rw [hsame]) fun c hc => ?_
        have hmem := (hok.mem_of_lru hc).1
        exact ⟨List.mem_append_left [node] hmem, hcursor' c hmem⟩
    · rw [List.mem_singleton.mp hq]
      refine ⟨?_, ?_, ?_, ?_, ?_⟩ <;> rw [hnode] <;> simp
  · rw [hlru]
    intro q hq
    rcases List.mem_append.mp hq with hq | hq
    · have hmem := h.mem_child q hq
      obtain ⟨htoken, hparent, -⟩ := hcursor' q hq
      rw [htoken, hparent]
      by_cases hqc : (s.nodes q).parent = cursor
      · rw [hqc, hcur.1]
        exact List.mem_append_left _ (hqc ▸ hmem)
      · rw [hother _ (hne_of_mem _ (h.order.parent_mem q hq)) hqc]
        exact hmem
    · rw [List.mem_singleton.mp hq, hnode, hcur.1]
      exact List.mem_append_right _ (List.mem_singleton_self _)
  · rw [hcount, hsucc]
  · rw [hlru]
    exact List.subset_append_left _ _
  · rw [hlru]
    exact List.mem_append_right _ (List.mem_singleton_self _)
  · rw [hnode]
    exact ⟨rfl, rfl⟩
  · exact ⟨(hcursor' q hq).1, (hcursor' q hq).2.1⟩

theorem Linked.revisit {cursor node : Nat} {token : Int} (h : Linked s)
    (hcursor : cursor ∈ s.root :: s.globalLru) (hfind : (s.nodes cursor).find token = some node) :
    Entered s cursor token node (s.revisit cursor node) := by
  have hentry := TrieNode.mem_of_find hfind
  have hok := h.node_ok cursor hcursor
  obtain ⟨hmem, hparent, htoken⟩ := hok.child_mem _ hentry
  have hne : cursor ≠ node := fun heq => h.order.parent_ne node hmem (hparent.trans heq)
  generalize ht : s.revisit cursor node = t
  have hfields : SameFrame s t ∧ t.globalLru = s.globalLru ∧ t.freeNodeCount = s.freeNodeCount ∧
      t.path = s.path ∧ t.nodePool = s.nodePool := by
    rw [← ht]
    exact ⟨⟨rfl, rfl, rfl⟩, rfl, rfl, rfl, rfl⟩
  have hkeys : ∀ q, (t.nodes q).token = (s.nodes q).token ∧ (t.nodes q).parent = (s.nodes q).parent ∧
      (t.nodes q).child = (s.nodes q).child ∧ (q ≠ node → (t.nodes q).freq = (s.nodes q).freq) ∧
      (q ≠ cursor → (t.nodes q).lru = (s.nodes q).lru ∧
        (t.nodes q).sortedChildren = (s.nodes q).sortedChildren) := by
    intro q
    rw [← ht]
    by_cases hqc : q = cursor
    · subst hqc
      simp [Ngram.revisit, Ngram.modify, Function.update_of_ne hne]
    · by_cases hqn : q = node
      · subst hqn
        simp [Ngram.revisit, Ngram.modify, Function.update_of_ne hqc]
      · simp [Ngram.revisit, Ngram.modify, Function.update_of_ne hqc, Function.update_of_ne hqn]
  have hcur : (t.nodes cursor).lru = node :: (s.nodes cursor).lru.erase node ∧
      (t.nodes cursor).sortedChildren =
        sortedInsert t.nodes node (sortedErase s.nodes node (s.nodes cursor).sortedChildren) := by
    rw [← ht]
    simp only [Ngram.revisit, Ngram.modify, Function.update_self, Function.update_of_ne hne, true_and]
    refine (sortedInsert_congr (fun q => ?_) node _).symm
    by_cases hq : q = cursor
    · rw [hq, Function.update_self, Function.update_of_ne hne]
      exact ⟨rfl, rfl⟩
    · rw [Function.update_of_ne hq]
      exact ⟨rfl, rfl⟩
  obtain ⟨hframe, hlru, hcount, hpath, hpool⟩ := hfields
  refine ⟨⟨?_, ?_, ?_, ?_, ?_⟩, hframe, hpath, ?_, ?_, ?_, ?_, fun q _ => ⟨(hkeys q).1, (hkeys q).2.1⟩⟩
  · rw [hpool, hcount, hlru, hframe.root, hframe.capacity]
    exact h.partition
  · rw [hpool, hframe.capacity]
    exact h.pool
  · rw [hlru, hframe.root]
    exact h.order.congr fun q _ => (hkeys q).2.1
  · rw [hlru, hframe.root]
    intro q hq
    have hqok := h.node_ok q hq
    by_cases hqc : q = cursor
    · subst hqc
      exact hqok.bump (List.mem_map_of_mem hentry) (fun c _ => ⟨(hkeys c).1, (hkeys c).2.1⟩)
        (fun c hc => (hkeys c).2.2.2.1 hc) (hkeys q).2.2.1 hcur.1 hcur.2
    · obtain ⟨-, -, hchild, -, hrest⟩ := hkeys q
      refine hqok.congr hchild (hrest hqc).1 (hrest hqc).2 fun c hc => ?_
      obtain ⟨hcmem, hcparent, -⟩ := hqok.mem_of_lru hc
      -- the node whose frequency changes hangs below `cursor` only
      have hcn : c ≠ node := fun heq => hqc (by rw [← hcparent, heq, hparent])
      exact ⟨hcmem, (hkeys c).1, (hkeys c).2.1, (hkeys c).2.2.2.1 hcn⟩
  · rw [hlru]
    intro q hq
    rw [(hkeys q).1, (hkeys q).2.1, (hkeys _).2.2.1]
    exact h.mem_child q hq
  · rw [hcount]
    exact Nat.le_succ _
  · rw [hlru]
    exact List.Subset.refl _
  · rw [hlru]
    exact hmem
  · rw [(hkeys node).1, (hkeys node).2.1]
    exact ⟨htoken, hparent⟩

/-! ## Windows -/

/-- `path_` leads from the root along `seen` to `cursor`. -/
structure Walked (s : Ngram) (seen : List Int) (cursor : Nat) : Prop where
  chain : (s.root :: s.path).IsChain fun a b => (s.nodes b).parent = a
  listed : s.path ⊆ s.globalLru
  tokens : (s.path.map fun n => (s.nodes n).token) = seen
  last : (s.root :: s.path).getLast (List.cons_ne_nil _ _) = cursor

theorem Walked.cursor_mem {seen : List Int} {cursor : Nat} (h : Walked s seen cursor) :
    cursor ∈ s.root :: s.globalLru := by
  have hmem := List.getLast_mem (List.cons_ne_nil s.root s.path)
  rw [h.last] at hmem
  exact List.cons_subset_cons s.root h.listed hmem

theorem Walked.enter {seen : List Int} {cursor node : Nat} {token : Int} (h : Walked s seen cursor)
    (he : Entered s cursor token node s') :
    Walked { s' with path := s'.path ++ [node] } (seen ++ [token]) node := by
  have hsame : ∀ n ∈ s.path, (s'.nodes n).token = (s.nodes n).token ∧
      (s'.nodes n).parent = (s.nodes n).parent := fun n hn => he.labels n (h.listed hn)
  refine ⟨?_, ?_, ?_, ?_⟩
  · simp only [he.path, he.frame.root]
    rw [← List.cons_append, List.isChain_append]
    refine ⟨?_, List.IsChain.singleton node, ?_⟩
    · exact h.chain.imp_of_mem_tail_imp fun a b _ hb hab => (hsame b hb).2.trans hab
    · intro a ha b hb
      rw [List.getLast?_eq_some_getLast (List.cons_ne_nil _ _), h.last] at ha
      cases ha
      cases hb
      exact he.label.2
  · simp only [he.path]
    intro n hn
    rcases List.mem_append.mp hn with hn | hn
    · exact he.grows (h.listed hn)
    · rw [List.mem_singleton.mp hn]
      exact he.mem
  · simp only [he.path]
    rw [List.map_append, List.map_singleton, he.label.1, ← h.tokens]
    congr 1
    exact List.map_congr_left fun n hn => (hsame n hn).1
  · simp

theorem Linked.enter {cursor : Nat} (h : Linked s) (token : Int) (hcursor : cursor ∈ s.root :: s.globalLru)
    (hfree : 0 < s.freeNodeCount) :
    ∃ node s', s.enter cursor token = .ok (node, s') ∧ Entered s cursor token node s' := by
  unfold Ngram.enter
  cases hfind : (s.nodes cursor).find token with
  | none => exact h.attach hcursor hfind hfree
  | some node => exact ⟨node, _, rfl, h.revisit hcursor hfind⟩

theorem Linked.with_path (h : Linked s) (path : List Nat) : Linked { s with path } :=
  ⟨h.partition, h.pool, h.order, h.node_ok, h.mem_child⟩

/-- With a free place for every token the walk goes through. -/
theorem Linked.walk (tokens : List Int) {seen : List Int} {cursor : Nat} (h : Linked s)
    (hw : Walked s seen cursor) (hfree : tokens.length ≤ s.freeNodeCount) :
    ∃ s' last, Ngram.walk tokens cursor s = .ok s' ∧ Linked s' ∧ SameFrame s s' ∧
      Walked s' (seen ++ tokens) last := by
  induction tokens generalizing s seen cursor with
  | nil =>
    rw [List.append_nil]
    exact ⟨s, cursor, rfl, h, ⟨rfl, rfl, rfl⟩, hw⟩
  | cons token rest ih =>
    rw [List.length_cons] at hfree
    obtain ⟨node, t, heq, he⟩ := h.enter token hw.cursor_mem (by omega)
    have hcount := he.free
    obtain ⟨s', last, hrun, hlinked, hframe, hwalked⟩ := ih (he.linked.with_path _) (hw.enter he)
      (show rest.length ≤ t.freeNodeCount by omega)
    refine ⟨s', last, ?_, hlinked, he.frame.trans ⟨hframe.param, hframe.capacity, hframe.root⟩, ?_⟩
    · simp only [Ngram.walk, heq, bind, Except.bind]
      exact hrun
    · rwa [List.append_assoc, List.singleton_append] at hwalked

/-- The path goes to the front of the order. -/
theorem Linked.splice {seen : List Int} {last : Nat} (h : Linked s) (hw : Walked s seen last) :
    Linked { s with globalLru := s.path.foldr (fun node lru => node :: lru.erase node) s.globalLru } := by
  have hpath := h.order.path_nodup hw.chain hw.listed
  have hperm := ParentsFirst.front_perm hpath h.order.nodup.of_cons hw.listed
  rw [ParentsFirst.foldr_front hpath h.order.nodup.of_cons]
  refine ⟨?_, h.pool, h.order.move_path hw.chain hw.listed, fun p hp => ?_, fun n hn => ?_⟩
  · exact ((hperm.cons s.root).append_left _).trans h.partition
  · have hok := h.node_ok p ((hperm.cons s.root).mem_iff.mp hp)
    exact hok.congr rfl rfl rfl fun c hc => ⟨hperm.mem_iff.mpr (hok.mem_of_lru hc).1, rfl, rfl, rfl⟩
  · exact h.mem_child n (hperm.mem_iff.mp hn)

/-- A path from the root is what its tokens lead to. -/
theorem Linked.descend (h : Linked s) {path : List Nat} {p : Nat} (hp : p ∈ s.root :: s.globalLru)
    (hchain : (p :: path).IsChain fun a b => (s.nodes b).parent = a) (hsub : path ⊆ s.globalLru) :
    (descend s.nodes p (path.map fun n => (s.nodes n).token)).isSome := by
  induction path generalizing p with
  | nil => rfl
  | cons n path ih =>
    rw [List.isChain_cons_cons] at hchain
    obtain ⟨hn, hrest⟩ := List.cons_subset.mp hsub
    have hmem := h.mem_child n hn
    rw [hchain.1] at hmem
    rw [List.map_cons, QCFuse.Source.descend, (h.node_ok p hp).find_of_mem hmem]
    exact ih (List.mem_cons_of_mem s.root hn) hchain.2 hrest

theorem Linked.squeezeLoop (count : Nat) (h : Linked s) (hcount : count ≤ s.globalLru.length) :
    ∃ s', Ngram.squeezeLoop count s = .ok s' ∧ Linked s' ∧ SameFrame s s' ∧
      s'.freeNodeCount = s.freeNodeCount + count := by
  induction count generalizing s with
  | zero => exact ⟨s, rfl, h, ⟨rfl, rfl, rfl⟩, rfl⟩
  | succ count ih =>
    have hne : s.globalLru ≠ [] := List.ne_nil_of_length_pos (by omega)
    have hlru := (List.dropLast_append_getLast hne).symm
    obtain ⟨s', hrun, hlinked, hframe, hfree⟩ := ih (h.release hlru) (by
      simp only [Ngram.release, Ngram.modify, List.length_dropLast]
      omega)
    refine ⟨s', ?_, hlinked, ⟨hframe.param, hframe.capacity, hframe.root⟩, ?_⟩
    · rw [Ngram.squeezeLoop, List.getLast?_eq_some_getLast hne]
      simp only [h.last_child hlru, ne_eq, not_true_eq_false, if_false]
      exact hrun
    · simp only [Ngram.release] at hfree
      omega

theorem Linked.makeRoom (size : Nat) (h : Linked s) (hroom : size < s.capacity) :
    ∃ s', s.makeRoom size = .ok s' ∧ Linked s' ∧ SameFrame s s' ∧ size ≤ s'.freeNodeCount := by
  have hcount := h.count_free
  unfold Ngram.makeRoom
  split
  next hgt =>
    obtain ⟨t, hrun, hlinked, hframe, hfree⟩ := h.squeezeLoop (size - s.freeNodeCount) (by omega)
    refine ⟨t, ?_, hlinked, hframe, by omega⟩
    rw [Ngram.squeeze, if_neg (by rw [h.pool]; omega)]
    exact hrun
  next hle => exact ⟨s, rfl, h, ⟨rfl, rfl, rfl⟩, by omega⟩

/-- A window that leaves a place for the root is inserted in full. -/
theorem Linked.insertWindow (window : List Int) (h : Linked s) (hroom : window.length < s.capacity) :
    ∃ s', s.insertWindow window = .ok s' ∧ Linked s' ∧ SameFrame s s' ∧
      (QCFuse.Source.descend s'.nodes s'.root window).isSome := by
  obtain ⟨t, hrun, hlinked, hframe, hfree⟩ := h.makeRoom window.length hroom
  have hstart : Walked { t with path := [] } [] t.root :=
    ⟨List.IsChain.singleton t.root, List.nil_subset _, rfl, rfl⟩
  obtain ⟨u, last, hwalk, hu, hframe', hwalked⟩ := (hlinked.with_path []).walk window hstart hfree
  rw [List.nil_append] at hwalked
  refine ⟨_, ?_, hu.splice hwalked, hframe.trans ⟨hframe'.param, hframe'.capacity, hframe'.root⟩, ?_⟩
  · simp only [Ngram.insertWindow, hrun, bind, Except.bind]
    rw [hwalk]
    rfl
  · rw [← hwalked.tokens]
    exact hu.descend List.mem_cons_self hwalked.chain hwalked.listed

theorem Linked.insertWindows (windows : List (List Int)) (h : Linked s)
    (hroom : ∀ window ∈ windows, window.length < s.capacity) :
    ∃ s', windows.foldlM Ngram.insertWindow s = .ok s' ∧ Linked s' ∧ SameFrame s s' ∧
      (windows = [] → s' = s) ∧
      ∀ window ∈ windows.getLast?, (QCFuse.Source.descend s'.nodes s'.root window).isSome := by
  induction windows generalizing s with
  | nil => exact ⟨s, rfl, h, ⟨rfl, rfl, rfl⟩, fun _ => rfl, fun w hw => by cases hw⟩
  | cons window rest ih =>
    obtain ⟨t, hrun, ht, hframe, hin⟩ := h.insertWindow window (hroom window List.mem_cons_self)
    obtain ⟨s', hrest, hlinked, hframe', hempty, hlast⟩ := ih ht fun w hw => by
      rw [hframe.capacity]
      exact hroom w (List.mem_cons_of_mem window hw)
    refine ⟨s', ?_, hlinked, hframe.trans hframe', fun hnil => absurd hnil (List.cons_ne_nil _ _),
      fun w hw => ?_⟩
    · rw [List.foldlM_cons, hrun]
      exact hrest
    · cases rest with
      | nil =>
        obtain rfl := hempty rfl
        cases hw
        exact hin
      | cons next rest =>
        rw [List.getLast?_cons_cons] at hw
        exact hlast w hw

theorem reset_linked (hcap : 0 < s.capacity) :
    ∃ s', s.reset = .ok s' ∧ Linked s' ∧ s'.param = s.param ∧ s'.capacity = s.capacity := by
  obtain ⟨n, hn⟩ := Nat.exists_eq_succ_of_ne_zero (Nat.pos_iff_ne_zero.mp hcap)
  have hplace : (List.range (n + 1))[n]? = some n := by simp
  simp only [Ngram.reset, Ngram.getNode, hn, hplace, bind, Except.bind, pure, Except.pure]
  refine ⟨_, rfl, ⟨?_, ?_, ParentsFirst.nil _ _, ?_, fun m hm => absurd hm List.not_mem_nil⟩, rfl, rfl⟩
  · simp only [Ngram.modify, Nat.succ_eq_add_one]
    rw [List.take_range, Nat.min_eq_left (Nat.le_succ n), ← List.range_succ]
  · simp only [Ngram.modify, List.length_range]
  · intro p hp
    obtain rfl : p = n := List.mem_singleton.mp hp
    refine ⟨?_, ?_, ?_, ?_, ?_⟩ <;> simp [Ngram.modify, TrieNode.empty]

/-- Too long for the pool: the root would have to go. -/
theorem squeezeLoop_fails (count : Nat) (hcount : s.globalLru.length < count) :
    Ngram.squeezeLoop count s ≠ .ok s' := by
  induction count generalizing s with
  | zero => exact absurd hcount (Nat.not_lt_zero _)
  | succ count ih =>
    rw [Ngram.squeezeLoop]
    split
    · exact fun h => by cases h
    next last hlast =>
      split
      · exact fun h => by cases h
      · refine ih ?_
        have hne : 0 < s.globalLru.length := List.length_pos_of_mem (List.mem_of_getLast? hlast)
        simp only [Ngram.release, Ngram.modify, List.length_dropLast]
        omega

theorem Linked.insertWindow_fails {window : List Int} (h : Linked s) (hroom : s.capacity = window.length) :
    s.insertWindow window ≠ .ok s' := by
  have hcount := h.count_free
  have hmake : ∀ t, s.makeRoom window.length ≠ .ok t := by
    intro t
    rw [Ngram.makeRoom, if_pos (show window.length > s.freeNodeCount by omega), Ngram.squeeze]
    split
    · exact fun heq => by cases heq
    · exact squeezeLoop_fails _ (by omega)
  intro hrun
  simp only [Ngram.insertWindow, bind, Except.bind] at hrun
  split at hrun
  · cases hrun
  next t ht => exact hmake t ht

end Operations

/-! ## Runs -/

theorem mem_windows {param : NgramParam} {data window : List Int} (h : window ∈ Ngram.windows param data) :
    window.length ≤ param.branchLength ∧ window.length ≤ data.length := by
  obtain ⟨i, -, rfl⟩ := List.mem_map.mp h
  rw [List.length_take, List.length_drop]
  omega

/-- A sequence of full length starts with a full window. -/
theorem windows_cons {param : NgramParam} {data : List Int} (hmin : param.minMatchWindowSize < data.length) :
    ∃ rest, Ngram.windows param data = data.take param.branchLength :: rest := by
  obtain ⟨n, hn⟩ := Nat.exists_eq_add_of_lt hmin
  rw [Ngram.windows, show data.length - param.minMatchWindowSize = n + 1 by omega, List.range_succ_eq_map]
  exact ⟨_, rfl⟩

theorem require_ok {condition : Bool} {what : String} {u : Unit} (h : require condition what = .ok u) :
    condition = true := by
  unfold require at h
  split at h
  next hc => exact hc
  next => cases h

/-- The constructor takes window sizes below `branch_length` only. -/
theorem check_ok {param : NgramParam} {u : Unit} (h : param.check = .ok u) :
    param.minMatchWindowSize < param.branchLength := by
  unfold NgramParam.check at h
  obtain ⟨_, -, h⟩ := bind_ok h
  obtain ⟨_, -, h⟩ := bind_ok h
  obtain ⟨_, hmin, h⟩ := bind_ok h
  obtain ⟨_, hmax, -⟩ := bind_ok h
  have hmin := of_decide_eq_true (require_ok hmin)
  have hmax := of_decide_eq_true (require_ok hmax)
  omega

/-- A step that the pool has room for. -/
def NgramOp.Fits (param : NgramParam) (capacity : Nat) : NgramOp → Prop
  | .insert data => param.branchLength < capacity ∨ data.length < param.branchLength
  | .reset => True

/-- The state of a cache with these parameters, after `last` was the last window. -/
structure Holding (param : NgramParam) (capacity : Nat) (last : Option (List Int)) (s : Ngram) : Prop where
  linked : Linked s
  param : s.param = param
  capacity : s.capacity = capacity
  contains : ∀ window ∈ last, (descend s.nodes s.root window).isSome

section Runs

variable {param : NgramParam} {capacity : Nat} {last : Option (List Int)} {s : Ngram}

/-- A new cache is whole. -/
theorem create_linked (h : Ngram.create capacity param = .ok s) :
    Linked s ∧ s.param = param ∧ s.capacity = capacity ∧ param.check = .ok () := by
  obtain ⟨t, hreset, h⟩ := bind_ok h
  obtain ⟨u, hcheck, h⟩ := bind_ok h
  cases h
  have hpos : 0 < capacity := by
    refine Nat.pos_of_ne_zero fun hzero => ?_
    subst hzero
    cases hreset
  obtain ⟨s', hrun, hlinked, hparam, hcapacity⟩ := reset_linked (s := ⟨param, capacity, fun _ => .empty, [], 0, [],
    0, []⟩) hpos
  obtain rfl : s' = s := Except.ok.inj (hrun.symm.trans hreset)
  exact ⟨hlinked, hparam, hcapacity, hcheck⟩

theorem create_holding (h : Ngram.create capacity param = .ok s) :
    Holding param capacity none s ∧ param.minMatchWindowSize < param.branchLength := by
  obtain ⟨hlinked, hparam, hcapacity, hcheck⟩ := create_linked h
  exact ⟨⟨hlinked, hparam, hcapacity, fun w hw => absurd hw (Option.not_mem_none w)⟩, check_ok hcheck⟩

theorem Holding.step (h : Holding param capacity last s) (hcap : param.branchLength ≤ capacity)
    (hpos : 0 < capacity) {op : NgramOp} (hfits : op.Fits param capacity) :
    ∃ s', op.run s = .ok s' ∧ Holding param capacity (op.lastWindow param last) s' := by
  cases op with
  | insert data =>
    obtain ⟨s', hrun, hlinked, hframe, hempty, hlast⟩ := h.linked.insertWindows (Ngram.windows s.param data)
      (by
        intro window hw
        obtain ⟨hlen, hdata⟩ := mem_windows hw
        rw [h.param] at hlen
        rw [h.capacity]
        unfold NgramOp.Fits at hfits
        omega)
    refine ⟨s', hrun, hlinked, hframe.param.trans h.param, hframe.capacity.trans h.capacity, ?_⟩
    rw [h.param] at hempty hlast
    intro w hw
    simp only [NgramOp.lastWindow] at hw
    cases hget : (Ngram.windows param data).getLast? with
    | none =>
      obtain rfl := hempty (List.getLast?_eq_none_iff.mp hget)
      rw [hget, Option.none_or] at hw
      exact h.contains w hw
    | some window =>
      rw [hget, Option.some_or] at hw
      exact hlast w (hget.trans hw)
  | reset =>
    obtain ⟨s', hrun, hlinked, hparam, hcapacity⟩ := reset_linked (s := s) (h.capacity ▸ hpos)
    exact ⟨s', hrun, hlinked, hparam.trans h.param, hcapacity.trans h.capacity,
      fun w hw => absurd hw (Option.not_mem_none w)⟩

theorem Holding.run (h : Holding param capacity last s) (hcap : param.branchLength ≤ capacity)
    (hpos : 0 < capacity) {ops : List NgramOp} (hfits : ∀ op ∈ ops, op.Fits param capacity) :
    ∃ s', ops.foldlM NgramOp.run s = .ok s' ∧
      Holding param capacity (ops.foldl (NgramOp.lastWindow param) last) s' := by
  induction ops generalizing s last with
  | nil => exact ⟨s, rfl, h⟩
  | cons op ops ih =>
    obtain ⟨t, hrun, ht⟩ := h.step hcap hpos (hfits op List.mem_cons_self)
    obtain ⟨s', hrest, hs'⟩ := ih ht fun op' hop => hfits op' (List.mem_cons_of_mem op hop)
    refine ⟨s', ?_, hs'⟩
    rw [List.foldlM_cons, hrun]
    exact hrest

/-- A full window in a pool of its size stops the run. -/
theorem Holding.step_fails (h : Holding param capacity last s) (hcap : param.branchLength = capacity)
    (hmin : param.minMatchWindowSize < param.branchLength) {data : List Int}
    (hdata : param.branchLength ≤ data.length) (s' : Ngram) : s.insert data ≠ .ok s' := by
  obtain ⟨rest, hwindows⟩ := windows_cons (show param.minMatchWindowSize < data.length by omega)
  rw [Ngram.insert, h.param, hwindows, List.foldlM_cons]
  intro hrun
  obtain ⟨t, ht, -⟩ := bind_ok hrun
  refine h.linked.insertWindow_fails ?_ ht
  rw [h.capacity, List.length_take]
  omega

theorem Holding.run_fails (h : Holding param capacity last s) (hcap : param.branchLength = capacity)
    (hmin : param.minMatchWindowSize < param.branchLength) {ops : List NgramOp} {data : List Int}
    (hmem : .insert data ∈ ops) (hdata : param.branchLength ≤ data.length) (s' : Ngram) :
    ops.foldlM NgramOp.run s ≠ .ok s' := by
  induction ops generalizing s last with
  | nil => cases hmem
  | cons op ops ih =>
    rw [List.foldlM_cons]
    intro hrun
    obtain ⟨t, ht, hrest⟩ := bind_ok hrun
    by_cases hfits : op.Fits param capacity
    · obtain ⟨t', ht', hholding⟩ := h.step (Nat.le_of_eq hcap) (by omega) hfits
      obtain rfl := Except.ok.inj (ht.symm.trans ht')
      rcases List.mem_cons.mp hmem with rfl | hmem
      · unfold NgramOp.Fits at hfits
        omega
      · exact ih hholding hmem hrest
    · cases op with
      | insert data' =>
        unfold NgramOp.Fits at hfits
        exact h.step_fails hcap hmin (show param.branchLength ≤ data'.length by omega) t ht
      | reset => exact hfits trivial

end Runs

/-! ## What the containers hold -/

theorem Linked.integrity {s : Ngram} (h : Linked s) : TrieIntegrity s := by
  have hchild : ∀ p ∈ s.root :: s.globalLru, ∀ c ∈ (s.nodes p).child.map Prod.snd,
      c ∈ s.globalLru ∧ (s.nodes c).parent = p := fun p hp c hc =>
    ⟨((h.node_ok p hp).mem_of_lru hc).1, ((h.node_ok p hp).mem_of_lru hc).2.1⟩
  refine ⟨h.partition, fun n hn => ?_, fun p hp => ?_, fun a ha b hb hab => h.order.ancestor_lt hb ha hab⟩
  · have hp := h.order.parent_mem n hn
    have hok := h.node_ok _ hp
    have hmem := h.mem_child n hn
    have hsnd : n ∈ (s.nodes (s.nodes n).parent).child.map Prod.snd := List.mem_map_of_mem hmem
    refine ⟨List.count_eq_one_of_mem h.order.nodup.of_cons hn, hp, ?_, ?_, ?_⟩
    · exact List.count_eq_one_of_mem (List.Nodup.of_map _ hok.keys) hmem
    · exact List.count_eq_one_of_mem (hok.lru_perm.nodup_iff.mpr hok.snd_nodup) (hok.lru_perm.mem_iff.mpr hsnd)
    · exact List.count_eq_one_of_mem (hok.sorted_perm.nodup_iff.mpr hok.snd_nodup)
        (hok.sorted_perm.mem_iff.mpr hsnd)
  · have hok := h.node_ok p hp
    exact ⟨hok.keys, hok.child_mem, fun c hc => hchild p hp c (hok.lru_perm.subset hc),
      fun c hc => hchild p hp c (hok.sorted_perm.subset hc), hok.sorted⟩

/-- After every step the trie is whole and holds the last window, and no step fails. -/
def TrieHolds (param : NgramParam) (s : Ngram) (ops : List NgramOp) : Prop :=
  ∀ front, front <+: ops → ∃ s', front.foldlM NgramOp.run s = .ok s' ∧ TrieIntegrity s' ∧
    ∀ window ∈ front.foldl (NgramOp.lastWindow param) none, (descend s'.nodes s'.root window).isSome

/-- The trie stays whole exactly when no window takes every place of the pool. -/
theorem trie_integrity {capacity : Nat} {param : NgramParam} {s : Ngram}
    (hs : Ngram.create capacity param = .ok s) (hcap : param.branchLength ≤ capacity) (ops : List NgramOp) :
    TrieHolds param s ops ↔
      (param.branchLength < capacity ∨ ∀ data, NgramOp.insert data ∈ ops → data.length < param.branchLength) := by
  obtain ⟨hholding, hmin⟩ := create_holding hs
  constructor
  · intro hruns
    by_contra hnot
    rw [not_or, not_forall] at hnot
    obtain ⟨hle, data, hdata⟩ := hnot
    rw [Classical.not_imp] at hdata
    obtain ⟨s', hrun, -⟩ := hruns ops (List.prefix_refl ops)
    exact hholding.run_fails (by omega) hmin hdata.1 (by omega) s' hrun
  · intro hroom front hfront
    obtain ⟨s', hrun, hs'⟩ := hholding.run hcap (by omega) (show ∀ op ∈ front, op.Fits param capacity by
      intro op hop
      cases op with
      | insert data => exact hroom.imp_right fun hall => hall data (hfront.subset hop)
      | reset => trivial)
    exact ⟨s', hrun, hs'.linked.integrity, hs'.contains⟩

/-! ### A pool of one window -/

/-- Windows of three tokens. -/
def threeTokens : NgramParam := ⟨1, 1, 1, 2, 3, 3, "BFS", [], []⟩

/-- A new cache for windows of three tokens. -/
def threeTokenCache (capacity : Nat) : Ngram :=
  (Ngram.create capacity threeTokens).toOption.getD ⟨threeTokens, capacity, fun _ => .empty, [], 0, [], 0, []⟩

theorem trie_integrity_four :
    TrieHolds threeTokens (threeTokenCache 4) [.insert [7, 8, 9, 7], .reset, .insert [8, 8]] :=
  (trie_integrity (show Ngram.create 4 threeTokens = .ok (threeTokenCache 4) from rfl) (by decide) _).mpr
    (Or.inl (by decide))

/-- The first full window evicts from an empty list. -/
theorem full_window_overflows : Ngram.create 3 threeTokens = .ok (threeTokenCache 3) ∧
    threeTokens.branchLength ≤ 3 ∧ (threeTokenCache 3).insert [7, 8, 9] = .error .undefined ∧
    ¬TrieHolds threeTokens (threeTokenCache 3) [.insert [7, 8, 9]] := by
  have hrun : (threeTokenCache 3).insert [7, 8, 9] = .error .undefined := rfl
  refine ⟨rfl, by decide, hrun, fun h => ?_⟩
  obtain ⟨s', hok, -⟩ := h _ (List.prefix_refl _)
  rw [List.foldlM_cons, NgramOp.run, hrun] at hok
  cases hok

end QCFuse.Guarantees
