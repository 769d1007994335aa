import QCFuse.Source.SchedulePolicy
import QCFuse.Guarantees.RadixMeaning
import Mathlib.Data.List.Sort

/-!
# The waiting queue keeps subtrees together

What a match returns stays a node of the tree while later matches split others. The walk then
appends a subtree's requests as one run, and a run of a child lies within its parent's.
-/

set_option autoImplicit false

namespace QCFuse.Guarantees

open QCFuse.Library QCFuse.Source

variable {Tok : Type}

/-- A node with its children. -/
abbrev Entry (Tok : Type) := TreeNode Tok × Children Tok

/-- The nodes of a subtree. -/
def subtreeIds (e : Entry Tok) : List Nat := e.1.id :: ids e.2

theorem ids_eq_entries (f : Children Tok) : ids f = f.entries.flatMap subtreeIds := by
  rw [ids, Forest.nodes_eq_entries, List.map_flatMap]
  rfl

theorem nodup_cons {childKey : ChildKey Tok} {child : TreeNode Tok} {below rest : Children Tok}
    (h : (ids (.cons childKey child below rest)).Nodup) : (child.id ∉ ids below ∧ child.id ∉ ids rest) ∧
      (ids below).Nodup ∧ (ids rest).Nodup ∧ List.Disjoint (ids below) (ids rest) := by
  rw [ids_cons] at h
  obtain ⟨hchild, hnodup⟩ := List.nodup_cons.mp h
  rw [List.mem_append] at hchild
  push Not at hchild
  exact ⟨hchild, List.nodup_append'.mp hnodup⟩

/-! ## The requests by last node -/

section Buckets

variable {queue : List MatchedReq}

theorem lastNodeToReqs_eq (node : Nat) :
    lastNodeToReqs queue node = queue.filter fun r => decide (r.lastNode = node) := by
  have hloop : ∀ (queue : List MatchedReq) (reqs : Nat → List MatchedReq),
      queue.foldl (fun reqs req => Function.update reqs req.lastNode (reqs req.lastNode ++ [req])) reqs node =
        reqs node ++ queue.filter fun r => decide (r.lastNode = node) := by
    intro queue
    induction queue with
    | nil => exact fun reqs => (List.append_nil _).symm
    | cons r queue ih =>
      intro reqs
      rw [List.foldl_cons, ih]
      by_cases h : r.lastNode = node
      · subst h
        simp
      · simp [h, Function.update_of_ne (Ne.symm h)]
  exact hloop queue _

theorem mem_lastNodeToReqs {r : MatchedReq} {node : Nat} :
    r ∈ lastNodeToReqs queue node ↔ r ∈ queue ∧ r.lastNode = node := by
  rw [lastNodeToReqs_eq, List.mem_filter, decide_eq_true_iff]

/-- The requests whose last node is one of those. -/
def within (nodes : List Nat) (queue : List MatchedReq) : List MatchedReq :=
  queue.filter fun r => decide (r.lastNode ∈ nodes)

theorem mem_within {r : MatchedReq} {nodes : List Nat} :
    r ∈ within nodes queue ↔ r ∈ queue ∧ r.lastNode ∈ nodes := by
  rw [within, List.mem_filter, decide_eq_true_iff]

theorem within_append {xs ys : List Nat} (h : List.Disjoint xs ys) :
    (within xs queue ++ within ys queue).Perm (within (xs ++ ys) queue) := by
  refine List.Perm.trans ?_ (List.filter_append_perm (fun r => decide (r.lastNode ∈ xs)) _)
  rw [within, within, within, List.filter_filter, List.filter_filter]
  refine List.Perm.of_eq (congrArg₂ _ ?_ ?_)
  · refine List.filter_congr fun r _ => ?_
    by_cases hx : r.lastNode ∈ xs <;> simp [hx]
  · refine List.filter_congr fun r _ => ?_
    by_cases hx : r.lastNode ∈ xs
    · have hy : r.lastNode ∉ ys := h hx
      simp [hx, hy]
    · simp [hx]

theorem within_single (node : Nat) : within [node] queue = lastNodeToReqs queue node := by
  rw [lastNodeToReqs_eq, within]
  exact List.filter_congr fun r _ => by simp

theorem sum_lastNodeToReqs {nodes : List Nat} (h : nodes.Nodup) :
    (nodes.map fun node => (lastNodeToReqs queue node).length).sum = (within nodes queue).length := by
  induction nodes with
  | nil => simp [within]
  | cons node nodes ih =>
    obtain ⟨hnot, hnodup⟩ := List.nodup_cons.mp h
    have hsplit : (within [node] queue ++ within nodes queue).Perm (within ([node] ++ nodes) queue) :=
      within_append (List.singleton_disjoint.mpr hnot)
    rw [List.map_cons, List.sum_cons, ih hnodup, ← within_single, ← List.length_append]
    exact hsplit.length_eq

end Buckets

/-! ## The weights -/

section Weights

variable {f : Children Tok} {cur : Nat} {weight : Nat → Nat}

/-- A node's weight, once its children are added to its own. -/
def subtreeWeight (weight : Nat → Nat) (e : Entry Tok) : Nat := ((subtreeIds e).map weight).sum

theorem calcWeight_other {i : Nat} (hcur : i ≠ cur) (hi : i ∉ ids f) : calcWeight cur f weight i = weight i := by
  induction f generalizing cur weight with
  | nil => rfl
  | cons _ child below rest ihb ihr =>
    rw [ids_cons, List.mem_cons, List.mem_append] at hi
    push Not at hi
    rw [calcWeight, ihr hcur hi.2.2, Function.update_of_ne hcur, ihb hi.1 hi.2.1]

theorem calcWeight_self (hcur : cur ∉ ids f) (hnodup : (ids f).Nodup) :
    calcWeight cur f weight cur = weight cur + ((ids f).map weight).sum := by
  induction f generalizing cur weight with
  | nil => rfl
  | cons _ child below rest ihb ihr =>
    rw [ids_cons, List.mem_cons, List.mem_append] at hcur
    push Not at hcur
    obtain ⟨hchild, hbelow, hrest, hapart⟩ := nodup_cons hnodup
    rw [calcWeight, ihr hcur.2.2 hrest, Function.update_self, calcWeight_other hcur.1 hcur.2.1,
      ihb hchild.1 hbelow, ids_cons, List.map_cons, List.map_append, List.sum_cons, List.sum_append]
    have hkept : ∀ i ∈ ids rest, Function.update (calcWeight child.id below weight) cur
        (weight cur + (weight child.id + ((ids below).map weight).sum)) i = weight i := by
      intro i hi
      rw [Function.update_of_ne (ne_of_mem_of_not_mem hi hcur.2.2),
        calcWeight_other (ne_of_mem_of_not_mem hi hchild.2) fun h => hapart h hi]
    rw [List.map_congr_left hkept]
    omega

/-- Every node below ends with its own weight and those of the nodes below it. -/
theorem calcWeight_under {e : Entry Tok} (he : f.Under e) (hcur : cur ∉ ids f) (hnodup : (ids f).Nodup) :
    calcWeight cur f weight e.1.id = subtreeWeight weight e := by
  induction f generalizing cur weight with
  | nil => cases he with
    | child h => cases h
    | deeper h => cases h
  | cons _ child below rest ihb ihr =>
    rw [ids_cons, List.mem_cons, List.mem_append] at hcur
    push Not at hcur
    obtain ⟨hchild, hbelow, hrest, hapart⟩ := nodup_cons hnodup
    have hin : ∀ {g : Children Tok}, g.Under e → ∀ i ∈ subtreeIds e, i ∈ ids g := by
      intro g hg i hi
      obtain ⟨d, hd, rfl⟩ := List.mem_map.mp (show i ∈ (e.1 :: e.2.nodes).map (·.id) from hi)
      exact List.mem_map_of_mem (hg.subset d hd)
    have hself : e.1.id ∈ subtreeIds e := List.mem_cons_self
    rw [calcWeight]
    rcases Forest.under_cons he with rfl | he | he
    · rw [calcWeight_other (Ne.symm hcur.1) hchild.2, Function.update_of_ne (Ne.symm hcur.1),
        calcWeight_self hchild.1 hbelow]
      rfl
    · have hmem := hin he _ hself
      rw [calcWeight_other (ne_of_mem_of_not_mem hmem hcur.2.1) (fun h => hapart hmem h),
        Function.update_of_ne (ne_of_mem_of_not_mem hmem hcur.2.1), ihb he hchild.1 hbelow]
    · rw [ihr he hcur.2.2 hrest]
      refine congrArg List.sum (List.map_congr_left fun i hi => ?_)
      have hmem := hin he i hi
      rw [Function.update_of_ne (ne_of_mem_of_not_mem hmem hcur.2.2),
        calcWeight_other (ne_of_mem_of_not_mem hmem hchild.2) fun h => hapart h hmem]

end Weights

/-! ## The walk -/

section Walk

variable {weight : Nat → Nat} {queue q : List MatchedReq} {f : Children Tok} {e : Entry Tok}

/-- What the walk of a subtree appends. -/
abbrev subtreeRun (weight : Nat → Nat) (queue : List MatchedReq) (e : Entry Tok) : List MatchedReq :=
  getDfsPriority weight (lastNodeToReqs queue) e.1.id e.2

/-- The entries of a dictionary in the order in which they are walked. -/
def walkOrder (weight : Nat → Nat) (f : Children Tok) : List (Entry Tok) :=
  f.entries.mergeSort fun a b => decide (weight b.1.id ≤ weight a.1.id)

theorem walkOrder_pairwise : (walkOrder weight f).Pairwise fun a b => weight b.1.id ≤ weight a.1.id := by
  refine (List.pairwise_mergeSort ?_ ?_ f.entries).imp fun h => of_decide_eq_true h
  · intro a b c hab hbc
    exact decide_eq_true ((of_decide_eq_true hbc).trans (of_decide_eq_true hab))
  · intro a b
    rw [Bool.or_eq_true, decide_eq_true_iff, decide_eq_true_iff]
    exact le_total _ _

theorem walkOrder_perm : (walkOrder weight f).Perm f.entries := List.mergeSort_perm _ _

theorem dfsRuns_eq (reqs : Nat → List MatchedReq) :
    dfsRuns weight reqs f = f.entries.map fun e => (e.1.id, getDfsPriority weight reqs e.1.id e.2) := by
  induction f with
  | nil => rfl
  | cons _ child below rest _ ihr =>
    rw [dfsRuns, ihr]
    rfl

theorem heaviestFirst_eq : heaviestFirst weight (dfsRuns weight (lastNodeToReqs queue) f) =
    (walkOrder weight f).flatMap (subtreeRun weight queue) := by
  rw [heaviestFirst, dfsRuns_eq, ← List.map_mergeSort, List.flatMap_map]
  · rfl
  · exact fun a _ b _ => rfl

/-- A walk appends each request below once. -/
theorem heaviestFirst_perm (hnodup : (ids f).Nodup) :
    (heaviestFirst weight (dfsRuns weight (lastNodeToReqs queue) f)).Perm (within (ids f) queue) := by
  have hrest : ∀ f : Children Tok, (heaviestFirst weight (dfsRuns weight (lastNodeToReqs queue) f)).Perm
      ((dfsRuns weight (lastNodeToReqs queue) f).flatMap (·.2)) :=
    fun f => (List.mergeSort_perm _ _).flatMap_right _
  refine (hrest f).trans ?_
  induction f with
  | nil => exact List.Perm.of_eq (by simp [dfsRuns, within])
  | cons _ child below rest ihb ihr =>
    obtain ⟨hchild, hbelow, hnodup, hapart⟩ := nodup_cons hnodup
    have hown : List.Disjoint (ids below) [child.id] := List.disjoint_singleton.mpr hchild.1
    rw [dfsRuns, List.flatMap_cons, ids_cons]
    calc (heaviestFirst weight (dfsRuns weight (lastNodeToReqs queue) below) ++
          lastNodeToReqs queue child.id ++ (dfsRuns weight (lastNodeToReqs queue) rest).flatMap (·.2)).Perm
          (within (ids below) queue ++ within [child.id] queue ++ within (ids rest) queue) := by
          rw [within_single]
          exact (((hrest below).trans (ihb hbelow)).append_right _).append (ihr hnodup)
      List.Perm _ (within (ids below ++ [child.id]) queue ++ within (ids rest) queue) :=
        (within_append hown).append_right _
      List.Perm _ (within ((ids below ++ [child.id]) ++ ids rest) queue) :=
        within_append (List.disjoint_append_left.mpr ⟨hapart, List.singleton_disjoint.mpr hchild.2⟩)
      _ = within (child.id :: (ids below ++ ids rest)) queue := by
        refine List.filter_congr fun r _ => ?_
        simp only [List.mem_append, List.mem_cons, List.not_mem_nil, or_false, decide_eq_decide]
        tauto

theorem subtreeRun_perm (hnodup : (subtreeIds e).Nodup) :
    (subtreeRun weight queue e).Perm (within (subtreeIds e) queue) := by
  obtain ⟨hnot, hnodup⟩ := List.nodup_cons.mp hnodup
  refine List.Perm.trans ?_ (within_append (List.singleton_disjoint.mpr hnot))
  rw [within_single]
  exact ((heaviestFirst_perm hnodup).append_right _).trans List.perm_append_comm

theorem mem_subtreeRun {r : MatchedReq} (hnodup : (subtreeIds e).Nodup) (hr : r ∈ subtreeRun weight queue e) :
    r.lastNode ∈ subtreeIds e :=
  (mem_within.mp ((subtreeRun_perm hnodup).mem_iff.mp hr)).2

theorem nodup_entry (hnodup : (ids f).Nodup) (he : e ∈ f.entries) : (subtreeIds e).Nodup := by
  rw [ids_eq_entries] at hnodup
  exact (List.nodup_flatMap.mp hnodup).1 e he

theorem nodup_under (hnodup : (ids f).Nodup) (he : f.Under e) : (subtreeIds e).Nodup := by
  induction he with
  | child he => exact nodup_entry hnodup he
  | deeper he _ ih => exact ih (List.nodup_cons.mp (nodup_entry hnodup he)).2

/-- The run stands in the queue, and nothing else there ends at the nodes. -/
def Placed (q : List MatchedReq) (nodes : List Nat) (run : List MatchedReq) : Prop :=
  ∃ before after, q = before ++ run ++ after ∧ ∀ r ∈ before ++ after, r.lastNode ∉ nodes

theorem Placed.within_eq {nodes : List Nat} {run : List MatchedReq} (h : Placed q nodes run)
    (hrun : ∀ r ∈ run, r.lastNode ∈ nodes) : within nodes q = run := by
  obtain ⟨before, after, rfl, hout⟩ := h
  have hnone : ∀ part : List MatchedReq, (∀ r ∈ part, r ∈ before ++ after) → within nodes part = [] :=
    fun part hpart => List.filter_eq_nil_iff.mpr fun r hr => by simpa using hout r (hpart r hr)
  have hall : within nodes run = run := List.filter_eq_self.mpr fun r hr => decide_eq_true (hrun r hr)
  have hsplit : within nodes (before ++ run ++ after) =
      within nodes before ++ within nodes run ++ within nodes after := by
    rw [within, List.filter_append, List.filter_append]
    rfl
  rw [hsplit, hall, hnone before fun r hr => List.mem_append_left _ hr,
    hnone after fun r hr => List.mem_append_right _ hr, List.nil_append, List.append_nil]

theorem Placed.below (h : Placed q (subtreeIds e) (subtreeRun weight queue e)) (hnodup : (subtreeIds e).Nodup) :
    Placed q (ids e.2) (heaviestFirst weight (dfsRuns weight (lastNodeToReqs queue) e.2)) := by
  obtain ⟨before, after, hq, hout⟩ := h
  refine ⟨before, lastNodeToReqs queue e.1.id ++ after, ?_, ?_⟩
  · rw [hq, subtreeRun, getDfsPriority]
    simp only [List.append_assoc]
  · intro r hr hmem
    rcases List.mem_append.mp hr with hr | hr
    · exact hout r (List.mem_append_left _ hr) (List.mem_cons_of_mem _ hmem)
    · rcases List.mem_append.mp hr with hr | hr
      · rw [(mem_lastNodeToReqs.mp hr).2] at hmem
        exact (List.nodup_cons.mp hnodup).1 hmem
      · exact hout r (List.mem_append_right _ hr) (List.mem_cons_of_mem _ hmem)

theorem Placed.entry (h : Placed q (ids f) (heaviestFirst weight (dfsRuns weight (lastNodeToReqs queue) f)))
    (hnodup : (ids f).Nodup) (he : e ∈ f.entries) : Placed q (subtreeIds e) (subtreeRun weight queue e) := by
  obtain ⟨before, after, hq, hout⟩ := h
  have hwalked : e ∈ walkOrder weight f := walkOrder_perm.mem_iff.mpr he
  obtain ⟨first, last, horder⟩ := List.append_of_mem hwalked
  have hids : (((first ++ e :: last).flatMap subtreeIds)).Nodup := by
    rw [← horder, (walkOrder_perm.flatMap_right subtreeIds).nodup_iff, ← ids_eq_entries]
    exact hnodup
  rw [List.flatMap_append, List.flatMap_cons] at hids
  obtain ⟨-, hids, hfirst⟩ := List.nodup_append'.mp hids
  obtain ⟨-, -, hlast⟩ := List.nodup_append'.mp hids
  have hsub : ∀ i ∈ subtreeIds e, i ∈ ids f := by
    intro i hi
    rw [ids_eq_entries]
    exact List.mem_flatMap.mpr ⟨e, he, hi⟩
  have hother : ∀ part : List (Entry Tok), (∀ a ∈ part, a ∈ walkOrder weight f) →
      ∀ r ∈ part.flatMap (subtreeRun weight queue), r.lastNode ∈ part.flatMap subtreeIds := by
    intro part hpart r hr
    obtain ⟨a, ha, hr⟩ := List.mem_flatMap.mp hr
    exact List.mem_flatMap.mpr ⟨a, ha, mem_subtreeRun (nodup_entry hnodup (walkOrder_perm.mem_iff.mp (hpart a ha))) hr⟩
  have hpart : ∀ a ∈ first ++ e :: last, a ∈ walkOrder weight f := fun a ha => horder ▸ ha
  refine ⟨before ++ first.flatMap (subtreeRun weight queue), last.flatMap (subtreeRun weight queue) ++ after, ?_, ?_⟩
  · rw [hq, heaviestFirst_eq, horder, List.flatMap_append, List.flatMap_cons]
    simp only [List.append_assoc]
  · intro r hr hmem
    rcases List.mem_append.mp hr with hr | hr
    · rcases List.mem_append.mp hr with hr | hr
      · exact hout r (List.mem_append_left _ hr) (hsub _ hmem)
      · exact hfirst (hother first (fun a ha => hpart a (List.mem_append_left _ ha)) r hr)
          (List.mem_append_left _ hmem)
    · rcases List.mem_append.mp hr with hr | hr
      · exact hlast hmem (hother last
          (fun a ha => hpart a (List.mem_append_right _ (List.mem_cons_of_mem _ ha))) r hr)
      · exact hout r (List.mem_append_right _ hr) (hsub _ hmem)

theorem Placed.under (h : Placed q (ids f) (heaviestFirst weight (dfsRuns weight (lastNodeToReqs queue) f)))
    (hnodup : (ids f).Nodup) (he : f.Under e) : Placed q (subtreeIds e) (subtreeRun weight queue e) := by
  induction he with
  | child he => exact h.entry hnodup he
  | deeper he _ ih =>
    have hentry := nodup_entry hnodup he
    exact ih ((h.entry hnodup he).below hentry) (List.nodup_cons.mp hentry).2

end Walk

/-! ## The order of the queue -/

/-- The requests within a subtree stand together: those of the children's subtrees, in an order of
the children by falling numbers of requests, then the node's own as they stood. -/
structure SubtreeTogether (matched q : List MatchedReq) (e : Entry Tok) : Prop where
  contiguous : ∃ before after, q = before ++ within (subtreeIds e) q ++ after
  ordered : ∃ order : List (Entry Tok), order.Perm e.2.entries ∧
    (order.Pairwise fun a b => (within (subtreeIds b) q).length ≤ (within (subtreeIds a) q).length) ∧
    within (subtreeIds e) q = (order.flatMap fun a => within (subtreeIds a) q) ++
      matched.filter fun r => decide (r.lastNode = e.1.id)

section Ordered

variable {queue : List MatchedReq} {c : RadixCache Tok} {e : Entry Tok}

/-- The node, with its children, is in the tree. -/
def InTree (c : RadixCache Tok) (e : Entry Tok) : Prop :=
  e = (c.rootNode, c.children) ∨ c.children.Under e

/-- Node objects are distinct, and older than the next one. -/
structure NodesApart (c : RadixCache Tok) : Prop where
  nodup : (c.rootNode.id :: ids c.children).Nodup
  old : ∀ i ∈ c.rootNode.id :: ids c.children, i < c.counter

theorem RadixInv.nodesApart {holds : List Nat} (h : RadixInv holds c) : NodesApart c where
  nodup := List.nodup_cons.mpr ⟨h.rootApart, h.idsNodup⟩
  old := fun i hi => (List.mem_cons.mp hi).elim (fun hroot => hroot ▸ h.rootOld) (h.idsOld i)

theorem sortByDfsWeight_perm (h : NodesApart c)
    (hin : ∀ r ∈ queue, r.lastNode ∈ c.rootNode.id :: ids c.children) :
    (sortByDfsWeight queue c).Perm queue := by
  refine (subtreeRun_perm (e := (c.rootNode, c.children)) h.nodup).trans (List.Perm.of_eq ?_)
  exact List.filter_eq_self.mpr fun r hr => decide_eq_true (hin r hr)

theorem subtreeTogether (h : NodesApart c)
    (hin : ∀ r ∈ queue, r.lastNode ∈ c.rootNode.id :: ids c.children) (he : InTree c e) :
    SubtreeTogether queue (sortByDfsWeight queue c) e := by
  obtain ⟨hroot, hnodup⟩ := List.nodup_cons.mp h.nodup
  set q := sortByDfsWeight queue c with hq
  set weight := calcWeight c.rootNode.id c.children fun node => (lastNodeToReqs queue node).length with hweight
  have hperm : q.Perm queue := sortByDfsWeight_perm h hin
  have hall : Placed q (subtreeIds (c.rootNode, c.children)) (subtreeRun weight queue (c.rootNode, c.children)) :=
    ⟨[], [], by rw [List.nil_append, List.append_nil]; rfl, fun r hr => by cases hr⟩
  have hplaced : ∀ {a : Entry Tok}, c.children.Under a → Placed q (subtreeIds a) (subtreeRun weight queue a) :=
    fun ha => (hall.below h.nodup).under hnodup ha
  have hwithin : ∀ {a : Entry Tok}, c.children.Under a → within (subtreeIds a) q = subtreeRun weight queue a :=
    fun ha => (hplaced ha).within_eq fun r hr => mem_subtreeRun (nodup_under hnodup ha) hr
  have hheavy : ∀ {a : Entry Tok}, c.children.Under a → weight a.1.id = (within (subtreeIds a) q).length := by
    intro a ha
    rw [hweight, calcWeight_under ha hroot hnodup, subtreeWeight, sum_lastNodeToReqs (nodup_under hnodup ha)]
    exact (hperm.symm.filter _).length_eq
  have hentry : Placed q (subtreeIds e) (subtreeRun weight queue e) ∧ (subtreeIds e).Nodup ∧
      ∀ a ∈ e.2.entries, c.children.Under a := by
    rcases he with rfl | he
    · exact ⟨hall, h.nodup, fun a ha => .child ha⟩
    · refine ⟨hplaced he, nodup_under hnodup he, fun a ha => ?_⟩
      exact Forest.Under.trans he (.child ha)
  obtain ⟨hhere, hnodupe, hchildren⟩ := hentry
  have hself := hhere.within_eq fun r hr => mem_subtreeRun hnodupe hr
  have horder : ∀ a ∈ walkOrder weight e.2, c.children.Under a :=
    fun a ha => hchildren a (walkOrder_perm.mem_iff.mp ha)
  refine ⟨?_, walkOrder weight e.2, walkOrder_perm, ?_, ?_⟩
  · obtain ⟨before, after, hq, _⟩ := hhere
    exact ⟨before, after, by rw [hself]; exact hq⟩
  · refine walkOrder_pairwise.imp_of_mem fun {a b} ha hb hab => ?_
    rw [← hheavy (horder a ha), ← hheavy (horder b hb)]
    exact hab
  · rw [hself, subtreeRun, getDfsPriority, heaviestFirst_eq, lastNodeToReqs_eq]
    exact congrArg (· ++ _) (List.flatMap_congr fun a ha => (hwithin (horder a ha)).symm)

end Ordered

/-! ## The matches -/

section Matches

variable [DecidableEq Tok] {c : RadixCache Tok}

/-- A match leaves every node where it is found by its id, may add one, and ends at a node. -/
theorem matchPrefixHelper_ids (pageSize newId : Nat) (f : Children Tok) (now : Int) (key : RadixKey Tok) :
    ((ids (matchPrefixHelper pageSize newId now key f).2.2).Perm (ids f) ∨
      (ids (matchPrefixHelper pageSize newId now key f).2.2).Perm (newId :: ids f)) ∧
    ∀ i ∈ (matchPrefixHelper pageSize newId now key f).2.1,
      i ∈ ids (matchPrefixHelper pageSize newId now key f).2.2 := by
  induction f generalizing now key with
  | nil => exact ⟨.inl (List.Perm.refl _), fun i hi => by cases hi⟩
  | cons childKey child below rest ihb ihr =>
    unfold matchPrefixHelper
    by_cases hfound : childKey = getChildKey pageSize key
    · rw [if_pos hfound]
      by_cases hshort : keyMatch pageSize child.key key < child.key.len
      · simp only [if_pos hshort]
        refine ⟨.inr ?_, fun i hi => ?_⟩
        · simp [splitNode, TreeNode.touch]
        · cases hi
          exact List.mem_cons_self
      · by_cases hmore : (key.drop (keyMatch pageSize child.key key)).tokenIds = []
        · simp only [if_neg hshort, if_pos hmore]
          refine ⟨.inl (List.Perm.refl _), fun i hi => ?_⟩
          cases hi
          exact List.mem_cons_self
        · simp only [if_neg hshort, if_neg hmore]
          obtain ⟨hperm, hlast⟩ := ihb (now + 1) (key.drop (keyMatch pageSize child.key key))
          refine ⟨hperm.imp (fun h => ?_) fun h => ?_, fun i hi => ?_⟩
          · rw [ids_cons, ids_cons]
            exact (h.append_right _).cons _
          · rw [ids_cons, ids_cons]
            exact ((h.append_right _).cons _).trans (List.Perm.swap _ _ _)
          · cases hi
            rw [ids_cons]
            cases hend : (matchPrefixHelper pageSize newId (now + 1)
              (key.drop (keyMatch pageSize child.key key)) below).2.1 with
            | none => exact List.mem_cons_self
            | some j => exact List.mem_cons_of_mem _ (List.mem_append_left _ (hlast j hend))
    · rw [if_neg hfound]
      obtain ⟨hperm, hlast⟩ := ihr now key
      refine ⟨hperm.imp (fun h => ?_) fun h => ?_, fun i hi => ?_⟩
      · rw [ids_cons, ids_cons]
        exact (h.append_left _).cons _
      · rw [ids_cons, ids_cons]
        refine List.Perm.trans ((h.append_left _).cons _) ?_
        exact (List.perm_middle.cons _).trans (List.Perm.swap _ _ _)
      · rw [ids_cons]
        exact List.mem_cons_of_mem _ (List.mem_append_right _ (hlast i hi))

/-- After a match the nodes of before are still there, and the node returned is one of the tree. -/
theorem NodesApart.matchPrefix (h : NodesApart c) (now : Int) (key : RadixKey Tok) :
    NodesApart (c.matchPrefix now key).2 ∧
      (∀ i ∈ c.rootNode.id :: ids c.children,
        i ∈ (c.matchPrefix now key).2.rootNode.id :: ids (c.matchPrefix now key).2.children) ∧
      (c.matchPrefix now key).1.lastDeviceNode ∈
        (c.matchPrefix now key).2.rootNode.id :: ids (c.matchPrefix now key).2.children := by
  rw [RadixCache.matchPrefix]
  dsimp only
  split
  · exact ⟨h, fun _ => id, List.mem_cons_self⟩
  · obtain ⟨hids, hlast⟩ := matchPrefixHelper_ids c.pageSize c.counter c.children (now + 1)
      (key.take (key.len / c.pageSize * c.pageSize))
    set result := matchPrefixHelper c.pageSize c.counter (now + 1)
      (key.take (key.len / c.pageSize * c.pageSize)) c.children
    refine ⟨?_, ?_, ?_⟩
    · rcases hids with hids | hids
      · refine ⟨(hids.cons _).nodup_iff.mpr h.nodup, fun i hi => Nat.lt_add_right _ ?_⟩
        exact h.old i ((hids.cons _).mem_iff.mp hi)
      · have hfresh : c.counter ∉ c.rootNode.id :: ids c.children := fun hmem => (h.old _ hmem).false
        have hperm := (hids.cons c.rootNode.id).trans (List.Perm.swap _ _ _)
        refine ⟨hperm.nodup_iff.mpr (List.nodup_cons.mpr ⟨hfresh, h.nodup⟩), fun i hi => ?_⟩
        have hlen := hids.length_eq
        simp only [ids, List.length_cons, List.length_map] at hlen
        show i < c.counter + (result.2.2.nodes.length - c.children.nodes.length)
        rcases List.mem_cons.mp (hperm.mem_iff.mp hi) with rfl | hi
        · omega
        · have := h.old i hi
          omega
    · intro i hi
      refine (List.mem_cons.mp hi).elim (fun hroot => hroot ▸ List.mem_cons_self) fun hi => ?_
      refine List.mem_cons_of_mem _ ?_
      rcases hids with hids | hids
      · exact hids.mem_iff.mpr hi
      · exact hids.mem_iff.mpr (List.mem_cons_of_mem _ hi)
    · cases hend : result.2.1 with
      | none => exact List.mem_cons_self
      | some i => exact List.mem_cons_of_mem _ (hlast i hend)

/-- The loop after some passes. -/
structure Matched (queue : List WaitingReq) (s : PrefixMatches Tok) : Prop where
  reqs : s.matched.map (·.req) = queue
  apart : NodesApart s.treeCache
  found : ∀ r ∈ s.matched, r.lastNode ∈ s.treeCache.rootNode.id :: ids s.treeCache.children

theorem Matched.matchReq {queue : List WaitingReq} {s : PrefixMatches Tok} (h : Matched queue s)
    (keyConvert : List Int → List Tok) (thresholds : InBatchThresholds) (clock : Nat → Int) (r : WaitingReq) :
    Matched (queue ++ [r]) (s.matchReq keyConvert thresholds clock r) := by
  obtain ⟨hapart, hkept, hlast⟩ := h.apart.matchPrefix (clock 0)
    ⟨keyConvert (r.originInputIds ++ r.outputIds), r.extraKey⟩
  set result := s.treeCache.matchPrefix (clock 0) ⟨keyConvert (r.originInputIds ++ r.outputIds), r.extraKey⟩
    with hresult
  have hmatched : (s.matchReq keyConvert thresholds clock r).matched =
      s.matched ++ [⟨r, result.1.deviceIndices, result.1.lastDeviceNode⟩] := by
    simp only [PrefixMatches.matchReq]
    split
    · split <;> rfl
    · rfl
  have htree : (s.matchReq keyConvert thresholds clock r).treeCache = result.2 := by
    simp only [PrefixMatches.matchReq]
    split
    · split <;> rfl
    · rfl
  refine ⟨?_, htree ▸ hapart, ?_⟩
  · rw [hmatched, List.map_append, h.reqs]
    rfl
  · intro m hm
    rw [htree]
    rw [hmatched] at hm
    rcases List.mem_append.mp hm with hm | hm
    · exact hkept _ (h.found m hm)
    · rw [List.mem_singleton.mp hm]
      exact hlast

theorem computePrefixMatches_matched (keyConvert : List Int → List Tok) (thresholds : InBatchThresholds)
    (clock : Nat → Nat → Int) (queue : List WaitingReq) (h : NodesApart c) :
    Matched queue (computePrefixMatches keyConvert thresholds clock queue c) := by
  have hloop : ∀ (queue before : List WaitingReq) (s : PrefixMatches Tok), Matched before s →
      Matched (before ++ queue) (queue.foldl
        (fun s r => s.matchReq keyConvert thresholds (clock (s.matched.length + 1)) r) s) := by
    intro queue
    induction queue with
    | nil => exact fun before s hs => (List.append_nil before).symm ▸ hs
    | cons r queue ih =>
      intro before s hs
      have hstep := ih _ _ (hs.matchReq keyConvert thresholds (clock (s.matched.length + 1)) r)
      rwa [List.append_assoc] at hstep
  exact hloop queue [] _ ⟨rfl, h, fun r hr => by cases hr⟩

/-- Whatever the tree and the queue, the queue in depth-first order has every request once, and each
subtree's requests together. -/
theorem dfs_order_keeps_subtrees_together (keyConvert : List Int → List Tok) (thresholds : InBatchThresholds)
    (clock : Nat → Nat → Int) (waitingQueue : List WaitingReq) (treeCache : RadixCache Tok)
    (h : NodesApart treeCache) :
    let s := computePrefixMatches keyConvert thresholds clock waitingQueue treeCache
    let q := sortByDfsWeight s.matched s.treeCache
    s.matched.map (·.req) = waitingQueue ∧ q.Perm s.matched ∧
      ∀ e : Entry Tok, InTree s.treeCache e → SubtreeTogether s.matched q e := by
  intro s q
  have hs := computePrefixMatches_matched keyConvert thresholds clock waitingQueue h
  exact ⟨hs.reqs, sortByDfsWeight_perm hs.apart hs.found,
    fun e he => subtreeTogether hs.apart hs.found he⟩

/-- A tree with one key, which the second of these requests splits. -/
def oneKeyTree : RadixCache Int :=
  ((RadixCache.reset 1 Nat.one_pos .lru 0).insert 1 ⟨[1, 2, 3], none⟩ [10, 11, 12]).2

def splittingQueue : List WaitingReq :=
  [⟨"a", [7], [], none⟩, ⟨"b", [1, 2, 3, 4], [], none⟩, ⟨"c", [1, 2, 9], [], none⟩, ⟨"d", [1, 2, 3], [5], none⟩]

theorem dfs_order_keeps_subtrees_together_splitting :
    NodesApart oneKeyTree ∧
      let s := computePrefixMatches id ⟨32, 32⟩ (fun turn call => turn * 3 + call) splittingQueue oneKeyTree
      let q := sortByDfsWeight s.matched s.treeCache
      s.matched.map (·.req) = splittingQueue ∧ q.Perm s.matched ∧
        ∀ e : Entry Int, InTree s.treeCache e → SubtreeTogether s.matched q e := by
  have h : NodesApart oneKeyTree := ⟨by decide, by decide⟩
  exact ⟨h, dfs_order_keeps_subtrees_together id ⟨32, 32⟩ _ splittingQueue oneKeyTree h⟩

end Matches

end QCFuse.Guarantees
