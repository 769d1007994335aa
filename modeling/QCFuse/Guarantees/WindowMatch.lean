import QCFuse.Source.SwaRadixCache

/-!
# The window behind a match

The counter of the walk falls back to zero only at a tombstone it reaches with a full window. It counts the
live tokens below the last such tombstone, so the match is the deepest usable node exactly when the live
tokens below that node are fewer than the window.
-/

set_option autoImplicit false

namespace QCFuse.Guarantees

open QCFuse.Library QCFuse.Source

section Paths

variable {Tok : Type}

def nodeTokens (nodes : List (SwaTreeNode Tok)) : Nat := (nodes.map fun n => n.value.length).sum

/-- The tokens of the nodes that are no tombstones. -/
def liveTokens (nodes : List (SwaTreeNode Tok)) : Nat := nodeTokens (nodes.filter fun n => !n.swaTombstone)

/-- No tombstone is on the path, or at least a window of tokens is below the nearest one. -/
def WindowUsable (window : Nat) (path : List (SwaTreeNode Tok)) : Prop :=
  (∀ n ∈ path, n.swaTombstone = false) ∨
    ∃ above tombstone below, path = above ++ tombstone :: below ∧ tombstone.swaTombstone = true ∧
      (∀ n ∈ below, n.swaTombstone = false) ∧ window ≤ nodeTokens below

/-- The deepest usable node on a path, as the number of nodes down to it. -/
structure Deepest (window : Nat) (path : List (SwaTreeNode Tok)) (depth : Nat) : Prop where
  le : depth ≤ path.length
  usable : WindowUsable window (path.take depth)
  deepest : ∀ d ≤ path.length, WindowUsable window (path.take d) → d ≤ depth

/-- A tombstone on the path with a usable node above it. -/
def Cut (window : Nat) (path : List (SwaTreeNode Tok)) (depth : Nat) : Prop :=
  WindowUsable window (path.take depth) ∧ ∃ n, path[depth]? = some n ∧ n.swaTombstone = true

variable {window : Nat} {path : List (SwaTreeNode Tok)}

theorem liveTokens_append (upper lower : List (SwaTreeNode Tok)) :
    liveTokens (upper ++ lower) = liveTokens upper + liveTokens lower := by
  simp only [liveTokens, nodeTokens, List.filter_append, List.map_append, List.sum_append]

theorem liveTokens_singleton (n : SwaTreeNode Tok) :
    liveTokens [n] = if n.swaTombstone then 0 else n.value.length := by
  unfold liveTokens nodeTokens
  cases hn : n.swaTombstone <;> simp [hn]

theorem liveTokens_of_live {nodes : List (SwaTreeNode Tok)} (h : ∀ n ∈ nodes, n.swaTombstone = false) :
    liveTokens nodes = nodeTokens nodes := by
  rw [liveTokens, List.filter_eq_self.mpr fun n hn => by rw [h n hn]; rfl]

theorem liveTokens_drop_le (path : List (SwaTreeNode Tok)) {d e : Nat} (h : d ≤ e) :
    liveTokens (path.drop e) ≤ liveTokens (path.drop d) := by
  obtain ⟨k, rfl⟩ := Nat.exists_eq_add_of_le h
  have hsplit := liveTokens_append ((path.drop d).take k) ((path.drop d).drop k)
  rw [List.take_append_drop, List.drop_drop] at hsplit
  omega

theorem usable_nil : WindowUsable window ([] : List (SwaTreeNode Tok)) :=
  Or.inl fun _ h => absurd h List.not_mem_nil

/-- A live node below a usable one is usable. -/
theorem WindowUsable.append_live (h : WindowUsable window path) {n : SwaTreeNode Tok} (hn : n.swaTombstone = false) :
    WindowUsable window (path ++ [n]) := by
  rcases h with hall | ⟨above, tombstone, below, rfl, htomb, hbelow, htokens⟩
  · refine Or.inl fun m hm => ?_
    rcases List.mem_append.mp hm with hm | hm
    · exact hall m hm
    · rwa [List.mem_singleton.mp hm]
  · refine Or.inr ⟨above, tombstone, below ++ [n], by rw [List.append_assoc, List.cons_append], htomb, ?_, ?_⟩
    · intro m hm
      rcases List.mem_append.mp hm with hm | hm
      · exact hbelow m hm
      · rwa [List.mem_singleton.mp hm]
    · rw [nodeTokens, List.map_append, List.sum_append]
      exact htokens.trans (Nat.le_add_right _ _)

/-- Below a tombstone on the path to a usable node a window of tokens is live. -/
theorem WindowUsable.window_le (h : WindowUsable window path) {d : Nat} {t : SwaTreeNode Tok} (ht : path[d]? = some t)
    (htomb : t.swaTombstone = true) : window ≤ liveTokens (path.drop d) := by
  rcases h with hall | ⟨above, tombstone, below, rfl, -, hbelow, htokens⟩
  · rw [hall t (List.mem_of_getElem? ht)] at htomb
    cases htomb
  · have hd : d ≤ above.length := by
      by_contra hlt
      have hmem : t ∈ below := by
        rw [List.getElem?_append_right (by omega), List.getElem?_cons, if_neg (by omega)] at ht
        exact List.mem_of_getElem? ht
      rw [hbelow t hmem] at htomb
      cases htomb
    have hdrop : (above ++ tombstone :: below).drop (above.length + 1) = below := by
      rw [← List.drop_drop, List.drop_left, List.drop_one, List.tail_cons]
    have hbehind := liveTokens_drop_le (above ++ tombstone :: below) (Nat.le_succ_of_le hd)
    rw [hdrop, liveTokens_of_live hbelow] at hbehind
    exact htokens.trans hbehind

theorem exists_deepest (window : Nat) (path : List (SwaTreeNode Tok)) : ∃ depth, Deepest window path depth := by
  classical
  refine ⟨Nat.findGreatest (fun d => WindowUsable window (path.take d)) path.length, Nat.findGreatest_le _, ?_, ?_⟩
  · exact Nat.findGreatest_spec (P := fun d => WindowUsable window (path.take d)) (Nat.zero_le _) usable_nil
  · exact fun d hd hu => Nat.le_findGreatest hd hu

/-- Below the deepest usable node the path ends or goes on with a tombstone. -/
theorem Deepest.cut {depth : Nat} (h : Deepest window path depth) (hlt : depth < path.length) :
    Cut window path depth := by
  refine ⟨h.usable, path[depth], List.getElem?_eq_getElem hlt, ?_⟩
  by_contra hlive
  have husable := h.usable.append_live (Bool.eq_false_iff.mpr hlive)
  rw [← List.take_succ_eq_append_getElem hlt] at husable
  exact Nat.not_succ_le_self depth (h.deepest (depth + 1) hlt husable)

theorem cut_append_iff {depth : Nat} (n : SwaTreeNode Tok) (h : depth < path.length) :
    Cut window (path ++ [n]) depth ↔ Cut window path depth := by
  unfold Cut
  rw [List.take_append_of_le_length h.le, List.getElem?_append_left h]

/-! ## The counter of the walk -/

/-- What the locals of the loop are after a path. -/
structure WindowCounted (window : Nat) (path : List (SwaTreeNode Tok)) (loop : MatchLoop Tok) : Prop where
  node : loop.node = path
  value : loop.value = path.map (·.value)
  bestLastNode : loop.bestLastNode = path.take loop.bestValueLen
  counter : ∀ len, loop.matchLenSinceTombstone = some len → len = liveTokens (path.drop loop.bestValueLen) ∧
    ∃ n, path[loop.bestValueLen]? = some n ∧ n.swaTombstone = true
  infinite : loop.matchLenSinceTombstone = none → loop.bestValueLen = 0 ∧ ∀ n ∈ path, n.swaTombstone = false
  cut_le : ∀ d, Cut window path d → d ≤ loop.bestValueLen
  window_le : ∀ d < loop.bestValueLen, Cut window path d → window ≤ liveTokens (path.drop d)

theorem Cut.lt {depth : Nat} (h : Cut window path depth) : depth < path.length := by
  obtain ⟨-, n, hn, -⟩ := h
  exact (List.getElem?_eq_some_iff.mp hn).choose

theorem counted_start (window : Nat) : WindowCounted window [] (MatchLoop.start : MatchLoop Tok) where
  node := rfl
  value := rfl
  bestLastNode := rfl
  counter := fun _ h => nomatch h
  infinite := fun _ => ⟨rfl, fun _ h => absurd h List.not_mem_nil⟩
  cut_le := fun _ h => absurd h.lt (Nat.not_lt_zero _)
  window_le := fun _ h => absurd h (Nat.not_lt_zero _)

variable {loop : MatchLoop Tok}

/-- A full counter has a window of live tokens below every earlier cut. -/
theorem WindowCounted.full (h : WindowCounted window path loop) (hreached : loop.reached window = true) {d : Nat}
    (hd : Cut window path d) : window ≤ liveTokens (path.drop d) := by
  cases hlen : loop.matchLenSinceTombstone with
  | none =>
    obtain ⟨-, n, hn, htomb⟩ := hd
    rw [(h.infinite hlen).2 n (List.mem_of_getElem? hn)] at htomb
    cases htomb
  | some len =>
    obtain ⟨rfl, -⟩ := h.counter len hlen
    rw [MatchLoop.reached, hlen, Option.all_some, decide_eq_true_iff] at hreached
    exact hreached.trans (liveTokens_drop_le path (h.cut_le d hd))

theorem WindowCounted.best_le (h : WindowCounted window path loop) : loop.bestValueLen ≤ path.length := by
  cases hlen : loop.matchLenSinceTombstone with
  | none => exact (h.infinite hlen).1 ▸ Nat.zero_le _
  | some len =>
    obtain ⟨-, n, hn, -⟩ := h.counter len hlen
    exact (List.getElem?_eq_some_iff.mp hn).choose.le

/-- A node that ends a usable path finds the counter full. -/
theorem WindowCounted.reached_of_usable (h : WindowCounted window path loop) (husable : WindowUsable window path) :
    loop.reached window = true := by
  cases hlen : loop.matchLenSinceTombstone with
  | none => rw [MatchLoop.reached, hlen, Option.all_none]
  | some len =>
    obtain ⟨rfl, n, hn, htomb⟩ := h.counter len hlen
    rw [MatchLoop.reached, hlen, Option.all_some, decide_eq_true_iff]
    exact husable.window_le hn htomb

/-- Live tokens further down do not take from what is below a node. -/
theorem liveTokens_drop_append_le (path : List (SwaTreeNode Tok)) (n : SwaTreeNode Tok) (d : Nat) :
    liveTokens (path.drop d) ≤ liveTokens ((path ++ [n]).drop d) := by
  rw [List.drop_append, liveTokens_append]
  exact Nat.le_add_right _ _

/-- A tombstone reached with a full counter is where the counting starts again. -/
theorem WindowCounted.step_reset (h : WindowCounted window path loop) {n : SwaTreeNode Tok}
    (htomb : n.swaTombstone = true) (hreached : loop.reached window = true) :
    WindowCounted window (path ++ [n]) ((loop.enter window n).visit n) := by
  have henter : loop.enter window n = { loop with
      bestValueLen := loop.value.length, bestLastNode := loop.node, matchLenSinceTombstone := some 0 } := by
    rw [MatchLoop.enter, htomb, hreached]
    rfl
  have hlength : loop.value.length = path.length := by rw [h.value, List.length_map]
  rw [henter]
  simp only [MatchLoop.visit, htomb, if_true]
  constructor
  · rw [h.node]
  · rw [h.value, List.map_append, List.map_singleton]
  · rw [hlength, List.take_left, h.node]
  · rintro len hlen
    obtain rfl := Option.some.inj hlen
    rw [hlength, List.drop_left, liveTokens_singleton, htomb]
    exact ⟨rfl, n, List.getElem?_concat_length, htomb⟩
  · exact fun hnone => nomatch hnone
  · intro d hd
    have hlt := hd.lt
    rw [List.length_append, List.length_singleton] at hlt
    rw [hlength]
    exact Nat.le_of_lt_succ hlt
  · intro d hd hcut
    rw [hlength] at hd
    exact (h.full hreached ((cut_append_iff n hd).mp hcut)).trans (liveTokens_drop_append_le path n d)

/-- Any other node leaves the start of the counting where it is. -/
theorem WindowCounted.step_keep (h : WindowCounted window path loop) {n : SwaTreeNode Tok}
    (hkeep : ¬ (n.swaTombstone = true ∧ loop.reached window = true)) :
    WindowCounted window (path ++ [n]) ((loop.enter window n).visit n) := by
  have henter : loop.enter window n = loop := by
    rw [MatchLoop.enter, if_neg fun hboth => hkeep (Bool.and_eq_true_iff.mp hboth)]
  rw [henter]
  constructor
  · rw [MatchLoop.visit, h.node]
  · rw [MatchLoop.visit, h.value, List.map_append, List.map_singleton]
  · rw [MatchLoop.visit, List.take_append_of_le_length h.best_le, h.bestLastNode]
  · intro len hlen
    simp only [MatchLoop.visit] at hlen ⊢
    have hold : ∃ old, loop.matchLenSinceTombstone = some old ∧ len = old + liveTokens [n] := by
      rw [liveTokens_singleton]
      split at hlen
      next htomb => exact ⟨len, hlen, by rw [if_pos htomb, Nat.add_zero]⟩
      next hlive =>
        obtain ⟨old, hold, rfl⟩ := Option.map_eq_some_iff.mp hlen
        exact ⟨old, hold, by rw [if_neg hlive]⟩
    obtain ⟨old, hold, rfl⟩ := hold
    obtain ⟨rfl, m, hm, htomb⟩ := h.counter old hold
    have hlt : loop.bestValueLen < path.length := (List.getElem?_eq_some_iff.mp hm).choose
    refine ⟨?_, m, ?_, htomb⟩
    · rw [List.drop_append_of_le_length hlt.le, liveTokens_append]
    · rw [List.getElem?_append_left hlt, hm]
  · intro hnone
    simp only [MatchLoop.visit] at hnone ⊢
    have hinfinite : loop.matchLenSinceTombstone = none := by
      split at hnone
      exacts [hnone, Option.map_eq_none_iff.mp hnone]
    obtain ⟨hbest, hall⟩ := h.infinite hinfinite
    refine ⟨hbest, fun m hm => ?_⟩
    rcases List.mem_append.mp hm with hm | hm
    · exact hall m hm
    · rw [List.mem_singleton.mp hm]
      refine Bool.eq_false_iff.mpr fun htomb => hkeep ⟨htomb, ?_⟩
      rw [MatchLoop.reached, hinfinite, Option.all_none]
  · intro d hd
    by_cases hlt : d < path.length
    · exact h.cut_le d ((cut_append_iff n hlt).mp hd)
    · have hd' := hd.lt
      rw [List.length_append, List.length_singleton] at hd'
      obtain rfl : d = path.length := by omega
      obtain ⟨husable, m, hm, htomb⟩ := hd
      rw [List.take_left] at husable
      rw [List.getElem?_concat_length] at hm
      obtain rfl := Option.some.inj hm
      exact absurd ⟨htomb, h.reached_of_usable husable⟩ hkeep
  · intro d hd hcut
    have hlt : d < path.length := Nat.lt_of_lt_of_le hd h.best_le
    exact (h.window_le d hd ((cut_append_iff n hlt).mp hcut)).trans (liveTokens_drop_append_le path n d)

theorem WindowCounted.step (h : WindowCounted window path loop) (n : SwaTreeNode Tok) :
    WindowCounted window (path ++ [n]) ((loop.enter window n).visit n) := by
  by_cases hreset : n.swaTombstone = true ∧ loop.reached window = true
  · exact h.step_reset hreset.1 hreset.2
  · exact h.step_keep hreset

theorem WindowCounted.steps (h : WindowCounted window path loop) (nodes : List (SwaTreeNode Tok)) :
    WindowCounted window (path ++ nodes) (nodes.foldl (fun loop n => (loop.enter window n).visit n) loop) := by
  induction nodes generalizing path loop with
  | nil => rwa [List.append_nil]
  | cons n nodes ih =>
    rw [← List.singleton_append, ← List.append_assoc]
    exact ih (h.step n)

/-- The walk ends at the deepest usable node exactly when fewer live tokens than the window are below that. -/
theorem WindowCounted.deepest_iff (h : WindowCounted window path loop) (hwindow : 0 < window) :
    Deepest window path (loop.leave window).bestValueLen ↔
      ∀ depth, Deepest window path depth → liveTokens (path.drop depth) < window := by
  have hlength : loop.value.length = path.length := by rw [h.value, List.length_map]
  obtain ⟨depth, hdepth⟩ := exists_deepest window path
  have hunique : ∀ d, Deepest window path d → d = depth := fun d hd =>
    Nat.le_antisymm (hdepth.deepest d hd.le hd.usable) (hd.deepest depth hdepth.le hdepth.usable)
  have hat : ∀ d, Deepest window path d ↔ d = depth := fun d => ⟨hunique d, fun heq => heq ▸ hdepth⟩
  simp only [hat, forall_eq]
  unfold MatchLoop.leave
  split
  next hreached =>
    rw [hlength]
    constructor
    · rintro rfl
      rw [List.drop_length]
      exact hwindow
    · intro hlive
      by_contra hne
      have hcut := hdepth.cut (lt_of_le_of_ne hdepth.le fun heq => hne heq.symm)
      exact Nat.not_lt_of_le (h.full hreached hcut) hlive
  next hreached =>
    have hcut : Cut window path depth := by
      refine hdepth.cut (lt_of_le_of_ne hdepth.le fun heq => hreached ?_)
      have husable := hdepth.usable
      rw [heq, List.take_length] at husable
      exact h.reached_of_usable husable
    constructor
    · intro hbest
      cases hlen : loop.matchLenSinceTombstone with
      | none => rw [MatchLoop.reached, hlen, Option.all_none] at hreached; exact absurd rfl hreached
      | some len =>
        obtain ⟨rfl, -⟩ := h.counter len hlen
        rw [MatchLoop.reached, hlen, Option.all_some, decide_eq_true_iff] at hreached
        exact hbest ▸ Nat.lt_of_not_le hreached
    · intro hlive
      rcases Nat.lt_or_eq_of_le (h.cut_le depth hcut) with hlt | heq
      · exact absurd hlive (Nat.not_lt_of_le (h.window_le depth hlt hcut))
      · exact heq.symm

theorem WindowCounted.leave (h : WindowCounted window path loop) :
    (loop.leave window).value = path.map (·.value) ∧ (loop.leave window).bestValueLen ≤ path.length ∧
      (loop.leave window).bestLastNode = path.take (loop.leave window).bestValueLen := by
  unfold MatchLoop.leave
  split
  next =>
    have hlength : loop.value.length = path.length := by rw [h.value, List.length_map]
    exact ⟨h.value, hlength.le, by rw [hlength, List.take_length, h.node]⟩
  next => exact ⟨h.value, h.best_le, h.bestLastNode⟩

end Paths

/-! ## The walk -/

section Walk

variable {Tok : Type} [DecidableEq Tok]

/-- The nodes the walk visits, the upper half of a split among them. -/
def visitedNodes (pageSize : Nat) : RadixKey Tok → SwaChildren Tok → List (SwaTreeNode Tok)
  | _, .nil => []
  | key, .cons childKey child below rest =>
    if childKey = getChildKey pageSize key then
      let prefixLen := keyMatch pageSize child.key key
      if prefixLen < child.key.len then [(child.split prefixLen).1]
      else if (key.drop prefixLen).tokenIds = [] then [child]
      else child :: visitedNodes pageSize (key.drop prefixLen) below
    else visitedNodes pageSize key rest

/-- The loop visits these nodes, and they lie below one another in the tree it leaves. -/
theorem swaMatchLoop_visits (window pageSize : Nat) (children : SwaChildren Tok) (key : RadixKey Tok)
    (loop : MatchLoop Tok) :
    (swaMatchLoop window pageSize key children loop).1 =
        (visitedNodes pageSize key children).foldl (fun loop n => (loop.enter window n).visit n) loop ∧
      (swaMatchLoop window pageSize key children loop).2.Branch (visitedNodes pageSize key children) := by
  induction children generalizing key loop with
  | nil => exact ⟨rfl, .nil _⟩
  | cons childKey child below rest ihBelow ihRest =>
    unfold swaMatchLoop visitedNodes
    split
    next =>
      simp only
      split
      next => exact ⟨rfl, .here _ (.nil _)⟩
      next =>
        split
        next => exact ⟨rfl, .here _ (.nil _)⟩
        next =>
          obtain ⟨hloop, hbranch⟩ := ihBelow (key.drop (keyMatch pageSize child.key key))
            ((loop.enter window child).visit child)
          exact ⟨hloop, .here _ hbranch⟩
    next =>
      obtain ⟨hloop, hbranch⟩ := ihRest key loop
      exact ⟨hloop, .later _ _ _ hbranch⟩

/-- The matched path of a key, after the split. -/
def matchedPath (cache : SwaRadixCache Tok) (key : RadixKey Tok) : List (SwaTreeNode Tok) :=
  if cache.disable = true ∨ key.len = 0 ∨ (cache.alignedKey key).len = 0 then []
  else visitedNodes cache.pageSize (cache.alignedKey key) cache.children

/-- `match_prefix` returned the deepest usable node on the matched path, and the slots of its path. -/
def WindowMatched (cache : SwaRadixCache Tok) (key : RadixKey Tok) : Prop :=
  ∃ depth, Deepest cache.slidingWindowSize (matchedPath cache key) depth ∧
    (cache.matchPrefix key).1.lastDeviceNode = (matchedPath cache key).take depth ∧
    (cache.matchPrefix key).1.deviceIndices = (((matchedPath cache key).take depth).map (·.value)).flatten

/-- The result of a match, from the locals of its loop. -/
theorem matchPrefix_counted (cache : SwaRadixCache Tok) (key : RadixKey Tok) :
    (cache.matchPrefix key).2.children.Branch (matchedPath cache key) ∧
      ∃ loop, WindowCounted cache.slidingWindowSize (matchedPath cache key) loop ∧
        (cache.matchPrefix key).1.lastDeviceNode = (loop.leave cache.slidingWindowSize).bestLastNode ∧
        (cache.matchPrefix key).1.deviceIndices =
          ((loop.leave cache.slidingWindowSize).value.take
            (loop.leave cache.slidingWindowSize).bestValueLen).flatten := by
  unfold matchedPath
  by_cases hoff : cache.disable = true ∨ key.len = 0
  · have hresult : cache.matchPrefix key = (⟨[], []⟩, cache) := by
      rw [SwaRadixCache.matchPrefix, if_pos (by simpa using hoff)]
    rw [if_pos (hoff.imp_right Or.inl), hresult]
    exact ⟨.nil _, MatchLoop.start, counted_start _, rfl, rfl⟩
  · have hresult : cache.matchPrefix key =
        (⟨(cache.matchPrefixHelper (cache.alignedKey key)).1.flatten,
          (cache.matchPrefixHelper (cache.alignedKey key)).2.1⟩,
          (cache.matchPrefixHelper (cache.alignedKey key)).2.2) := by
      rw [SwaRadixCache.matchPrefix, if_neg (by simpa using hoff)]
    rw [hresult]
    unfold SwaRadixCache.matchPrefixHelper
    by_cases hshort : (cache.alignedKey key).len = 0
    · rw [if_pos (Or.inr (Or.inr hshort)), if_pos hshort]
      exact ⟨.nil _, MatchLoop.start, counted_start _, rfl, rfl⟩
    · have hpath : ¬ (cache.disable = true ∨ key.len = 0 ∨ (cache.alignedKey key).len = 0) := fun h =>
        hoff (h.imp_right fun h => h.resolve_right hshort)
      obtain ⟨hloop, hbranch⟩ := swaMatchLoop_visits cache.slidingWindowSize cache.pageSize cache.children
        (cache.alignedKey key) MatchLoop.start
      have hcounted := (counted_start cache.slidingWindowSize).steps
        (visitedNodes cache.pageSize (cache.alignedKey key) cache.children)
      rw [if_neg hpath, if_neg hshort]
      exact ⟨hbranch, _, hloop ▸ hcounted, rfl, rfl⟩

/-- The walk returns the deepest usable node of the matched path exactly when the live tokens on the path
below that node are fewer than the window. -/
theorem window_matched_iff (cache : SwaRadixCache Tok) (key : RadixKey Tok) :
    WindowMatched cache key ↔ ∀ depth, Deepest cache.slidingWindowSize (matchedPath cache key) depth →
      liveTokens ((matchedPath cache key).drop depth) < cache.slidingWindowSize := by
  obtain ⟨-, loop, hcounted, hnode, hindices⟩ := matchPrefix_counted cache key
  obtain ⟨hvalue, hle, hbest⟩ := hcounted.leave
  rw [← hcounted.deepest_iff cache.slidingWindowSize_pos]
  constructor
  · rintro ⟨depth, hdepth, htake, -⟩
    have hlength := congrArg List.length (htake.symm.trans (hnode.trans hbest))
    rw [List.length_take_of_le hdepth.le, List.length_take_of_le hle] at hlength
    rwa [← hlength]
  · intro hdepth
    refine ⟨_, hdepth, hnode.trans hbest, ?_⟩
    rw [hindices, hvalue, List.map_take]

/-! ## Two short runs -/

/-- A chain of four nodes of one token: tombstone, live, tombstone, live; a window of two tokens. -/
def twoTombstones : SwaRadixCache Nat where
  pageSize := 1
  pageSize_pos := Nat.one_pos
  slidingWindowSize := 2
  slidingWindowSize_pos := Nat.two_pos
  disable := false
  children :=
    let node := fun (token : Nat) (tombstone : Bool) =>
      (⟨⟨[token], none⟩, [(token : Int)], tombstone, 0, 0, none⟩ : SwaTreeNode Nat)
    .cons (none, [1]) (node 1 true) (.cons (none, [2]) (node 2 false) (.cons (none, [3]) (node 3 true)
      (.cons (none, [4]) (node 4 false) .nil .nil) .nil) .nil) .nil

/-- The match is the last node, with one live token below the tombstone above it. -/
theorem short_runs_add_up :
    ((twoTombstones.matchPrefix ⟨[1, 2, 3, 4], none⟩).1.lastDeviceNode.map (·.swaTombstone)) =
        [true, false, true, false] ∧ ¬ WindowMatched twoTombstones ⟨[1, 2, 3, 4], none⟩ := by
  have hnode : (twoTombstones.matchPrefix ⟨[1, 2, 3, 4], none⟩).1.lastDeviceNode =
      matchedPath twoTombstones ⟨[1, 2, 3, 4], none⟩ := by decide
  refine ⟨by decide, ?_⟩
  rintro ⟨depth, hdepth, htake, -⟩
  have husable := hdepth.usable
  rw [← htake, hnode] at husable
  have hwindow : 2 ≤ 1 := husable.window_le (d := 2) rfl rfl
  exact absurd hwindow (by decide)

end Walk

end QCFuse.Guarantees
