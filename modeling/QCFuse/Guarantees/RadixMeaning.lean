import QCFuse.Library.Transition
import QCFuse.Guarantees.RadixEviction

/-!
# The radix cache over its runs

What every operation of the cache keeps, whoever holds locks in it, and what a match, an
insertion and an eviction do to the stored slots in any state a run reaches.
-/

set_option autoImplicit false

namespace QCFuse.Guarantees

open QCFuse.Library QCFuse.Source

variable {Tok : Type}

def unlockedWeight (lockRef : Int) : Int := if lockRef = 0 then 1 else 0

def lockedWeight (lockRef : Int) : Int := if 0 < lockRef then 1 else 0

/-- The cache between two operations, with the nodes that are held, one entry a lock. -/
structure RadixInv (holds : List Nat) (c : RadixCache Tok) : Prop where
  shaped : Shaped c.pageSize c.children
  idsNodup : (ids c.children).Nodup
  idsOld : ∀ i ∈ ids c.children, i < c.counter
  rootOld : c.rootNode.id < c.counter
  rootApart : c.rootNode.id ∉ ids c.children
  held : ∀ i ∈ holds, i = c.rootNode.id ∨ i ∈ ids c.children
  locks : LocksCounted holds c.children
  evictable : c.evictableSize = lockedSize unlockedWeight c.children
  protect : c.protectedSize = lockedSize lockedWeight c.children

theorem radixInv_reset (pageSize : Nat) (h : 0 < pageSize) (policy : EvictionPolicy) (now : Int) :
    RadixInv [] (RadixCache.reset pageSize h policy now : RadixCache Tok) where
  shaped := shaped_nil _
  idsNodup := List.nodup_nil
  idsOld := fun i hi => by cases hi
  rootOld := Nat.zero_lt_one
  rootApart := List.not_mem_nil
  held := fun i hi => by cases hi
  locks := trivial
  evictable := rfl
  protect := rfl

theorem RadixInv.heldOld {holds : List Nat} {c : RadixCache Tok} (h : RadixInv holds c) :
    ∀ i ∈ holds, i < c.counter := by
  intro i hi
  rcases h.held i hi with rfl | hmem
  · exact h.rootOld
  · exact h.idsOld i hmem

/-! ## Walks -/

section Walked

variable {holds : List Nat} {c : RadixCache Tok} {w : Option (List Int)} {key : RadixKey Tok}
  {n : Nat} {s : List Int} {children : Children Tok}

/-- A walk keeps the invariant, once an insertion has counted its leaf. -/
theorem RadixInv.walked (h : RadixInv holds c) (now : Int)
    (hwalk : Walk c.pageSize c.counter w key n s c.children children) (hkey : key.tokenIds ≠ [])
    (halign : c.pageSize ∣ key.len) (hvalue : ∀ value, w = some value → value.length = key.len) :
    RadixInv holds { c.walked now children with
      evictableSize := c.evictableSize + if w.isSome then ((key.len - n : Nat) : Int) else 0 } := by
  have hkeeps := hwalk.keeps h.shaped hkey halign hvalue
  obtain ⟨fresh, hnodup, hbound, hperm⟩ := hwalk.ids_perm
  have hcounter : c.counter + (children.nodes.length - c.children.nodes.length) =
      c.counter + fresh.length := by
    have hlen := hperm.length_eq
    simp only [ids, List.length_append, List.length_map] at hlen
    omega
  have hunlocked := hwalk.lockedSize_eq unlockedWeight
  have hlocked := hwalk.lockedSize_eq lockedWeight
  exact {
    shaped := hkeeps.shaped
    idsNodup := hperm.nodup_iff.mpr (List.nodup_append'.mpr ⟨hnodup, h.idsNodup, fun i hi hmem => by
      have := (hbound i hi).1
      have := h.idsOld i hmem
      omega⟩)
    idsOld := by
      intro i hi
      show i < c.counter + (children.nodes.length - c.children.nodes.length)
      rw [hcounter]
      rcases List.mem_append.mp (hperm.mem_iff.mp hi) with hi | hi
      · exact (hbound i hi).2
      · have := h.idsOld i hi
        omega
    rootOld := Nat.lt_add_right _ h.rootOld
    rootApart := by
      intro hmem
      rcases List.mem_append.mp (hperm.mem_iff.mp hmem) with hi | hi
      · have hle : c.counter ≤ c.rootNode.id := (hbound _ hi).1
        have := h.rootOld
        omega
      · exact h.rootApart hi
    held := fun i hi => (h.held i hi).imp id fun hmem =>
      hperm.mem_iff.mpr (List.mem_append_right _ hmem)
    locks := hwalk.locksCounted h.locks h.heldOld
    evictable := by
      show c.evictableSize + _ = lockedSize unlockedWeight children
      rw [hunlocked, h.evictable]
      simp [unlockedWeight]
    protect := by
      show c.protectedSize = lockedSize lockedWeight children
      rw [hlocked, h.protect]
      simp [lockedWeight] }

end Walked

/-- The part of a key that a match looks for. -/
def alignedKey (pageSize : Nat) (key : RadixKey Tok) : RadixKey Tok :=
  key.take (key.len / pageSize * pageSize)

theorem alignedKey_len (pageSize : Nat) (key : RadixKey Tok) :
    (alignedKey pageSize key).len = key.len / pageSize * pageSize :=
  len_take (Nat.div_mul_le_self _ _)

theorem alignedKey_dvd (pageSize : Nat) (key : RadixKey Tok) : pageSize ∣ (alignedKey pageSize key).len := by
  rw [alignedKey_len]
  exact Nat.dvd_mul_left _ _

section Operations

variable [DecidableEq Tok] {holds : List Nat} {c : RadixCache Tok}

/-- A match either has no page to look for or walks. -/
theorem matchPrefix_cases (c : RadixCache Tok) (h : Shaped c.pageSize c.children) (now : Int)
    (key : RadixKey Tok) :
    ((alignedKey c.pageSize key).len = 0 ∧ c.matchPrefix now key = (⟨[], c.rootNode.id⟩, c)) ∨
    (alignedKey c.pageSize key).tokenIds ≠ [] ∧ ∃ n children,
      Walk c.pageSize c.counter none (alignedKey c.pageSize key) n
        (c.matchPrefix now key).1.deviceIndices c.children children ∧
      (c.matchPrefix now key).2 = c.walked now children := by
  rw [RadixCache.matchPrefix]
  by_cases hempty : (alignedKey c.pageSize key).len = 0
  · exact .inl ⟨hempty, if_pos hempty⟩
  · have hne : (alignedKey c.pageSize key).tokenIds ≠ [] :=
      fun hnil => hempty (by rw [RadixKey.len, hnil]; rfl)
    obtain ⟨n, hwalk⟩ := matchPrefixHelper_walk c.counter c.pageSize_pos c.children (now + 1)
      (alignedKey c.pageSize key) h hne (alignedKey_dvd _ _)
    refine .inr ⟨hne, n, (matchPrefixHelper c.pageSize c.counter (now + 1) (alignedKey c.pageSize key)
      c.children).2.2, ?_, ?_⟩
    · simp only [alignedKey] at hempty hwalk ⊢
      rw [if_neg hempty]
      exact hwalk
    · simp only [alignedKey] at hempty ⊢
      rw [if_neg hempty]

theorem insert_cases (c : RadixCache Tok) (h : Shaped c.pageSize c.children) (now : Int)
    (key : RadixKey Tok) (value : List Int) (halign : c.pageSize ∣ key.len) :
    (key.len = 0 ∧ c.insert now key value = (0, { c with rootNode := c.rootNode.touch now })) ∨
    key.tokenIds ≠ [] ∧ ∃ s children,
      Walk c.pageSize c.counter (some value) key (c.insert now key value).1 s c.children children ∧
      (c.insert now key value).2 = { c.walked now children with
        evictableSize := c.evictableSize + (key.len - (c.insert now key value).1 : Nat) } := by
  rw [RadixCache.insert]
  by_cases hempty : key.len = 0
  · exact .inl ⟨hempty, if_pos hempty⟩
  · have hne : key.tokenIds ≠ [] := fun hnil => hempty (by rw [RadixKey.len, hnil]; rfl)
    obtain ⟨s, hwalk⟩ := insertHelper_walk c.counter c.pageSize_pos c.children (now + 1) key
      value h hne halign
    refine .inr ⟨hne, s, (insertHelper c.pageSize c.counter (now + 1) key value c.children).2, ?_, ?_⟩
    · rw [if_neg hempty]
      exact hwalk
    · rw [if_neg hempty]

theorem RadixInv.matchPrefix (h : RadixInv holds c) (now : Int) (key : RadixKey Tok) :
    RadixInv holds (c.matchPrefix now key).2 := by
  rcases matchPrefix_cases c h.shaped now key with ⟨_, heq⟩ | ⟨hne, n, children, hwalk, heq⟩
  · rw [heq]
    exact h
  · have hinv := h.walked now hwalk hne (alignedKey_dvd _ _) fun value hval => by cases hval
    simp only [Option.isSome_none, Bool.false_eq_true, if_false, add_zero] at hinv
    rw [heq]
    exact hinv

theorem RadixInv.insert (h : RadixInv holds c) (now : Int) {key : RadixKey Tok} {value : List Int}
    (halign : c.pageSize ∣ key.len) (hvalue : value.length = key.len) :
    RadixInv holds (c.insert now key value).2 := by
  rcases insert_cases c h.shaped now key value halign with ⟨_, heq⟩ | ⟨hne, s, children, hwalk, heq⟩
  · rw [heq]
    exact ⟨h.shaped, h.idsNodup, h.idsOld, h.rootOld, h.rootApart, h.held, h.locks, h.evictable, h.protect⟩
  · have hinv := h.walked now hwalk hne halign fun _ hval => by
      cases hval
      exact hvalue
    rw [heq]
    simpa using hinv

end Operations

/-! ## Locks -/

section Locking

variable {holds : List Nat} {c : RadixCache Tok} {node : Nat}

theorem pathSize_eq (c : RadixCache Tok) (node : Nat) (l : Int) : c.pathSize node l =
    ((c.children.pathNodes fun n => decide (n.id = node)).map
      fun n => if n.lockRef = l then (n.key.len : Int) else 0).sum := sum_filter_eq l _

theorem RadixInv.incLockRef (h : RadixInv holds c)
    (hnode : node = c.rootNode.id ∨ node ∈ ids c.children) :
    RadixInv (node :: holds) (c.incLockRef node) := by
  have hunlocked := lockedSize_mapPath (f := c.children) unlockedWeight (fun n => decide (n.id = node)) 1
  have hlocked := lockedSize_mapPath (f := c.children) lockedWeight (fun n => decide (n.id = node)) 1
  have hpath := h.locks.path_nonneg node
  have hids := ids_mapPath (f := c.children) (fun n => decide (n.id = node)) 1
  have hsize : ∀ weight : Int → Int, ∀ sign : Int,
      (∀ n ∈ c.children.pathNodes fun n => decide (n.id = node),
        weight (n.lockRef + 1) - weight n.lockRef = if n.lockRef = 0 then sign else 0) →
      ((c.children.pathNodes fun n => decide (n.id = node)).map fun n =>
        (weight (n.lockRef + 1) - weight n.lockRef) * (n.key.len : Int)).sum =
          sign * c.pathSize node 0 := by
    intro weight sign hweight
    rw [pathSize_eq, ← List.sum_map_mul_left]
    refine congrArg List.sum (List.map_congr_left fun n hn => ?_)
    rw [hweight n hn]
    split <;> simp
  exact {
    shaped := shaped_mapPath _ 1 h.shaped
    idsNodup := by
      show (ids (c.children.mapPath _ (addLock 1))).Nodup
      rw [hids]
      exact h.idsNodup
    idsOld := by
      show ∀ i ∈ ids (c.children.mapPath _ (addLock 1)), i < c.counter
      rw [hids]
      exact h.idsOld
    rootOld := h.rootOld
    rootApart := by
      show c.rootNode.id ∉ ids (c.children.mapPath _ (addLock 1))
      rw [hids]
      exact h.rootApart
    held := by
      show ∀ i ∈ node :: holds, i = c.rootNode.id ∨ i ∈ ids (c.children.mapPath _ (addLock 1))
      rw [hids]
      intro i hi
      rcases List.mem_cons.mp hi with rfl | hi
      · exact hnode
      · exact h.held i hi
    locks := h.locks.lock
    evictable := by
      show c.evictableSize - c.pathSize node 0 =
        lockedSize unlockedWeight (c.children.mapPath _ (addLock 1))
      rw [hunlocked, h.evictable, hsize unlockedWeight (-1) fun n hn => by
        have := hpath n hn
        simp only [unlockedWeight]
        split <;> split <;> omega]
      ring
    protect := by
      show c.protectedSize + c.pathSize node 0 =
        lockedSize lockedWeight (c.children.mapPath _ (addLock 1))
      rw [hlocked, h.protect, hsize lockedWeight 1 fun n hn => by
        have := hpath n hn
        simp only [lockedWeight]
        split <;> split <;> split <;> omega]
      ring }

theorem RadixInv.decLockRef (h : RadixInv holds c) (hheld : node ∈ holds) :
    RadixInv (holds.erase node) (c.decLockRef node) := by
  have hunlocked := lockedSize_mapPath (f := c.children) unlockedWeight (fun n => decide (n.id = node)) (-1)
  have hlocked := lockedSize_mapPath (f := c.children) lockedWeight (fun n => decide (n.id = node)) (-1)
  have hpath := h.locks.path_pos hheld
  have hids := ids_mapPath (f := c.children) (fun n => decide (n.id = node)) (-1)
  have hsize : ∀ weight : Int → Int, ∀ sign : Int,
      (∀ n ∈ c.children.pathNodes fun n => decide (n.id = node),
        weight (n.lockRef + -1) - weight n.lockRef = if n.lockRef = 1 then sign else 0) →
      ((c.children.pathNodes fun n => decide (n.id = node)).map fun n =>
        (weight (n.lockRef + -1) - weight n.lockRef) * (n.key.len : Int)).sum =
          sign * c.pathSize node 1 := by
    intro weight sign hweight
    rw [pathSize_eq, ← List.sum_map_mul_left]
    refine congrArg List.sum (List.map_congr_left fun n hn => ?_)
    rw [hweight n hn]
    split <;> simp
  exact {
    shaped := shaped_mapPath _ (-1) h.shaped
    idsNodup := by
      show (ids (c.children.mapPath _ (addLock (-1)))).Nodup
      rw [hids]
      exact h.idsNodup
    idsOld := by
      show ∀ i ∈ ids (c.children.mapPath _ (addLock (-1))), i < c.counter
      rw [hids]
      exact h.idsOld
    rootOld := h.rootOld
    rootApart := by
      show c.rootNode.id ∉ ids (c.children.mapPath _ (addLock (-1)))
      rw [hids]
      exact h.rootApart
    held := by
      show ∀ i ∈ holds.erase node, i = c.rootNode.id ∨ i ∈ ids (c.children.mapPath _ (addLock (-1)))
      rw [hids]
      exact fun i hi => h.held i (List.mem_of_mem_erase hi)
    locks := h.locks.unlock hheld
    evictable := by
      show c.evictableSize + c.pathSize node 1 =
        lockedSize unlockedWeight (c.children.mapPath _ (addLock (-1)))
      rw [hunlocked, h.evictable, hsize unlockedWeight 1 fun n hn => by
        have := hpath n hn
        simp only [unlockedWeight]
        split <;> split <;> split <;> omega]
      ring
    protect := by
      show c.protectedSize - c.pathSize node 1 =
        lockedSize lockedWeight (c.children.mapPath _ (addLock (-1)))
      rw [hlocked, h.protect, hsize lockedWeight (-1) fun n hn => by
        have := hpath n hn
        simp only [lockedWeight]
        split <;> split <;> split <;> omega]
      ring }

end Locking

/-! ## Eviction -/

section Evicting

variable {holds : List Nat} {c : RadixCache Tok}

/-- What `evict` removes: a chain of unlocked leaves, enough of them where there are enough. -/
structure EvictsEnough (c : RadixCache Tok) (numTokens : Int) (evicted : List (TreeNode Tok))
    (c' : RadixCache Tok) : Prop where
  chain : Evicts evicted c.children c'.children
  enough : numTokens ≤ (evicted.map fun n => (n.value.length : Int)).sum ∨
    ∀ n ∈ c'.children.nodes, 0 < n.lockRef

theorem leaves_nodup {f : Children Tok} (h : (ids f).Nodup) : (f.leaves.map (·.id)).Nodup := by
  induction f with
  | nil => exact List.nodup_nil
  | cons childKey node below rest ihb ihr =>
    rw [ids_cons] at h
    obtain ⟨hnot, hbelowRest⟩ := List.nodup_cons.mp h
    obtain ⟨hbelow, hrest, hdisjoint⟩ := List.nodup_append'.mp hbelowRest
    have hsub : ∀ {g : Children Tok} {i : Nat}, i ∈ g.leaves.map (·.id) → i ∈ ids g := by
      intro g i hi
      obtain ⟨x, hx, rfl⟩ := List.mem_map.mp hi
      exact id_mem_ids (Forest.leaves_subset_nodes _ x hx)
    have hboth : ((below.leaves ++ rest.leaves).map (·.id)).Nodup := by
      rw [List.map_append]
      exact List.nodup_append'.mpr ⟨ihb hbelow, ihr hrest, fun i hi hi' => hdisjoint (hsub hi) (hsub hi')⟩
    rw [Forest.leaves]
    split
    · refine List.nodup_cons.mpr ⟨fun hmem => hnot ?_, hboth⟩
      have hbelowLeaf : node.id ∈ (below.leaves ++ rest.leaves).map (·.id) := hmem
      rw [List.map_append] at hbelowLeaf
      exact List.mem_append.mpr ((List.mem_append.mp hbelowLeaf).imp hsub hsub)
    · exact hboth

theorem leaves_length_le (f : Children Tok) : f.leaves.length ≤ f.nodes.length := by
  induction f with
  | nil => exact le_rfl
  | cons childKey node below rest ihb ihr =>
    rw [Forest.leaves, Forest.nodes, List.length_append, List.length_append, List.length_cons,
      List.length_append]
    split <;> simp <;> omega

theorem evict_enough (h : RadixInv holds c) (numTokens : Int) :
    EvictsEnough c numTokens (c.evict numTokens).1 (c.evict numTokens).2 := by
  have hstart : HeapFor c.rootNode (if c.children.isNil then [c.rootNode] else c.children.leaves)
      c.children := by
    cases hchildren : c.children with
    | nil =>
      exact ⟨fun x hx => .inr ⟨List.mem_singleton.mp hx, rfl⟩, List.nodup_singleton _,
        fun x hx => by cases hx⟩
    | cons childKey node below rest =>
      refine ⟨fun x hx => .inl hx, ?_, fun x hx _ => hx⟩
      rw [← hchildren]
      have hnil : c.children.isNil = false := by rw [hchildren]; rfl
      rw [hnil]
      exact leaves_nodup h.idsNodup
  have hfuel : c.children.nodes.length +
      (if c.children.isNil then [c.rootNode] else c.children.leaves).length ≤
      2 * c.children.nodes.length + 1 := by
    have := leaves_length_le c.children
    split
    · simp
      omega
    · omega
  obtain ⟨hchain, henough⟩ := evictLoop_spec c.policy (2 * c.children.nodes.length + 1) _
    numTokens c.children hstart h.idsNodup h.rootApart h.locks.fall hfuel
  exact ⟨hchain, henough⟩

theorem evict_evictableSize (c : RadixCache Tok) (numTokens : Int) :
    (c.evict numTokens).2.evictableSize = c.evictableSize -
      ((c.evict numTokens).1.map fun n => (n.key.len : Int)).sum := rfl

/-- What is evicted is not locked at all. -/
theorem EvictsEnough.unlocked {numTokens : Int} {evicted : List (TreeNode Tok)} {c' : RadixCache Tok}
    (h : EvictsEnough c numTokens evicted c') (hinv : RadixInv holds c) :
    ∀ n ∈ evicted, n.lockRef = 0 := by
  intro n hn
  have hmem : n ∈ c.children.nodes :=
    (h.chain.perm hinv.idsNodup).mem_iff.mpr (List.mem_append_left _ hn)
  exact le_antisymm (h.chain.unlocked n hn) (hinv.locks.nonneg n hmem)

theorem RadixInv.evict (h : RadixInv holds c) (numTokens : Int) :
    RadixInv holds (c.evict numTokens).2 := by
  have henough := evict_enough h numTokens
  have hunlocked := henough.unlocked h
  have hperm := henough.chain.perm h.idsNodup
  have hids : (ids c.children).Perm
      ((c.evict numTokens).1.map (·.id) ++ ids (c.evict numTokens).2.children) := by
    have := hperm.map TreeNode.id
    rwa [List.map_append] at this
  have hnodup := hids.nodup_iff.mp h.idsNodup
  have hsub : ∀ i ∈ ids (c.evict numTokens).2.children, i ∈ ids c.children :=
    fun i hi => hids.mem_iff.mpr (List.mem_append_right _ hi)
  have hsize : ∀ weight : Int → Int, lockedSize weight c.children =
      ((c.evict numTokens).1.map fun n => weight n.lockRef * (n.key.len : Int)).sum +
        lockedSize weight (c.evict numTokens).2.children := by
    intro weight
    have := (hperm.map fun n => weight n.lockRef * (n.key.len : Int)).sum_eq
    rwa [List.map_append, List.sum_append] at this
  exact {
    shaped := henough.chain.shaped h.shaped
    idsNodup := (List.nodup_append'.mp hnodup).2.1
    idsOld := fun i hi => h.idsOld i (hsub i hi)
    rootOld := h.rootOld
    rootApart := fun hmem => h.rootApart (hsub _ hmem)
    held := by
      intro i hi
      refine (h.held i hi).imp id fun hmem => ?_
      refine (List.mem_append.mp (hids.mem_iff.mp hmem)).resolve_left fun hevicted => ?_
      obtain ⟨n, hn, rfl⟩ := List.mem_map.mp hevicted
      exact h.locks.not_held n (hperm.mem_iff.mpr (List.mem_append_left _ hn)) (hunlocked n hn).le hi
    locks := henough.chain.locksCounted h.idsNodup h.locks
    evictable := by
      have hsum := hsize unlockedWeight
      have hall : ((c.evict numTokens).1.map fun n => unlockedWeight n.lockRef * (n.key.len : Int)) =
          (c.evict numTokens).1.map fun n => (n.key.len : Int) :=
        List.map_congr_left fun n hn => by rw [hunlocked n hn, unlockedWeight, if_pos rfl, one_mul]
      rw [hall] at hsum
      rw [evict_evictableSize, h.evictable, hsum]
      ring
    protect := by
      have hsum := hsize lockedWeight
      have hall : ((c.evict numTokens).1.map fun n => lockedWeight n.lockRef * (n.key.len : Int)) =
          (c.evict numTokens).1.map fun _ => 0 :=
        List.map_congr_left fun n hn => by
          rw [hunlocked n hn, lockedWeight, if_neg (lt_irrefl 0), zero_mul]
      rw [hall, List.map_const', List.sum_replicate, smul_zero, zero_add] at hsum
      show c.protectedSize = _
      rw [h.protect, hsum] }

/-- Where too little is freed, all that could be is. -/
theorem EvictsEnough.tokens {numTokens : Int} (h : RadixInv holds c)
    (henough : EvictsEnough c numTokens (c.evict numTokens).1 (c.evict numTokens).2) :
    min numTokens c.evictableSize ≤
      ((c.evict numTokens).1.map fun n => (n.value.length : Int)).sum := by
  rcases henough.enough with hdone | hlocked
  · exact (min_le_left _ _).trans hdone
  · refine (min_le_right _ _).trans ?_
    have hafter := (h.evict numTokens).evictable
    have hzero : lockedSize unlockedWeight (c.evict numTokens).2.children = 0 := by
      refine List.sum_eq_zero fun x hx => ?_
      obtain ⟨n, hn, rfl⟩ := List.mem_map.mp hx
      have := hlocked n hn
      rw [unlockedWeight, if_neg (by omega), zero_mul]
    have hvalued : ((c.evict numTokens).1.map fun n => (n.value.length : Int)) =
        (c.evict numTokens).1.map fun n => (n.key.len : Int) := by
      refine List.map_congr_left fun n hn => ?_
      have hmem := (henough.chain.perm h.idsNodup).mem_iff.mpr (List.mem_append_left _ hn)
      have hshape := (h.shaped.2.imp fun childKey m _ hm => hm.1.valued :
        c.children.Forall fun _ m _ => m.value.length = m.key.len).node n hmem
      rw [hshape]
    rw [hvalued]
    have hsplit : c.evictableSize - ((c.evict numTokens).1.map fun n => (n.key.len : Int)).sum = 0 := by
      rw [← hzero, ← hafter, evict_evictableSize]
    omega

end Evicting

end QCFuse.Guarantees
