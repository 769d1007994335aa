import QCFuse.Guarantees.RadixMeaning

/-!
# The radix cache is a map from prefixes to slots

In every state that matches, insertions, balanced locks and evictions lead to, the tree is well
formed, a match returns what is stored for the longest prefix, and evictions take unlocked nodes.
-/

set_option autoImplicit false

namespace QCFuse.Guarantees

open QCFuse.Library QCFuse.Source

variable {Tok : Type}

/-- Nodes have their shape and lie under their child keys, locks grow towards the root (whose own
count is a constant), and the two sizes are those of the unlocked and the locked nodes. -/
structure TreeWellFormed (c : RadixCache Tok) : Prop where
  shaped : Shaped c.pageSize c.children
  locks : LocksFall c.children
  nonneg : ∀ n ∈ c.children.nodes, 0 ≤ n.lockRef
  evictable : c.evictableSize = lockedSize unlockedWeight c.children
  protect : c.protectedSize = lockedSize lockedWeight c.children

/-- The slots of the longest prefix of whole pages that is stored. -/
structure MatchExact (c : RadixCache Tok) (key : RadixKey Tok) (result : MatchResult)
    (c' : RadixCache Tok) : Prop where
  aligned : c.pageSize ∣ result.deviceIndices.length
  within : result.deviceIndices.length ≤ key.len
  stored : result.deviceIndices ≠ [] → TreeStores c.children key.extraKey
    (key.tokenIds.take result.deviceIndices.length) result.deviceIndices
  exact : ∀ v, TreeStores c.children key.extraKey (key.tokenIds.take result.deviceIndices.length) v →
    v = result.deviceIndices
  longest : ∀ p v, TreeStores c.children key.extraKey p v → c.pageSize ∣ p.length →
    p <+: key.tokenIds → p.length ≤ result.deviceIndices.length
  unchanged : ∀ extraKey p v, TreeStores c'.children extraKey p v ↔ TreeStores c.children extraKey p v

/-- The length already present comes back; behind it the key's values are stored, and for all else
what was stored before. -/
structure InsertExact (c : RadixCache Tok) (key : RadixKey Tok) (value : List Int) (present : Nat)
    (c' : RadixCache Tok) : Prop where
  aligned : c.pageSize ∣ present
  within : present ≤ key.len
  longest : ∀ p v, TreeStores c.children key.extraKey p v → c.pageSize ∣ p.length →
    p <+: key.tokenIds → p.length ≤ present
  stored : ∃ s, s.length = present ∧
    (0 < present → TreeStores c.children key.extraKey (key.tokenIds.take present) s) ∧
    ∀ extraKey p v, TreeStores c'.children extraKey p v ↔ TreeStores c.children extraKey p v ∨
      (extraKey = key.extraKey ∧ p <+: key.tokenIds ∧ present < p.length ∧
        v = (s ++ value.drop present).take p.length)

/-- Unlocked nodes leave the tree, each once and with its values freed, and as many tokens as are
wanted and can be. -/
structure EvictExact (c : RadixCache Tok) (numTokens : Int) (evicted : List (TreeNode Tok))
    (c' : RadixCache Tok) : Prop where
  removed : c.children.nodes.Perm (evicted ++ c'.children.nodes)
  unlocked : ∀ n ∈ evicted, n.lockRef = 0
  enough : min numTokens c.evictableSize ≤ (evicted.map fun n => (n.value.length : Int)).sum
  stored : ∀ extraKey p v, TreeStores c'.children extraKey p v → TreeStores c.children extraKey p v

/-- Whole pages in front of a key are in front of the part that is looked for. -/
theorem prefix_alignedKey {P : Nat} (hP : 0 < P) {key : RadixKey Tok} {p : List Tok}
    (halign : P ∣ p.length) (h : p <+: key.tokenIds) : p <+: (alignedKey P key).tokenIds := by
  have hlen : p.length ≤ key.len / P * P := by
    obtain ⟨k, hk⟩ := halign
    have hle : P * k ≤ key.len := hk ▸ h.length_le
    rw [hk, Nat.mul_comm]
    exact Nat.mul_le_mul_right P ((Nat.le_div_iff_mul_le hP).mpr (by rwa [Nat.mul_comm]))
  refine List.prefix_of_prefix_length_le h (List.take_prefix _ _) ?_
  rw [← RadixKey.len, alignedKey_len]
  exact hlen

theorem take_alignedKey {P n : Nat} {key : RadixKey Tok} (h : n ≤ (alignedKey P key).len) :
    (alignedKey P key).tokenIds.take n = key.tokenIds.take n := by
  rw [alignedKey_len] at h
  show (key.tokenIds.take _).take n = _
  rw [List.take_take, Nat.min_eq_left h]

section Results

variable [DecidableEq Tok] {holds : List Nat} {c : RadixCache Tok}

theorem matchPrefix_exact (h : RadixInv holds c) (now : Int) (key : RadixKey Tok) :
    MatchExact c key (c.matchPrefix now key).1 (c.matchPrefix now key).2 := by
  have hunique : ∀ {n : Nat} {s v : List Int}, c.pageSize ∣ n → n ≤ key.len → s.length = n →
      (0 < n → TreeStores c.children key.extraKey (key.tokenIds.take n) s) →
      TreeStores c.children key.extraKey (key.tokenIds.take n) v → v = s := by
    intro n s v halign hle hlen hstored hv
    have htake : (key.tokenIds.take n).length = n := List.length_take_of_le hle
    have hpos : 0 < n := by
      have := List.length_pos_of_ne_nil (hv.ne_nil_length h.shaped).1
      omega
    exact hv.unique h.shaped (htake.symm ▸ halign) (hstored hpos)
  rcases matchPrefix_cases c h.shaped now key with ⟨hempty, heq⟩ | ⟨hne, n, children, hwalk, heq⟩
  · rw [heq]
    refine ⟨dvd_zero _, Nat.zero_le _, fun hne => absurd rfl hne, fun v hv => ?_, fun p v hv hp hpre => ?_,
      fun _ _ _ => Iff.rfl⟩
    · exact absurd (List.take_zero) (hv.ne_nil_length h.shaped).1
    · have := (prefix_alignedKey c.pageSize_pos hp hpre).length_le
      rw [← RadixKey.len, hempty] at this
      exact this
  · have hfound := hwalk.found h.shaped hne (alignedKey_dvd _ _)
    have hlen := hfound.length
    have hle := hfound.le
    have htake := take_alignedKey hle
    have hwithin : n ≤ key.len := by
      rw [alignedKey_len] at hle
      exact hle.trans (Nat.div_mul_le_self _ _)
    have hstored : 0 < n → TreeStores c.children key.extraKey (key.tokenIds.take n)
        (c.matchPrefix now key).1.deviceIndices := fun hpos => htake ▸ hfound.stored hpos
    have hunchanged := hwalk.stored_iff h.shaped hne (alignedKey_dvd _ _)
    refine ⟨hlen ▸ hfound.aligned, hlen ▸ hwithin, fun hne' => ?_, fun v hv => ?_, fun p v hv hp hpre => ?_,
      fun extraKey p v => ?_⟩
    · rw [hlen]
      exact hstored (hlen ▸ List.length_pos_of_ne_nil hne')
    · rw [hlen] at hv
      exact hunique hfound.aligned hwithin hlen hstored hv
    · rw [hlen]
      exact hfound.longest p v hv hp (prefix_alignedKey c.pageSize_pos hp hpre)
    · rw [heq]
      refine (hunchanged extraKey p v).trans (or_iff_left ?_)
      rintro ⟨value, hvalue, _⟩
      cases hvalue

theorem insert_exact (h : RadixInv holds c) (now : Int) {key : RadixKey Tok} {value : List Int}
    (halign : c.pageSize ∣ key.len) :
    InsertExact c key value (c.insert now key value).1 (c.insert now key value).2 := by
  rcases insert_cases c h.shaped now key value halign with ⟨hempty, heq⟩ | ⟨hne, s, children, hwalk, heq⟩
  · rw [heq]
    have hshort : ∀ p : List Tok, p <+: key.tokenIds → p.length ≤ 0 := by
      intro p hp
      rw [← hempty]
      exact hp.length_le
    refine ⟨dvd_zero _, Nat.zero_le _, fun p _ _ _ hp => hshort p hp, [], rfl,
      fun hpos => absurd hpos (lt_irrefl 0), fun extraKey p v => (or_iff_left ?_).symm⟩
    rintro ⟨_, hp, hpos, _⟩
    exact absurd (hshort p hp) (Nat.not_le.mpr hpos)
  · have hfound := hwalk.found h.shaped hne halign
    have hstored := hwalk.stored_iff h.shaped hne halign
    refine ⟨hfound.aligned, hfound.le, hfound.longest, s, hfound.length, hfound.stored, fun extraKey p v => ?_⟩
    have hafter : (c.insert now key value).2.children = children := by rw [heq]; rfl
    rw [hafter, hstored]
    refine or_congr Iff.rfl ?_
    constructor
    · rintro ⟨_, ⟨⟩, hrest⟩
      exact hrest
    · exact fun hrest => ⟨value, rfl, hrest⟩

omit [DecidableEq Tok] in
theorem evict_exact (h : RadixInv holds c) (numTokens : Int) :
    EvictExact c numTokens (c.evict numTokens).1 (c.evict numTokens).2 := by
  have henough := evict_enough h numTokens
  exact ⟨henough.chain.perm h.idsNodup, henough.unlocked h, henough.tokens h,
    fun _ _ _ hstored => henough.chain.stored hstored⟩

end Results

/-! ## Runs -/

/-- The cache and the locks taken in it and not given back. -/
structure RadixState (Tok : Type) where
  cache : RadixCache Tok
  holds : List Nat

inductive RadixOp (Tok : Type) where
  | matchPrefix (now : Int) (key : RadixKey Tok)
  | insert (now : Int) (key : RadixKey Tok) (value : List Int)
  | incLockRef (node : Nat)
  | decLockRef (node : Nat)
  | evict (numTokens : Int)

def radixMachine [DecidableEq Tok] : Machine (RadixState Tok) (RadixOp Tok) where
  step
    | .matchPrefix now key, s => some { s with cache := (s.cache.matchPrefix now key).2 }
    | .insert now key value, s => some { s with cache := (s.cache.insert now key value).2 }
    | .incLockRef node, s => some ⟨s.cache.incLockRef node, node :: s.holds⟩
    | .decLockRef node, s => some ⟨s.cache.decLockRef node, s.holds.erase node⟩
    | .evict numTokens, s => some { s with cache := (s.cache.evict numTokens).2 }

/-- Whole pages with a slot for each token are inserted, locks are taken on nodes of the tree, and
given back once. -/
def BalancedUse (s : RadixState Tok) : RadixOp Tok → Prop
  | .insert _ key value => s.cache.pageSize ∣ key.len ∧ value.length = key.len
  | .incLockRef node => node = s.cache.rootNode.id ∨ node ∈ ids s.cache.children
  | .decLockRef node => node ∈ s.holds
  | _ => True

instance (s : RadixState Tok) (op : RadixOp Tok) : Decidable (BalancedUse s op) := by
  cases op <;> unfold BalancedUse <;> infer_instance

def RadixState.start (pageSize : Nat) (h : 0 < pageSize) (policy : EvictionPolicy) (now : Int) :
    RadixState Tok := ⟨RadixCache.reset pageSize h policy now, []⟩

theorem radixMachine_step [DecidableEq Tok] {s s' : RadixState Tok} {op : RadixOp Tok}
    (h : RadixInv s.holds s.cache) (hguard : BalancedUse s op)
    (hstep : radixMachine.step op s = some s') : RadixInv s'.holds s'.cache := by
  cases op with
  | matchPrefix now key =>
    cases hstep
    exact h.matchPrefix now key
  | insert now key value =>
    cases hstep
    exact h.insert now hguard.1 hguard.2
  | incLockRef node =>
    cases hstep
    exact h.incLockRef hguard
  | decLockRef node =>
    cases hstep
    exact h.decLockRef hguard
  | evict numTokens =>
    cases hstep
    exact h.evict numTokens

theorem radixInv_of_reach [DecidableEq Tok] {pageSize : Nat} {hpage : 0 < pageSize}
    {policy : EvictionPolicy} {now : Int} {s : RadixState Tok}
    (h : radixMachine.Reach BalancedUse (· = RadixState.start pageSize hpage policy now) s) :
    RadixInv s.holds s.cache :=
  h.invariant (fun s hs => by rw [hs]; exact radixInv_reset pageSize hpage policy now)
    fun _ _ _ hs hguard hstep => radixMachine_step hs hguard hstep

/-- The cache is well formed, and its operations do what they are for. -/
structure RadixCorrect [DecidableEq Tok] (c : RadixCache Tok) : Prop where
  wellFormed : TreeWellFormed c
  matches_ : ∀ now key, MatchExact c key (c.matchPrefix now key).1 (c.matchPrefix now key).2
  inserts : ∀ now key value, c.pageSize ∣ key.len → value.length = key.len →
    InsertExact c key value (c.insert now key value).1 (c.insert now key value).2
  evicts : ∀ numTokens, EvictExact c numTokens (c.evict numTokens).1 (c.evict numTokens).2

theorem radixCache_correct [DecidableEq Tok] {pageSize : Nat} {hpage : 0 < pageSize}
    {policy : EvictionPolicy} {now : Int} {s : RadixState Tok}
    (h : radixMachine.Reach BalancedUse (· = RadixState.start pageSize hpage policy now) s) :
    RadixCorrect s.cache := by
  have hinv := radixInv_of_reach h
  exact {
    wellFormed := ⟨hinv.shaped, hinv.locks.fall, hinv.locks.nonneg, hinv.evictable, hinv.protect⟩
    matches_ := fun now key => matchPrefix_exact hinv now key
    inserts := fun now key value halign _ => insert_exact hinv now halign
    evicts := fun numTokens => evict_exact hinv numTokens }

/-- Two keys that share a page, one of them locked while the other is evicted. -/
def sharedPageOps : List (RadixOp Nat) :=
  [.insert 0 ⟨[1, 2, 3, 4], none⟩ [8, 9, 12, 13], .insert 10 ⟨[1, 2, 5, 6], none⟩ [8, 9, 20, 21],
    .matchPrefix 20 ⟨[1, 2, 5, 6, 7], none⟩, .incLockRef 3, .evict 4]

theorem radixCache_correct_sharedPage :
    ∃ s : RadixState Nat, radixMachine.Reach BalancedUse
      (· = RadixState.start 2 (by decide) .lru 0) s ∧ RadixCorrect s.cache := by
  have hrun : (radixMachine.guardedRun BalancedUse sharedPageOps
      (RadixState.start 2 (by decide) .lru 0)).isSome = true := by decide +kernel
  have hreach := Machine.reach_guardedRun hrun
  exact ⟨_, hreach, radixCache_correct hreach⟩

/-- Two locks on one node below the root. -/
def lockTwiceOps : List (RadixOp Nat) :=
  [.insert 0 ⟨[1], none⟩ [5], .matchPrefix 1 ⟨[1], none⟩, .incLockRef 1, .incLockRef 1]

theorem lockTwice_runs : (radixMachine.guardedRun BalancedUse lockTwiceOps
    (RadixState.start 1 (by decide) .lru 0)).isSome = true := by decide +kernel

/-- The root keeps the lock count it was made with, whatever is locked below it. -/
theorem radixCache_root_counterexample :
    ∃ s : RadixState Nat, radixMachine.Reach BalancedUse
        (· = RadixState.start 1 (by decide) .lru 0) s ∧
      ∃ c ∈ s.cache.children.roots, ¬ c.lockRef ≤ s.cache.rootNode.lockRef := by
  refine ⟨_, Machine.reach_guardedRun lockTwice_runs, ?_⟩
  decide +kernel

end QCFuse.Guarantees
