import QCFuse.Guarantees.RadixRuns
import QCFuse.Source.RequestCache

/-!
# Paths to the nodes requests hold

The tokens and slots on the way from the root to a node. A walk may split the nodes of a path, but
its end keeps its id, its tokens and its slots; a held node is not evicted, and neither is what
lies above it.
-/

set_option autoImplicit false

namespace QCFuse.Guarantees

open QCFuse.Library QCFuse.Source

variable {Tok : Type}

/-- The keys on the way to the node `id` spell `t`, and their slots are `s`. -/
def PathTo : Children Tok → Nat → Option String → List Tok → List Int → Prop
  | .nil, _, _, _, _ => False
  | .cons _ node below rest, id, extraKey, t, s =>
    (node.key.extraKey = extraKey ∧
      ((node.id = id ∧ t = node.key.tokenIds ∧ s = node.value) ∨
        ∃ t' s', t = node.key.tokenIds ++ t' ∧ s = node.value ++ s' ∧ PathTo below id extraKey t' s')) ∨
      PathTo rest id extraKey t s

section Paths

variable {P newId id : Nat} {f f' : Children Tok} {extraKey : Option String} {t : List Tok} {s : List Int}

theorem PathTo.mem_ids (h : PathTo f id extraKey t s) : id ∈ ids f := by
  induction f generalizing t s with
  | nil => exact h.elim
  | cons childKey node below rest ihb ihr =>
    rw [ids_cons]
    rcases h with ⟨_, ⟨rfl, _⟩ | ⟨t', s', _, _, hbelow⟩⟩ | hrest
    · exact List.mem_cons_self
    · exact List.mem_cons_of_mem _ (List.mem_append_left _ (ihb hbelow))
    · exact List.mem_cons_of_mem _ (List.mem_append_right _ (ihr hrest))

theorem PathTo.ne_nil_length (hshape : Shaped P f) (h : PathTo f id extraKey t s) :
    t ≠ [] ∧ s.length = t.length ∧ P ∣ t.length := by
  induction f generalizing t s with
  | nil => exact h.elim
  | cons childKey node below rest ihb ihr =>
    obtain ⟨hnode, _, hbelow, hrest, _⟩ := hshape.cons
    rcases h with ⟨_, ⟨_, rfl, rfl⟩ | ⟨t', s', rfl, rfl, hpath⟩⟩ | hpath
    · exact ⟨hnode.nonempty, hnode.valued, hnode.aligned⟩
    · obtain ⟨_, hlen, hdvd⟩ := ihb hbelow hpath
      refine ⟨fun hnil => hnode.nonempty (List.append_eq_nil_iff.mp hnil).1, ?_, ?_⟩
      · rw [List.length_append, List.length_append, hlen, hnode.valued, RadixKey.len]
      · rw [List.length_append]
        exact Nat.dvd_add hnode.aligned hdvd
    · exact ihr hrest hpath

/-- What lies on the path to a node is stored. -/
theorem PathTo.stored (hshape : Shaped P f) (h : PathTo f id extraKey t s) :
    TreeStores f extraKey t s := by
  induction f generalizing t s with
  | nil => exact h.elim
  | cons childKey node below rest ihb ihr =>
    obtain ⟨hnode, _, hbelow, hrest, _⟩ := hshape.cons
    rcases h with ⟨heq, ⟨_, rfl, rfl⟩ | ⟨t', s', rfl, rfl, hpath⟩⟩ | hpath
    · exact .inl ⟨heq, .inl ⟨hnode.nonempty, List.prefix_refl _, by
        rw [← RadixKey.len, ← hnode.valued, List.take_length]⟩⟩
    · exact .inl ⟨heq, .inr ⟨t', s', rfl, rfl, ihb hbelow hpath⟩⟩
    · exact .inr (ihr hrest hpath)

/-- A walk leaves every path as it is. -/
theorem Walk.path {w : Option (List Int)} {key : RadixKey Tok} {n : Nat} {found : List Int}
    (hwalk : Walk P newId w key n found f f') (h : PathTo f id extraKey t s) :
    PathTo f' id extraKey t s := by
  induction hwalk generalizing t s with
  | missing => exact h
  | added => exact h.elim
  | next _ _ ih => exact h.imp_right ih
  | whole => exact h
  | deeper now rest _ _ _ ih =>
    rcases h with ⟨heq, hhere | ⟨t', s', rfl, rfl, hpath⟩⟩ | hrest
    · exact .inl ⟨heq, .inl hhere⟩
    · exact .inl ⟨heq, .inr ⟨t', s', rfl, rfl, ih hpath⟩⟩
    · exact .inr hrest
  | split now below rest _ _ _ _ | splitAdded now value below rest _ _ _ _ =>
    rcases h with ⟨heq, ⟨hid, rfl, rfl⟩ | ⟨t', s', rfl, rfl, hpath⟩⟩ | hrest
    · refine .inl ⟨heq, .inr ⟨_, _, (List.take_append_drop _ _).symm, (List.take_append_drop _ _).symm, ?_⟩⟩
      exact .inl ⟨heq, .inl ⟨hid, rfl, rfl⟩⟩
    · refine .inl ⟨heq, .inr ⟨_, _, ?_, ?_, .inl ⟨heq, .inr ⟨t', s', rfl, rfl, hpath⟩⟩⟩⟩
      · rw [← List.append_assoc]
        exact congrArg (· ++ t') (List.take_append_drop _ _).symm
      · rw [← List.append_assoc]
        exact congrArg (· ++ s') (List.take_append_drop _ _).symm
    · exact .inr hrest

theorem pathTo_mapPath (hit : TreeNode Tok → Bool) (delta : Int) :
    PathTo (f.mapPath hit (addLock delta)) id extraKey t s ↔ PathTo f id extraKey t s := by
  induction f generalizing t s with
  | nil => exact Iff.rfl
  | cons childKey n below rest ihb ihr =>
    rw [Forest.mapPath, PathTo, PathTo, ihr]
    simp only [ihb]
    split <;> exact Iff.rfl

/-- Deleting nodes without a lock leaves the path to a held node as it is. -/
theorem PathTo.erase {holds : List Nat} {hit : TreeNode Tok → Bool} (hlocks : LocksCounted holds f)
    (hheld : id ∈ holds) (hhit : ∀ n ∈ f.nodes, hit n = true → n.lockRef ≤ 0)
    (h : PathTo f id extraKey t s) : PathTo (f.erase hit) id extraKey t s := by
  induction f generalizing t s with
  | nil => exact h
  | cons childKey node below rest ihb ihr =>
    obtain ⟨hcount, hbelow, hrest⟩ := hlocks
    have hpos : id ∈ node.id :: ids below → ¬ hit node = true := by
      intro hmem htrue
      have hle := hhit node (by rw [Forest.nodes]; exact List.mem_cons_self) htrue
      have : 0 < holds.countP fun h => h ∈ node.id :: ids below :=
        List.countP_pos_iff.mpr ⟨id, hheld, decide_eq_true hmem⟩
      omega
    rw [Forest.erase]
    rcases h with ⟨heq, ⟨hid, rfl, rfl⟩ | ⟨t', s', rfl, rfl, hpath⟩⟩ | hpath
    · rw [if_neg (hpos (hid ▸ List.mem_cons_self))]
      exact .inl ⟨heq, .inl ⟨hid, rfl, rfl⟩⟩
    · rw [if_neg (hpos (List.mem_cons_of_mem _ hpath.mem_ids))]
      refine .inl ⟨heq, .inr ⟨t', s', rfl, rfl, ihb hbelow (fun n hn => hhit n ?_) hpath⟩⟩
      rw [Forest.nodes]
      exact List.mem_cons_of_mem _ (List.mem_append_left _ hn)
    · have hpath' := ihr hrest (fun n hn => hhit n (by
        rw [Forest.nodes]
        exact List.mem_cons_of_mem _ (List.mem_append_right _ hn))) hpath
      split
      · exact hpath
      · exact .inr hpath'

theorem Evicts.path {holds : List Nat} {xs : List (TreeNode Tok)} (hevicts : Evicts xs f f')
    (hids : (ids f).Nodup) (hlocks : LocksCounted holds f) (hheld : id ∈ holds)
    (h : PathTo f id extraKey t s) : PathTo f' id extraKey t s := by
  induction hevicts with
  | done => exact h
  | @next x xs f f' f'' hleaf _ ih =>
    have hnode := Forest.leaves_subset_nodes _ _ hleaf.leaf
    have hnot := hlocks.not_held _ hnode hleaf.unlocked
    refine ih (hleaf.ids_nodup hids) (hleaf.locksCounted hids hlocks hnot) ?_
    rw [hleaf.deleted]
    refine h.erase hlocks hheld fun n hn hhit => ?_
    rw [node_eq_of_id hids hn hnode (of_decide_eq_true hhit)]
    exact hleaf.unlocked

end Paths

/-! ## The node a match ends at -/

section Match

variable [DecidableEq Tok] {P : Nat}

/-- The walk of a match ends at the node whose path has what was found. -/
theorem matchPrefixHelper_path (newId : Nat) (hP : 0 < P) (f : Children Tok) (now : Int)
    (key : RadixKey Tok) (hshape : Shaped P f) (hkey : key.tokenIds ≠ []) (halign : P ∣ key.len) :
    ((matchPrefixHelper P newId now key f).2.1 = none ∧ (matchPrefixHelper P newId now key f).1 = []) ∨
    ∃ id, (matchPrefixHelper P newId now key f).2.1 = some id ∧
      PathTo (matchPrefixHelper P newId now key f).2.2 id key.extraKey
        (key.tokenIds.take (matchPrefixHelper P newId now key f).1.flatten.length)
        (matchPrefixHelper P newId now key f).1.flatten := by
  induction f generalizing now key with
  | nil => exact .inl ⟨rfl, rfl⟩
  | cons childKey node below rest ihb ihr =>
    obtain ⟨hnode, hnot, hbelow, hrest, hextra⟩ := hshape.cons
    unfold matchPrefixHelper
    by_cases hfound : childKey = getChildKey P key
    · obtain ⟨hnamespace, hmatch, hpos⟩ := matches_of_filed hP hnode hfound hkey halign
      rw [if_pos hfound]
      by_cases hshort : keyMatch P node.key key < node.key.len
      · simp only [if_pos hshort, List.flatten_singleton]
        refine .inr ⟨newId, rfl, .inl ⟨hnamespace, .inl ⟨rfl, ?_, rfl⟩⟩⟩
        have hlen : (node.value.take (keyMatch P node.key key)).length = keyMatch P node.key key := by
          rw [List.length_take, hnode.valued]
          omega
        show key.tokenIds.take (node.value.take _).length = node.key.tokenIds.take _
        rw [hlen, hmatch.agree]
      · obtain ⟨hlen, hpre⟩ := hmatch.whole hshort
        have hvalued : node.value.length = node.key.tokenIds.length := hnode.valued
        by_cases hmore : (key.drop (keyMatch P node.key key)).tokenIds = []
        · simp only [if_neg hshort, if_pos hmore, List.flatten_singleton]
          refine .inr ⟨node.id, rfl, .inl ⟨hnamespace, .inl ⟨rfl, ?_, rfl⟩⟩⟩
          rw [hvalued]
          exact (List.prefix_iff_eq_take.mp hpre).symm
        · simp only [if_neg hshort, if_neg hmore, List.flatten_cons]
          rw [hlen] at hmore ⊢
          have hdrop : (key.drop node.key.tokenIds.length).tokenIds =
              key.tokenIds.drop node.key.tokenIds.length := rfl
          have htake : ∀ n, key.tokenIds.take (node.key.tokenIds.length + n) =
              node.key.tokenIds ++ (key.tokenIds.drop node.key.tokenIds.length).take n := by
            intro n
            rw [List.take_add, ← List.prefix_iff_eq_take.mp hpre]
          rcases ihb (now + 1) (key.drop node.key.tokenIds.length) hbelow hmore
            (dvd_len_drop halign hnode.aligned) with ⟨hnone, hvalues⟩ | ⟨id, hsome, hpath⟩
          · rw [hnone, hvalues]
            refine .inr ⟨node.id, rfl, .inl ⟨hnamespace, .inl ⟨rfl, ?_, ?_⟩⟩⟩
            · rw [List.flatten_nil, List.append_nil, hvalued]
              exact (List.prefix_iff_eq_take.mp hpre).symm
            · exact List.append_nil _
          · rw [hsome]
            refine .inr ⟨id, rfl, .inl ⟨hnamespace, .inr ⟨_, _, ?_, rfl, hpath⟩⟩⟩
            rw [List.length_append, hvalued, htake, hdrop]
            rfl
    · rw [if_neg hfound]
      rcases ihr now key hrest hkey halign with ⟨hnone, hvalues⟩ | ⟨id, hsome, hpath⟩
      · exact .inl ⟨hnone, hvalues⟩
      · exact .inr ⟨id, hsome, .inr hpath⟩

@[simp] theorem insert_pageSize (c : RadixCache Tok) (now : Int) (key : RadixKey Tok) (value : List Int) :
    (c.insert now key value).2.pageSize = c.pageSize := by
  rw [RadixCache.insert]
  split <;> rfl

@[simp] theorem matchPrefix_pageSize (c : RadixCache Tok) (now : Int) (key : RadixKey Tok) :
    (c.matchPrefix now key).2.pageSize = c.pageSize := by
  rw [RadixCache.matchPrefix]
  dsimp only
  split <;> rfl

@[simp] theorem insert_rootNode (c : RadixCache Tok) (now : Int) (key : RadixKey Tok) (value : List Int) :
    (c.insert now key value).2.rootNode.id = c.rootNode.id := by
  rw [RadixCache.insert]
  split <;> rfl

@[simp] theorem matchPrefix_rootNode (c : RadixCache Tok) (now : Int) (key : RadixKey Tok) :
    (c.matchPrefix now key).2.rootNode.id = c.rootNode.id := by
  rw [RadixCache.matchPrefix]
  dsimp only
  split <;> rfl

/-- A match ends at the root with nothing, or at the node whose path has what it returns. -/
theorem matchPrefix_path {holds : List Nat} {c : RadixCache Tok} (h : RadixInv holds c) (now : Int)
    (key : RadixKey Tok) :
    ((c.matchPrefix now key).1.deviceIndices = [] ∧
      (c.matchPrefix now key).1.lastDeviceNode = c.rootNode.id) ∨
    PathTo (c.matchPrefix now key).2.children (c.matchPrefix now key).1.lastDeviceNode key.extraKey
      (key.tokenIds.take (c.matchPrefix now key).1.deviceIndices.length)
      (c.matchPrefix now key).1.deviceIndices := by
  have hwithin := (matchPrefix_exact h now key).within
  rcases matchPrefix_cases c h.shaped now key with ⟨_, heq⟩ | ⟨hne, n, children, hwalk, _⟩
  · rw [heq]
    exact .inl ⟨rfl, rfl⟩
  · have hempty : ¬ (alignedKey c.pageSize key).len = 0 := fun hzero =>
      hne (List.eq_nil_of_length_eq_zero hzero)
    have hle := (hwalk.found h.shaped hne (alignedKey_dvd _ _)).le
    have hlen := (hwalk.found h.shaped hne (alignedKey_dvd _ _)).length
    have htake := take_alignedKey (hlen ▸ hle)
    rw [RadixCache.matchPrefix] at htake ⊢
    simp only [alignedKey] at hempty htake
    rcases matchPrefixHelper_path c.counter c.pageSize_pos c.children (now + 1) (alignedKey c.pageSize key)
      h.shaped hne (alignedKey_dvd _ _) with ⟨hnone, hvalues⟩ | ⟨id, hsome, hpath⟩
    · simp only [alignedKey] at hnone hvalues
      rw [if_neg hempty]
      exact .inl ⟨congrArg List.flatten hvalues, congrArg (Option.getD · _) hnone⟩
    · simp only [alignedKey] at hsome hpath
      simp only [if_neg hempty] at htake ⊢
      rw [htake] at hpath
      rw [hsome]
      exact .inr hpath

/-- The node a match ends at may be locked. -/
theorem matchPrefix_lastNode {holds : List Nat} {c : RadixCache Tok} (h : RadixInv holds c) (now : Int)
    (key : RadixKey Tok) :
    (c.matchPrefix now key).1.lastDeviceNode = (c.matchPrefix now key).2.rootNode.id ∨
      (c.matchPrefix now key).1.lastDeviceNode ∈ ids (c.matchPrefix now key).2.children := by
  rw [matchPrefix_rootNode]
  exact (matchPrefix_path h now key).imp And.right PathTo.mem_ids

/-- What has just been inserted is matched as a whole. -/
theorem insert_matchPrefix {holds : List Nat} {c : RadixCache Tok} (h : RadixInv holds c)
    (now later : Int) {key : RadixKey Tok} {value : List Int} (halign : c.pageSize ∣ key.len)
    (hvalue : value.length = key.len) :
    ((c.insert now key value).2.matchPrefix later key).1.deviceIndices.length = key.len := by
  have hexact := matchPrefix_exact (h.insert now halign hvalue) later key
  refine Nat.le_antisymm hexact.within ?_
  rcases Nat.eq_zero_or_pos key.len with hzero | hpos
  · omega
  · obtain ⟨s, hlen, hs, hstored⟩ := (insert_exact h now halign).stored
    have hinserted : InsertExact c key value _ _ := insert_exact h now halign
    have hle := hinserted.within
    have hfull : ∃ v, TreeStores (c.insert now key value).2.children key.extraKey key.tokenIds v := by
      rcases Nat.lt_or_eq_of_le hle with hlt | heq
      · exact ⟨_, (hstored _ _ _).mpr (.inr ⟨rfl, List.prefix_refl _, hlt, rfl⟩)⟩
      · refine ⟨s, (hstored _ _ _).mpr (.inl ?_)⟩
        have htree := hs (by omega)
        rwa [heq, RadixKey.len, List.take_length] at htree
    obtain ⟨v, hv⟩ := hfull
    exact hexact.longest _ v hv ((insert_pageSize c now key value).symm ▸ halign) (List.prefix_refl _)

end Match

/-! ## Locks of several holders -/

section Holders

variable {holds holds' : List Nat} {c : RadixCache Tok}

theorem RadixInv.perm (h : RadixInv holds c) (hperm : holds.Perm holds') : RadixInv holds' c where
  shaped := h.shaped
  idsNodup := h.idsNodup
  idsOld := h.idsOld
  rootOld := h.rootOld
  rootApart := h.rootApart
  held i hi := h.held i (hperm.mem_iff.mpr hi)
  locks := h.locks.imp fun _ _ _ hcount => hcount.trans (congrArg Nat.cast (hperm.countP_eq _))
  evictable := h.evictable
  protect := h.protect

/-- What the others do leaves the locks of `own` where they are. -/
theorem RadixInv.others [DecidableEq Tok] (own : List Nat) (h : RadixInv (own ++ holds) c)
    {op : RadixOp Tok} {r : RadixState Tok} (hguard : BalancedUse ⟨c, holds⟩ op)
    (hstep : radixMachine.step op ⟨c, holds⟩ = some r) : RadixInv (own ++ r.holds) r.cache := by
  cases op with
  | matchPrefix now key =>
    cases hstep
    exact h.matchPrefix now key
  | insert now key value =>
    cases hstep
    exact h.insert now hguard.1 hguard.2
  | incLockRef node =>
    cases hstep
    exact (h.incLockRef hguard).perm List.perm_middle.symm
  | decLockRef node =>
    cases hstep
    have hmem : node ∈ holds := hguard
    refine (h.decLockRef (List.mem_append_right own hmem)).perm ?_
    refine (List.perm_append_comm.erase node).trans ?_
    rw [List.erase_append_left _ hmem]
    exact List.perm_append_comm
  | evict numTokens =>
    cases hstep
    exact h.evict numTokens

end Holders

/-! ## What the cache does for a request -/

section Requests

variable {c : RadixCache Nat} {others : List Nat} {req : CachedReq}

theorem pageAligned_le (P len : Nat) : pageAligned P len ≤ len := Nat.div_mul_le_self _ _

theorem pageAligned_dvd (P len : Nat) : P ∣ pageAligned P len := Nat.dvd_mul_left _ _

/-- The key under which what is computed of a request is inserted. -/
def unfinishedKey (P : Nat) (req : CachedReq) : RadixKey Nat :=
  ⟨req.fillIds.take (pageAligned P req.fillIds.length), req.extraKey⟩

theorem unfinishedKey_len (P : Nat) (req : CachedReq) :
    (unfinishedKey P req).len = pageAligned P req.fillIds.length :=
  List.length_take_of_le (pageAligned_le _ _)

/-- The cache after the insertion of `cache_unfinished_req`, and the length present before. -/
def unfinishedInsert (c : RadixCache Nat) (now : Int) (req : CachedReq) : Nat × RadixCache Nat :=
  c.insert now (unfinishedKey c.pageSize req)
    ((req.row.take req.fillIds.length).take (pageAligned c.pageSize req.fillIds.length))

/-- The match that follows it. -/
def unfinishedMatch (c : RadixCache Nat) (now later : Int) (req : CachedReq) :
    MatchResult × RadixCache Nat :=
  (unfinishedInsert c now req).2.matchPrefix later (unfinishedKey c.pageSize req)

theorem unfinished_value_length (hrow : req.fillIds.length ≤ req.row.length) :
    ((req.row.take req.fillIds.length).take (pageAligned c.pageSize req.fillIds.length)).length =
      (unfinishedKey c.pageSize req).len := by
  have hle := pageAligned_le c.pageSize req.fillIds.length
  rw [unfinishedKey_len, List.length_take, List.length_take]
  omega

theorem unfinishedKey_dvd : c.pageSize ∣ (unfinishedKey c.pageSize req).len := by
  rw [unfinishedKey_len]
  exact pageAligned_dvd _ _

theorem cacheUnfinishedReq_plain (now later : Int) (hplain : req.blendStyle = none) :
    c.cacheUnfinishedReq now later req =
      let new := unfinishedMatch c now later req
      let newIndices := new.1.deviceIndices
      let kvIndices := req.row.take req.fillIds.length
      ({ req with
          row := overwrite req.row req.prefixIndices.length (newIndices.drop req.prefixIndices.length)
          lastMatchedPrefixLen := newIndices.length
          prefixIndices :=
            if c.pageSize ≠ 1 then newIndices ++ kvIndices.drop newIndices.length else newIndices
          lastNode := new.1.lastDeviceNode },
        [pySlice kvIndices req.prefixIndices.length (unfinishedInsert c now req).1],
        (new.2.decLockRef req.lastNode).incLockRef new.1.lastDeviceNode) := by
  rw [RadixCache.cacheUnfinishedReq, hplain]
  simp only [Option.isSome_none, Bool.false_eq_true, if_false, unfinishedMatch, unfinishedInsert,
    unfinishedKey, matchPrefix_pageSize, insert_pageSize]

theorem unfinishedInsert_inv (h : RadixInv (req.lastNode :: others) c) (now : Int)
    (hrow : req.fillIds.length ≤ req.row.length) :
    RadixInv (req.lastNode :: others) (unfinishedInsert c now req).2 :=
  h.insert now unfinishedKey_dvd (unfinished_value_length hrow)

theorem unfinishedMatch_inv (h : RadixInv (req.lastNode :: others) c) (now later : Int)
    (hrow : req.fillIds.length ≤ req.row.length) :
    RadixInv (req.lastNode :: others) (unfinishedMatch c now later req).2 :=
  (unfinishedInsert_inv h now hrow).matchPrefix later _

/-- The whole pages of the request are matched. -/
theorem unfinishedMatch_length (h : RadixInv (req.lastNode :: others) c) (now later : Int)
    (hrow : req.fillIds.length ≤ req.row.length) :
    (unfinishedMatch c now later req).1.deviceIndices.length = pageAligned c.pageSize req.fillIds.length := by
  rw [← unfinishedKey_len]
  exact insert_matchPrefix h now later unfinishedKey_dvd (unfinished_value_length hrow)

/-- The lock of a plain request moves on to the node of its whole pages. -/
theorem RadixInv.cacheUnfinishedReq (h : RadixInv (req.lastNode :: others) c) (now later : Int)
    (hplain : req.blendStyle = none) (hrow : req.fillIds.length ≤ req.row.length) :
    RadixInv ((c.cacheUnfinishedReq now later req).1.lastNode :: others)
      (c.cacheUnfinishedReq now later req).2.2 := by
  have hmatch := unfinishedMatch_inv h now later hrow
  have hdec := hmatch.decLockRef List.mem_cons_self
  rw [List.erase_cons_head] at hdec
  rw [cacheUnfinishedReq_plain now later hplain]
  refine hdec.incLockRef ?_
  have hlast := matchPrefix_lastNode (unfinishedInsert_inv h now hrow) later (unfinishedKey c.pageSize req)
  refine hlast.imp id fun hmem => ?_
  rw [RadixCache.decLockRef]
  exact (ids_mapPath _ (-1)).symm ▸ hmem

/-- `prefix_indices` is what is computed of the request. -/
theorem cacheUnfinishedReq_prefixLen (h : RadixInv (req.lastNode :: others) c) (now later : Int)
    (hplain : req.blendStyle = none) (hrow : req.fillIds.length ≤ req.row.length) :
    (c.cacheUnfinishedReq now later req).1.prefixIndices.length = req.fillIds.length := by
  have hlen := unfinishedMatch_length h now later hrow
  have hle := pageAligned_le c.pageSize req.fillIds.length
  rw [cacheUnfinishedReq_plain now later hplain]
  show (if c.pageSize ≠ 1 then (_ : List Int) else _).length = _
  split
  next =>
    rw [List.length_append, List.length_drop, List.length_take, hlen]
    omega
  next hone =>
    rw [not_not] at hone
    rw [hlen, pageAligned, hone, Nat.div_one, Nat.mul_one]

end Requests

end QCFuse.Guarantees
