import QCFuse.Guarantees.KvRequests
import QCFuse.Guarantees.PreemptionBudget
import QCFuse.Source.AdmissionRound

/-!
# What is admitted can be allocated

The paged input of the requests on the list stays within what is free or can be evicted, whatever
the later admissions lock, since the budget of each is read again under its lock. An allocation
evicts as much as it may need, so it finds the pages.
-/

set_option autoImplicit false

namespace QCFuse.Guarantees

open QCFuse.Library QCFuse.Source

/-! ## What is claimed of a round -/

/-- A request as `init_next_round_input` leaves it: what is behind its prefix is to be computed. -/
def Prepared (req : Req) : Prop :=
  req.prefixIndices.length ≤ req.fillIds.length ∧ req.extendInputLen = req.inputIds.length

instance (req : Req) : Decidable (Prepared req) := inferInstanceAs (Decidable (_ ∧ _))

inductive AdmissionCall where
  | matchPrefix (now : Int) (key : RadixKey Nat)
  | addChunkedReq (req : Req)
  | addOneReq (req : Req) (lastNode : Nat)

def admissionMachine : Machine AdmissionRound AdmissionCall where
  step
    | .matchPrefix now key, s => some (s.matchPrefix now key)
    | .addChunkedReq req, s => s.addChunkedReq req
    | .addOneReq req lastNode, s => some (s.addOneReq req lastNode)

/-- The chunked request comes first, while the budgets are positive, and the node of any other one
is in the tree. -/
def CallsOnTree (s : AdmissionRound) : AdmissionCall → Prop
  | .matchPrefix _ _ => True
  | .addChunkedReq req => Prepared req ∧ s.adder.canRunList = [] ∧
      s.adder.remChunkTokens.any (0 < ·) = true ∧ 0 < s.current.remTotalTokens
  | .addOneReq req lastNode => Prepared req ∧
      (lastNode = s.cache.rootNode.id ∨ lastNode ∈ ids s.cache.children)

instance (s : AdmissionRound) (call : AdmissionCall) : Decidable (CallsOnTree s call) := by
  cases call <;> unfold CallsOnTree <;> infer_instance

/-- A tree and a pool as the scheduler has them: the tree is well formed, and no page is in it twice. -/
structure TreeReady (cache : RadixCache Nat) (disable : Bool) (pool : PagedAllocator) : Prop where
  radix : ∃ holds, RadixInv holds cache
  ready : PoolReady cache.pageSize pool
  nodes : NodesInPages cache.pageSize cache.children
  once : (treePages cache.pageSize cache.children).Nodup
  disabled : disable = true → cache.children = .nil

/-- A new `PrefillAdder` over a running batch, with no decode tokens mixed in. Where the radix cache
is disabled, prompts are not chunked. -/
structure RoundStart (p : PrefillState) (s : AdmissionRound) : Prop where
  tree : TreeReady s.cache s.disable s.pool
  adder : s.adder = p.adder
  pageSize : p.pageSize = s.cache.pageSize
  unchunked : s.disable = true → p.chunkedPrefillSize = none
  unmixed : p.isMixedChunk = false
  align : ∀ align, p.truncationAlignSize = some align → 0 < align

/-- What `PrefillAdder` reserves for the running batch. -/
def reserved (p : PrefillState) : Rat :=
  (p.running.map fun r =>
    (min ((r.maxNewTokens : Int) - r.outputIds.length) p.clipMaxNewTokens : Rat) * p.newTokenRatio).sum

/-- Where no running request has outputs beyond its `max_new_tokens`, each reserves something. -/
theorem reserved_nonneg {p : PrefillState} (hratio : 0 ≤ p.newTokenRatio)
    (hrunning : ∀ r ∈ p.running, r.outputIds.length ≤ r.maxNewTokens) : 0 ≤ reserved p := by
  refine List.sum_nonneg fun x hx => ?_
  obtain ⟨r, hr, rfl⟩ := List.mem_map.mp hx
  have hle : (r.outputIds.length : Rat) ≤ r.maxNewTokens := by exact_mod_cast hrunning r hr
  have hleft : (0 : Rat) ≤ (r.maxNewTokens : Int) - r.outputIds.length := by
    push_cast
    linarith
  exact mul_nonneg (le_min hleft (Nat.cast_nonneg _)) hratio

/-! ## Pages that are wanted -/

/-- The pages the requests want at most. -/
def pagesWanted (P : Nat) (reqs : List Req) : Nat := (reqs.map fun r => pagesOf P r.inputIds.length).sum

theorem pagesWanted_append (P : Nat) (reqs : List Req) (r : Req) :
    pagesWanted P (reqs ++ [r]) = pagesWanted P reqs + pagesOf P r.inputIds.length := by
  simp [pagesWanted]

theorem toNat_extendNumTokens (reqs : List Req) :
    (extendNumTokens reqs).toNat = (reqs.map fun r => r.inputIds.length).sum := by
  have hcast : extendNumTokens reqs = ((reqs.map fun r => r.inputIds.length).sum : Nat) := by
    simp [extendNumTokens, Nat.cast_list_sum, Function.comp_def]
  rw [hcast, Int.toNat_natCast]

theorem pagesWanted_mul_le {P : Nat} (hP : 0 < P) (reqs : List Req) :
    pagesWanted P reqs * P ≤ (extendNumTokens reqs).toNat + reqs.length * P := by
  rw [toNat_extendNumTokens]
  induction reqs with
  | nil => simp [pagesWanted]
  | cons r reqs ih =>
    have hr := pagesOf_mul_lt hP r.inputIds.length
    simp only [pagesWanted, List.map_cons, List.sum_cons, List.length_cons, Nat.add_mul, Nat.one_mul] at ih ⊢
    omega

theorem pagesWanted_one (reqs : List Req) : pagesWanted 1 reqs = (extendNumTokens reqs).toNat := by
  rw [toNat_extendNumTokens, pagesWanted]
  exact congrArg List.sum (List.map_congr_left fun r _ => by simp [pagesOf])

theorem getNumNewPages_le {P : Nat} (hP : 0 < P) {reqs : List Req} (h : ∀ r ∈ reqs, Prepared r) :
    getNumNewPages (reqs.map fun r => r.fillIds.length) P (some (reqs.map fun r => r.prefixIndices.length)) ≤
      pagesWanted P reqs := by
  rw [getNumNewPages, sumDiff, List.map_map, List.map_map, List.zipWith_map, List.zipWith_self, pagesWanted]
  refine List.sum_le_sum fun r hr => ?_
  have hlen : r.inputIds.length = r.fillIds.length - r.prefixIndices.length := List.length_drop
  rw [hlen]
  exact pagesOf_sub_pagesOf hP (h r hr).1

/-! ## What the adder takes -/

section Adder

variable {adder : PrefillAdder} {req : Req}

theorem ceilPagedTokens_natCast (hP : 0 < adder.pageSize) (n : Nat) :
    adder.ceilPagedTokens n = (pagesOf adder.pageSize n * adder.pageSize : Nat) := by
  have hle := le_pagesOf_mul hP n
  have hlt := pagesOf_mul_lt hP n
  have hsplit : -(n : Int) = ((pagesOf adder.pageSize n * adder.pageSize - n : Nat) : Int) +
      -(pagesOf adder.pageSize n : Int) * adder.pageSize := by
    rw [Nat.cast_sub hle]
    push_cast
    ring
  rw [PrefillAdder.ceilPagedTokens, hsplit, Int.add_mul_ediv_right _ _ (by omega),
    Int.ediv_eq_zero_of_lt (Int.natCast_nonneg _) (by omega), zero_add, neg_neg, Nat.cast_mul]

/-- A request put on the list, whole or cut to a chunk. -/
def CutOf (req r : Req) : Prop :=
  r = req ∨ ∃ n : Int, 0 ≤ n ∧ n ≤ req.extendInputLen ∧
    r = { req with extendInputLen := n, fillIds := pyTake req.fillIds (req.prefixIndices.length + n) }

theorem CutOf.prepared {r : Req} (h : CutOf req r) (hreq : Prepared req) :
    Prepared r ∧ r.inputIds.length ≤ req.inputIds.length := by
  rcases h with rfl | ⟨n, hn, hle, rfl⟩
  · exact ⟨hreq, le_rfl⟩
  · obtain ⟨hwithin, hlen⟩ := hreq
    have hinput : req.inputIds.length = req.fillIds.length - req.prefixIndices.length := List.length_drop
    have htake : (pyTake req.fillIds (req.prefixIndices.length + n)).length = req.prefixIndices.length + n.toNat := by
      rw [pyTake, if_neg (by omega), List.length_take]
      omega
    have hcut : ({ req with extendInputLen := n, fillIds := pyTake req.fillIds (req.prefixIndices.length + n) } :
        Req).inputIds.length = n.toNat := by
      rw [Req.inputIds, List.length_drop, htake]
      exact Nat.add_sub_cancel_left ..
    refine ⟨⟨?_, ?_⟩, ?_⟩
    · show req.prefixIndices.length ≤ (pyTake _ _).length
      omega
    · rw [hcut]
      show n = (n.toNat : Int)
      omega
    · rw [hcut]
      omega

/-- `add_one_req` keeps the settings, and what it puts on the list fits under its lock. -/
structure Allows (tree : TreeCache) (adder : PrefillAdder) (req : Req) (adder' : PrefillAdder) : Prop where
  align : adder'.truncationAlignSize = adder.truncationAlignSize
  unchunked : adder.remChunkTokens = none → adder'.remChunkTokens = none
  room : ∀ r, adder'.canRunList = adder.canRunList ++ [r] → CutOf req r ∧
    (adder.remTotalTokenOffset + req.extendInputLen < adder.availableAndEvictable - tree.lockSize req ∨
      tree.disable = true ∧
        adder.remTotalTokenOffset + adder.ceilPagedTokens req.extendInputLen ≤ adder.availableAndEvictable)

theorem truncLen_nonneg {remChunkTokens truncLen : Int}
    (halign : ∀ align, adder.truncationAlignSize = some align → 0 < align)
    (h : adder.truncLen remChunkTokens = some truncLen) : 0 ≤ truncLen := by
  simp only [PrefillAdder.truncLen] at h
  split at h
  next => cases h
  next hpos =>
    split at h
    next =>
      cases h
      exact (not_le.mp hpos).le
    next align hsome =>
      split at h
      next => cases h
      next =>
        cases h
        have := halign align hsome
        exact Int.mul_nonneg this.le (Int.ediv_nonneg (not_le.mp hpos).le this.le)

theorem addOneReq_allows {tree : TreeCache} (hP : 0 < adder.pageSize)
    (halign : ∀ align, adder.truncationAlignSize = some align → 0 < align)
    (hdisabled : tree.disable = true → adder.remChunkTokens = none) :
    Allows tree adder req (adder.addOneReq tree req).1 := by
  have hkept : ∀ {adder' : PrefillAdder}, adder'.truncationAlignSize = adder.truncationAlignSize →
      (adder.remChunkTokens = none → adder'.remChunkTokens = none) →
      adder'.canRunList = adder.canRunList → Allows tree adder req adder' :=
    fun hsame hchunk hlist => ⟨hsame, hchunk, fun r hr => by simp [hlist] at hr⟩
  unfold PrefillAdder.addOneReq
  split
  next hignore =>
    have hdis : tree.disable = true := (Bool.and_eq_true _ _ ▸ hignore).2
    have hnone := hdisabled hdis
    simp only [PrefillAdder.addOneReqIgnoreEos]
    split
    next => exact hkept rfl id rfl
    next hfits =>
      split
      next => exact hkept rfl id rfl
      next =>
        rw [hnone]
        refine ⟨rfl, fun _ => rfl, fun r hr => ?_⟩
        have hreq : r = req := (List.singleton_inj.mp (List.append_cancel_left hr)).symm
        have hleft := (not_lt.mp hfits).trans (min_le_right _ _)
        rw [PrefillAdder.remTotalTokens] at hleft
        exact ⟨.inl hreq, .inr ⟨hdis, by linarith⟩⟩
  next =>
    simp only
    split
    next => exact hkept rfl id rfl
    next =>
      split
      next => exact hkept rfl id rfl
      next =>
        split
        next => exact hkept rfl id rfl
        next hroom =>
          have hlock : adder.remTotalTokenOffset + req.extendInputLen <
              adder.availableAndEvictable - tree.lockSize req := by
            rw [PrefillAdder.remTotalTokens, not_le] at hroom
            push_cast at hroom
            have hnew : (0 : Rat) ≤ (min (req.maxNewTokens - req.outputIds.length) adder.clipMaxNewTokens : Nat) :=
              Nat.cast_nonneg _
            push_cast at hnew
            linarith
          have hwhole : ∀ {adder' : PrefillAdder}, adder'.truncationAlignSize = adder.truncationAlignSize →
              (adder.remChunkTokens = none → adder'.remChunkTokens = none) →
              adder'.canRunList = adder.canRunList ++ [req] → Allows tree adder req adder' :=
            fun hsame hchunk hlist => ⟨hsame, hchunk, fun r hr =>
              ⟨.inl (List.singleton_inj.mp (List.append_cancel_left (hlist.symm.trans hr))).symm, .inl hlock⟩⟩
          split
          next hnone =>
            refine hwhole rfl (fun _ => ?_) rfl
            rw [PrefillAdder.updatePrefillBudget, PrefillAdder.append, hnone]
            rfl
          next remChunkTokens hsome =>
            split
            next => exact hwhole rfl (fun hnone => absurd (hsome.symm.trans hnone) (by simp)) rfl
            next hcut =>
              split
              next => exact hkept rfl id rfl
              next truncLen htrunc =>
                refine ⟨rfl, fun hnone => ?_, fun r hr => ?_⟩
                · rw [hnone] at hsome
                  cases hsome
                have hle := (truncLen_lt hP (not_le.mp hcut) htrunc).le
                exact ⟨.inr ⟨truncLen, truncLen_nonneg halign htrunc, hle,
                  (List.singleton_inj.mp (List.append_cancel_left hr)).symm⟩, .inl hlock⟩

/-- What `add_chunked_req` puts on the list is within the total budget. -/
structure AllowsChunk (adder : PrefillAdder) (req : Req) (adder' : PrefillAdder) (r : Req) : Prop where
  cut : CutOf req r
  listed : adder'.canRunList = adder.canRunList ++ [r]
  same : SameBudgeting adder adder'
  align : adder'.truncationAlignSize = adder.truncationAlignSize
  charged : adder.remTotalTokenOffset + adder.ceilPagedTokens r.extendInputLen ≤ adder'.remTotalTokenOffset
  room : adder.remTotalTokenOffset + r.extendInputLen ≤ adder.availableAndEvictable

theorem addChunkedReq_allows {adder' : PrefillAdder} {chunked : Option Req} {remChunkTokens : Int}
    (hsome : adder.remChunkTokens = some remChunkTokens) (hchunk : 0 < remChunkTokens)
    (htotal : 0 < adder.remTotalTokens) (hreq : 0 ≤ req.extendInputLen)
    (h : adder.addChunkedReq req = .ok (adder', chunked)) : ∃ r, AllowsChunk adder req adder' r := by
  have hfloor : (0 : Int) ≤ adder.remTotalTokens.floor := Rat.le_floor_iff.mpr (by exact_mod_cast htotal.le)
  have hbelow : ((adder.remTotalTokens.floor : Int) : Rat) ≤ adder.remTotalTokens := Rat.floor_le _
  rw [PrefillAdder.addChunkedReq, hsome] at h
  simp only [if_pos htotal.le] at h
  set remTokens := min remChunkTokens adder.remTotalTokens.floor with hrem
  have hcut : min req.extendInputLen remTokens ≤ adder.remTotalTokens.floor :=
    (min_le_right _ _).trans (min_le_right _ _)
  cases h
  refine ⟨_, .inr ⟨min req.extendInputLen remTokens, ?_, min_le_left _ _, rfl⟩, rfl, ⟨rfl, rfl, rfl⟩, rfl, ?_, ?_⟩
  · exact le_min hreq (le_min hchunk.le hfloor)
  · show adder.remTotalTokenOffset + (adder.ceilPagedTokens (min req.extendInputLen remTokens) : Int) ≤
      adder.remTotalTokenOffset + (adder.ceilPagedTokens (min req.extendInputLen remTokens) +
        (if decide (remTokens < req.extendInputLen) = true then 0
          else min (req.maxNewTokens : Int) adder.clipMaxNewTokens) : Int)
    have hnew : (0 : Int) ≤ if decide (remTokens < req.extendInputLen) = true then 0
        else min (req.maxNewTokens : Int) adder.clipMaxNewTokens := by
      split <;> omega
    have : (0 : Rat) ≤ ((if decide (remTokens < req.extendInputLen) = true then 0
        else min (req.maxNewTokens : Int) adder.clipMaxNewTokens : Int) : Rat) := by exact_mod_cast hnew
    push_cast at this ⊢
    linarith
  · show adder.remTotalTokenOffset + ((min req.extendInputLen remTokens : Int) : Rat) ≤ adder.availableAndEvictable
    have hle : ((min req.extendInputLen remTokens : Int) : Rat) ≤ adder.remTotalTokens :=
      le_trans (by exact_mod_cast hcut) hbelow
    rw [PrefillAdder.remTotalTokens] at hle
    linarith

end Adder

/-! ## The room in the tree and the pool -/

section Room

variable {holds : List Nat} {c : RadixCache Nat}

theorem node_aligned (h : RadixInv holds c) : ∀ n ∈ c.children.nodes, c.pageSize ∣ n.key.len :=
  (h.shaped.2.imp fun _ _ _ hm => hm.1.aligned : c.children.Forall fun _ m _ => c.pageSize ∣ m.key.len).node

theorem evictableSize_dvd (h : RadixInv holds c) : (c.pageSize : Int) ∣ c.evictableSize := by
  rw [h.evictable]
  refine List.dvd_sum fun x hx => ?_
  obtain ⟨n, hn, rfl⟩ := List.mem_map.mp hx
  exact (Int.natCast_dvd_natCast.mpr (node_aligned h n hn)).mul_left _

theorem pathSize_nonneg (c : RadixCache Nat) (node : Nat) (lockRef : Int) : 0 ≤ c.pathSize node lockRef :=
  List.sum_nonneg fun x hx => by
    obtain ⟨n, _, rfl⟩ := List.mem_map.mp hx
    exact Int.natCast_nonneg _

theorem availableSize_freeSet {P : Nat} {a : PagedAllocator} (h : PoolReady P a) :
    a.availableSize = a.freeSet.length * P := by
  rw [PagedAllocator.availableSize, h.pageSize, PagedAllocator.freeSet, List.length_append]

theorem length_flatMap_pagesIn {P : Nat} (hP : 0 < P) (values : List (List Int)) :
    (values.map List.length).sum ≤ (values.flatMap (pagesIn P)).length * P := by
  induction values with
  | nil => simp
  | cons v values ih =>
    have hv : (pagesIn P v).length = pagesOf P v.length := by simp [pagesIn]
    have := le_pagesOf_mul hP v.length
    rw [List.map_cons, List.sum_cons, List.flatMap_cons, List.length_append, hv, Nat.add_mul]
    omega

/-- An eviction that is asked for leaves as much free as is wanted, or as much as there can be. -/
theorem evictFromTreeCache_room {s : KvState} (hradix : RadixInv holds s.cache)
    (hready : PoolReady s.cache.pageSize s.pool) (hnodes : NodesInPages s.cache.pageSize s.cache.children)
    (honce : (treePages s.cache.pageSize s.cache.children).Nodup) (numTokens : Nat) :
    PoolReady s.cache.pageSize (s.evictFromTreeCache numTokens).pool ∧
      min (numTokens : Int) (s.pool.availableSize + s.cache.evictableSize) ≤
        (s.evictFromTreeCache numTokens).pool.availableSize := by
  have hP := s.cache.pageSize_pos
  unfold KvState.evictFromTreeCache
  split
  next =>
    obtain ⟨hvalues, _, hperm⟩ := evict_pages hradix hnodes numTokens
    have hfreed := (List.nodup_append'.mp (hperm.nodup_iff.mp honce)).1
    have henough := (evict_exact hradix numTokens).enough
    have hpages := (releaseAll_values hready hP hvalues hfreed).length_eq
    have hlen := length_flatMap_pagesIn hP ((s.cache.evict numTokens).1.map (·.value))
    have hready' := hready.releaseAll ((s.cache.evict numTokens).1.map (·.value))
    have hsum : ((s.cache.evict numTokens).1.map fun n => (n.value.length : Int)).sum =
        (((s.cache.evict numTokens).1.map (·.value)).map List.length).sum := by
      simp [Nat.cast_list_sum, Function.comp_def]
    refine ⟨hready', ?_⟩
    rw [hsum] at henough
    rw [availableSize_freeSet hready', availableSize_freeSet hready, hpages, List.length_append, Nat.add_mul]
    generalize s.pool.freeSet.length * s.cache.pageSize = free
    omega
  next hroom => exact ⟨hready, (min_le_left _ _).trans (by exact_mod_cast not_lt.mp hroom)⟩

theorem TreeReady.room_nonneg {s : AdmissionRound} (h : TreeReady s.cache s.disable s.pool) :
    0 ≤ s.availableAndEvictable := by
  obtain ⟨holds, hradix⟩ := h.radix
  rw [AdmissionRound.availableAndEvictable, hradix.evictable]
  refine add_nonneg (Int.natCast_nonneg _) (List.sum_nonneg fun x hx => ?_)
  obtain ⟨n, _, rfl⟩ := List.mem_map.mp hx
  refine mul_nonneg ?_ (Int.natCast_nonneg _)
  unfold unlockedWeight
  split <;> omega

theorem TreeReady.room_dvd {s : AdmissionRound} (h : TreeReady s.cache s.disable s.pool) :
    (s.cache.pageSize : Int) ∣ s.availableAndEvictable := by
  obtain ⟨holds, hradix⟩ := h.radix
  rw [AdmissionRound.availableAndEvictable, availableSize_freeSet h.ready, Nat.cast_mul]
  exact (Int.dvd_mul_left _ _).add (evictableSize_dvd hradix)

variable {disable : Bool} {pool : PagedAllocator}

theorem TreeReady.matchPrefix (h : TreeReady c disable pool) (now : Int) (key : RadixKey Nat) :
    TreeReady (c.matchPrefix now key).2 disable pool := by
  obtain ⟨holds, hradix⟩ := h.radix
  have hadds := matchPrefix_pages hradix h.nodes now key
  have hpages := hadds.pages
  rw [List.append_nil] at hpages
  refine ⟨⟨holds, hradix.matchPrefix now key⟩, (matchPrefix_pageSize c now key).symm ▸ h.ready, hadds.nodes,
    hpages.nodup_iff.mpr h.once, fun hdisable => ?_⟩
  have hnil := h.disabled hdisable
  rw [RadixCache.matchPrefix]
  dsimp only
  split
  · exact hnil
  · rw [hnil]
    rfl

theorem TreeReady.incLockRef (h : TreeReady c disable pool) {node : Nat}
    (hnode : node = c.rootNode.id ∨ node ∈ ids c.children) : TreeReady (c.incLockRef node) disable pool := by
  obtain ⟨holds, hradix⟩ := h.radix
  have hadds := incLockRef_pages h.nodes node
  have hpages := hadds.pages
  rw [List.append_nil] at hpages
  refine ⟨⟨node :: holds, hradix.incLockRef hnode⟩, h.ready, hadds.nodes, hpages.nodup_iff.mpr h.once,
    fun hdisable => ?_⟩
  rw [RadixCache.incLockRef, h.disabled hdisable]
  rfl

end Room

/-! ## The calls of a round -/

/-- Between two calls: what the list may want is charged to the total budget, and there is room for it. -/
structure AdmissionInv (s : AdmissionRound) : Prop where
  tree : TreeReady s.cache s.disable s.pool
  unchunked : s.disable = true → s.adder.remChunkTokens = none
  pageSize : s.adder.pageSize = s.cache.pageSize
  align : ∀ align, s.adder.truncationAlignSize = some align → 0 < align
  prepared : ∀ r ∈ s.adder.canRunList, Prepared r
  charged : ((pagesWanted s.cache.pageSize s.adder.canRunList * s.cache.pageSize : Nat) : Rat) ≤
    s.adder.remTotalTokenOffset
  fits : ((pagesWanted s.cache.pageSize s.adder.canRunList * s.cache.pageSize : Nat) : Int) ≤
    s.availableAndEvictable

section Calls

variable {s s' : AdmissionRound}

theorem RoundStart.inv {p : PrefillState} (h : RoundStart p s) (hreserved : 0 ≤ reserved p) : AdmissionInv s := by
  obtain ⟨tree, adder, pageSize, unchunked, unmixed, align⟩ := h
  have hlist : s.adder.canRunList = [] := by rw [adder]; rfl
  have hoffset : s.adder.remTotalTokenOffset = reserved p := by
    rw [adder, PrefillState.adder, unmixed, reserved]
    simp
  refine ⟨tree, fun hdisable => ?_, ?_, ?_, ?_, ?_, ?_⟩
  · rw [adder, PrefillState.adder, unchunked hdisable]
    rfl
  · rw [adder]
    exact pageSize
  · rw [adder]
    exact align
  · rw [hlist]
    exact fun r hr => by cases hr
  · rw [hlist, hoffset]
    simpa [pagesWanted] using hreserved
  · rw [hlist]
    simpa [pagesWanted] using tree.room_nonneg

/-- A request is put on the list, and there is room for its input. -/
theorem AdmissionInv.listed {r : Req} (h : AdmissionInv s) (htree : TreeReady s'.cache s'.disable s'.pool)
    (hpage : s'.cache.pageSize = s.cache.pageSize) (hsame : SameBudgeting s.current s'.adder)
    (halign : s'.adder.truncationAlignSize = s.adder.truncationAlignSize)
    (hunchunked : s'.disable = true → s'.adder.remChunkTokens = none)
    (hlist : s'.adder.canRunList = s.adder.canRunList ++ [r]) (hr : Prepared r)
    (hcharged : s.adder.remTotalTokenOffset + s.current.ceilPagedTokens r.extendInputLen ≤
      s'.adder.remTotalTokenOffset)
    (hroom : ((pagesWanted s.cache.pageSize s.adder.canRunList * s.cache.pageSize + r.inputIds.length : Nat) : Int) ≤
      s'.availableAndEvictable) : AdmissionInv s' where
  tree := htree
  unchunked := hunchunked
  pageSize := hsame.pageSize.trans (h.pageSize.trans hpage.symm)
  align := halign ▸ h.align
  prepared := by
    rw [hlist]
    intro q hq
    rcases List.mem_append.mp hq with hq | hq
    · exact h.prepared q hq
    · exact List.mem_singleton.mp hq ▸ hr
  charged := by
    have hP : 0 < s.current.pageSize := h.pageSize.symm ▸ s.cache.pageSize_pos
    have hceil := ceilPagedTokens_natCast hP r.inputIds.length
    rw [← hr.2, show s.current.pageSize = s.cache.pageSize from h.pageSize] at hceil
    rw [hceil] at hcharged
    have hbefore := h.charged
    rw [hlist, hpage, pagesWanted_append, Nat.add_mul, Nat.cast_add]
    push_cast at hbefore hcharged ⊢
    linarith
  fits := by
    rw [hlist, hpage, pagesWanted_append]
    exact pages_fit s.cache.pageSize_pos (hpage ▸ htree.room_dvd) hroom

theorem AdmissionInv.matchPrefix (h : AdmissionInv s) (now : Int) (key : RadixKey Nat) :
    AdmissionInv (s.matchPrefix now key) := by
  have hsize := matchPrefix_pageSize s.cache now key
  have hevictable : (s.cache.matchPrefix now key).2.evictableSize = s.cache.evictableSize := by
    rw [RadixCache.matchPrefix]
    dsimp only
    split <;> rfl
  have hfits := h.fits
  rw [AdmissionRound.availableAndEvictable, ← hevictable, ← hsize] at hfits
  exact ⟨h.tree.matchPrefix now key, h.unchunked, h.pageSize.trans hsize.symm, h.align, h.prepared,
    hsize.symm ▸ h.charged, hfits⟩

theorem AdmissionInv.addChunkedReq {req : Req} (h : AdmissionInv s) (hguard : CallsOnTree s (.addChunkedReq req))
    (hstep : s.addChunkedReq req = some s') : AdmissionInv s' := by
  obtain ⟨hreq, hfirst, hchunk, htotal⟩ := hguard
  obtain ⟨remChunkTokens, hsome, hpos⟩ : ∃ rem, s.adder.remChunkTokens = some rem ∧ 0 < rem := by
    cases hrem : s.adder.remChunkTokens with
    | none =>
      rw [hrem] at hchunk
      cases hchunk
    | some rem =>
      rw [hrem] at hchunk
      exact ⟨rem, rfl, of_decide_eq_true hchunk⟩
  unfold AdmissionRound.addChunkedReq at hstep
  split at hstep
  next => cases hstep
  next adder' chunked hadder =>
    cases hstep
    have hcurrent : s.current.remChunkTokens = some remChunkTokens := hsome
    obtain ⟨r, hallows⟩ := addChunkedReq_allows hcurrent hpos htotal (hreq.2 ▸ Int.natCast_nonneg _) hadder
    obtain ⟨hr, _⟩ := hallows.cut.prepared hreq
    have hunchunked : s.disable ≠ true := fun hdisable => by
      rw [h.unchunked hdisable] at hsome
      cases hsome
    refine h.listed h.tree rfl hallows.same hallows.align (fun hdisable => absurd hdisable hunchunked)
      hallows.listed hr hallows.charged ?_
    have hcharged : ((pagesWanted s.cache.pageSize s.adder.canRunList * s.cache.pageSize : Nat) : Rat) ≤
        s.current.remTotalTokenOffset := h.charged
    have hroom := hallows.room
    rw [hr.2] at hroom
    have : (((pagesWanted s.cache.pageSize s.adder.canRunList * s.cache.pageSize + r.inputIds.length : Nat) :
        Int) : Rat) ≤ ((s.availableAndEvictable : Int) : Rat) := by
      push_cast at hcharged hroom ⊢
      exact le_trans (by linarith) hroom
    exact_mod_cast this

theorem ceilPagedTokens_le_charge (adder : PrefillAdder) (a : Admission) :
    adder.ceilPagedTokens a.admitted.extendInputLen ≤ charge adder a := by
  unfold charge
  split <;> omega

/-- Locking a node takes what its path holds unlocked out of the room. -/
theorem room_incLockRef (s : AdmissionRound) (adder : PrefillAdder) (req : Req) (node : Nat) :
    { s with adder, cache := s.cache.incLockRef node }.availableAndEvictable =
      s.availableAndEvictable - (s.tree node).lockSize req := by
  show (s.pool.availableSize : Int) + (s.cache.evictableSize - s.cache.pathSize node 0) =
    s.pool.availableSize + s.cache.evictableSize - ((s.cache.pathSize node 0).toNat : Nat)
  rw [Int.toNat_of_nonneg (pathSize_nonneg s.cache node 0)]
  ring

theorem AdmissionInv.addOneReq {req : Req} {lastNode : Nat} (h : AdmissionInv s)
    (hguard : CallsOnTree s (.addOneReq req lastNode)) : AdmissionInv (s.addOneReq req lastNode) := by
  obtain ⟨hreq, hnode⟩ := hguard
  have hP : 0 < s.current.pageSize := h.pageSize.symm ▸ s.cache.pageSize_pos
  have hallows : Allows (s.tree lastNode) s.current req (s.current.addOneReq (s.tree lastNode) req).1 :=
    addOneReq_allows hP h.align h.unchunked
  have hadds := addOneReq_addsOne (s.tree lastNode) s.current req
  unfold AdmissionRound.addOneReq
  dsimp only
  generalize (s.current.addOneReq (s.tree lastNode) req).1 = adder' at hallows hadds ⊢
  rcases hadds.listed with ⟨hlist, htotal⟩ | ⟨r, hlist, htotal⟩
  · have hsame : adder'.canRunList = s.adder.canRunList := hlist
    rw [hsame, if_neg (lt_irrefl _)]
    refine ⟨h.tree, fun hdisable => hallows.unchunked (h.unchunked hdisable),
      hadds.same.pageSize.trans h.pageSize, hallows.align ▸ h.align, hsame ▸ h.prepared, ?_, ?_⟩
    · rw [hsame, htotal]
      exact h.charged
    · rw [hsame]
      exact h.fits
  · have hmore : adder'.canRunList = s.adder.canRunList ++ [r] := hlist
    rw [if_pos (by rw [hmore, List.length_append]; simp)]
    obtain ⟨hcut, hroom⟩ := hallows.room r hlist
    obtain ⟨hr, hle⟩ := hcut.prepared hreq
    refine h.listed (h.tree.incLockRef hnode) rfl hadds.same hallows.align
      (fun hdisable => hallows.unchunked (h.unchunked hdisable)) hmore hr ?_ ?_
    · rw [htotal]
      have hceil : ((s.current.ceilPagedTokens r.extendInputLen : Int) : Rat) ≤
          (charge s.current ⟨req, r⟩ : Int) := by
        exact_mod_cast ceilPagedTokens_le_charge s.current ⟨req, r⟩
      exact add_le_add_right hceil _
    · rw [room_incLockRef s adder' req lastNode]
      have hcharged : ((pagesWanted s.cache.pageSize s.adder.canRunList * s.cache.pageSize : Nat) : Rat) ≤
          s.current.remTotalTokenOffset := h.charged
      have hlen : (r.inputIds.length : Rat) ≤ (req.extendInputLen : Int) := by
        rw [hreq.2]
        exact_mod_cast hle
      have hfits : ((pagesWanted s.cache.pageSize s.adder.canRunList * s.cache.pageSize : Nat) : Rat) +
          r.inputIds.length ≤ ((s.availableAndEvictable - (s.tree lastNode).lockSize req : Int) : Rat) := by
        rcases hroom with hroom | ⟨hdisable, hroom⟩
        · push_cast at hroom hcharged ⊢
          exact le_trans (by linarith) hroom.le
        · have hlock : (s.tree lastNode).lockSize req = 0 := by
            show (s.cache.pathSize lastNode 0).toNat = 0
            rw [RadixCache.pathSize, h.tree.disabled hdisable]
            rfl
          have hceil : (req.extendInputLen : Rat) ≤ (s.current.ceilPagedTokens req.extendInputLen : Int) := by
            have := le_pagesOf_mul hP req.inputIds.length
            rw [hreq.2, ceilPagedTokens_natCast hP]
            exact_mod_cast this
          rw [hlock]
          push_cast at hroom hcharged hceil ⊢
          exact le_trans (by linarith) (hroom.trans (le_of_eq (sub_zero _).symm))
      exact_mod_cast hfits

theorem admissionInv_step {call : AdmissionCall} (h : AdmissionInv s) (hguard : CallsOnTree s call)
    (hstep : admissionMachine.step call s = some s') : AdmissionInv s' := by
  cases call with
  | matchPrefix now key =>
    cases hstep
    exact h.matchPrefix now key
  | addChunkedReq req => exact h.addChunkedReq hguard hstep
  | addOneReq req lastNode =>
    cases hstep
    exact h.addOneReq hguard

/-- The evictions leave as many pages as the list wants. -/
theorem AdmissionInv.enough (h : AdmissionInv s) {numTokens : Nat}
    (hasked : pagesWanted s.cache.pageSize s.adder.canRunList * s.cache.pageSize ≤ numTokens) :
    PoolReady s.cache.pageSize (KvState.evictFromTreeCache ⟨s.cache, s.pool, []⟩ numTokens).pool ∧
      pagesWanted s.cache.pageSize s.adder.canRunList ≤
        (KvState.evictFromTreeCache ⟨s.cache, s.pool, []⟩ numTokens).pool.freeSet.length := by
  obtain ⟨holds, hradix⟩ := h.tree.radix
  obtain ⟨hready, hroom⟩ := evictFromTreeCache_room (s := ⟨s.cache, s.pool, []⟩) hradix h.tree.ready h.tree.nodes
    h.tree.once numTokens
  refine ⟨hready, ?_⟩
  rw [availableSize_freeSet hready] at hroom
  have hle := le_trans (le_min (Int.ofNat_le.mpr hasked) h.fits) hroom
  exact Nat.le_of_mul_le_mul_right (by exact_mod_cast hle) s.cache.pageSize_pos

theorem AdmissionInv.allocates (h : AdmissionInv s) (mem : KernelMemory) :
    (s.allocForExtend mem).isSome = true := by
  have hP := s.cache.pageSize_pos
  unfold AdmissionRound.allocForExtend
  dsimp only
  split
  next hone =>
    have hwanted := pagesWanted_one s.adder.canRunList
    have hasked : pagesWanted s.cache.pageSize s.adder.canRunList * s.cache.pageSize ≤
        (extendNumTokens s.adder.canRunList).toNat := by
      rw [hone, hwanted, Nat.mul_one]
    obtain ⟨hready, hpages⟩ := h.enough hasked
    rw [hone, hwanted] at hpages
    rw [Option.isSome_map]
    generalize (KvState.evictFromTreeCache ⟨s.cache, s.pool, []⟩ _).pool = pool at hready hpages ⊢
    have hshort := mergeIfShort_enough hready.sorted
      (le_refl ((extendNumTokens s.adder.canRunList).toNat / pool.pageSize))
    rw [PagedAllocator.alloc, if_neg]
    · rfl
    · rw [hshort, hready.pageSize, hone, Nat.div_one]
      exact not_lt.mpr hpages
  next =>
    have hasked := pagesWanted_mul_le hP s.adder.canRunList
    obtain ⟨hready, hpages⟩ := h.enough hasked
    rw [Option.isSome_map, h.tree.ready.pageSize]
    generalize (KvState.evictFromTreeCache ⟨s.cache, s.pool, []⟩ _).pool = pool at hready hpages ⊢
    have hnew := getNumNewPages_le hP h.prepared
    have hmerge : getNumNewPages (s.adder.canRunList.map fun r => r.fillIds.length) s.cache.pageSize
        (some (s.adder.canRunList.map fun r => r.prefixIndices.length)) ≤
        (extendNumTokens s.adder.canRunList).toNat / s.cache.pageSize + s.adder.canRunList.length + 1 := by
      have := (Nat.le_div_iff_mul_le hP).mpr hasked
      rw [Nat.add_mul_div_right _ _ hP] at this
      omega
    rw [PagedAllocator.allocExtend]
    simp only [mergeIfShort_pageSize, List.length_map]
    rw [← hready.pageSize] at hnew hmerge hpages
    generalize max pool.seenMaxNumExtendTokensNextPowerOf2 _ = seen
    rw [if_neg]
    · rfl
    · rw [mergeIfShort_enough (a := { pool with seenMaxNumExtendTokensNextPowerOf2 := seen }) hready.sorted hmerge]
      exact not_lt.mpr (hnew.trans hpages)

/-- Unless less than nothing is reserved, the memory does for the list that any calls of a round leave. -/
theorem admitted_allocates {p : PrefillState} (mem : KernelMemory) (hreserved : 0 ≤ reserved p)
    (h : admissionMachine.Reach CallsOnTree (RoundStart p) s) : (s.allocForExtend mem).isSome = true := by
  have hinv := h.invariant (fun _ hs => hs.inv hreserved) fun _ _ _ hs hguard hstep =>
    admissionInv_step hs hguard hstep
  exact hinv.allocates mem

end Calls

/-- The tree and the pool in any state requests lead to are ready for a round. -/
theorem KvInv.treeReady {total : Nat} {s : KvState} (h : KvInv total s) : TreeReady s.cache false s.pool where
  radix := ⟨_, h.radix⟩
  ready := h.ready
  nodes := h.nodes
  once := (List.nodup_append'.mp (List.nodup_append'.mp h.nodup).2.1).1
  disabled := nofun

/-- Two prompts of two pages are in the tree, and two of the six pages are free. -/
def twoPromptsOps : List KvOp :=
  [.admitReq 1 [5, 6, 7, 8] [] none none 9 4 0, .allocForExtend zeroMemory, .output 1 9, .finish 1 10 true,
    .admitReq 2 [1, 2, 3, 4] [] none none 9 4 20, .allocForExtend zeroMemory, .output 2 9, .finish 2 30 true]

theorem twoPrompts_runs : (kvMachine.guardedRun BlendApart twoPromptsOps
    (KvState.start 12 2 (by decide) false .lru 0)).isSome = true := by decide +kernel

def twoPrompts : KvState := (kvMachine.guardedRun BlendApart twoPromptsOps
  (KvState.start 12 2 Nat.two_pos false .lru 0)).get twoPrompts_runs

theorem twoPrompts_inv : KvInv (12 / 2) twoPrompts := kvInv_of_reach (Machine.reach_guardedRun twoPrompts_runs)

def promptReq (fillIds prefixIndices : List Nat) (maxNewTokens : Nat) (outputIds : List Nat) : Req where
  originInputIds := fillIds
  outputIds
  fillIds
  prefixIndices
  extendInputLen := (fillIds.length : Int) - prefixIndices.length
  maxNewTokens
  ignoreEos := false
  extraKey := none
  logprobStartLen := none
  blend := none

/-- A running request with three tokens to go, each reserved for a half. -/
def oneRunning : PrefillState where
  tree := { disable := false, matchPrefix := fun _ _ => [], lockSize := fun _ => 0 }
  pageSize := 2
  clipMaxNewTokens := 4096
  maxPrefillTokens := 16
  chunkedPrefillSize := some 8
  truncationAlignSize := none
  isMixedChunk := false
  newTokenRatio := 1 / 2
  availableAndEvictable := 12
  numAllocatableReqs := 2
  batchIsFull := false
  running := [promptReq [21] [] 4 [22]]
  chunkedReq := none
  waitingQueue := []

/-- The last chunk of a prompt, and a prompt with a page in the tree, which it locks. -/
def lockedPageCalls : List AdmissionCall :=
  [.addChunkedReq (promptReq [11, 12] [] 1 []), .matchPrefix 40 ⟨[5, 6], none⟩,
    .addOneReq (promptReq [5, 6, 13] [2, 3] 1 []) 3]

theorem lockedPage_runs : (admissionMachine.guardedRun CallsOnTree lockedPageCalls
    ⟨twoPrompts.cache, false, twoPrompts.pool, oneRunning.adder⟩).isSome = true := by decide +kernel

theorem admitted_allocates_lockedPage : ∃ s : AdmissionRound,
    admissionMachine.Reach CallsOnTree (RoundStart oneRunning) s ∧ s.adder.canRunList.length = 2 ∧
      (s.allocForExtend zeroMemory).isSome = true := by
  have hstart : RoundStart oneRunning ⟨twoPrompts.cache, false, twoPrompts.pool, oneRunning.adder⟩ := {
    tree := twoPrompts_inv.treeReady
    adder := rfl
    pageSize := by decide +kernel
    unchunked := nofun
    unmixed := rfl
    align := nofun }
  have hreach := (Machine.reach_guardedRun lockedPage_runs).weaken (fun _ _ h => h) (by rintro _ rfl; exact hstart)
  have hreserved : 0 ≤ reserved oneRunning := reserved_nonneg (by decide +kernel) (by decide)
  exact ⟨_, hreach, by decide +kernel, admitted_allocates zeroMemory hreserved hreach⟩

/-- A running request that has finished with more outputs than it asked for, as a verified draft
leaves it until the next decode step, and a prompt of five tokens for a pool of four. -/
def overlongRunning : PrefillState :=
  { oneRunning with
    pageSize := 1
    chunkedPrefillSize := none
    newTokenRatio := 7 / 10
    running := [promptReq [21] [] 2 [22, 23, 24, 25, 26, 27]] }

def overlongStart : AdmissionRound where
  cache := RadixCache.reset 1 Nat.one_pos .lru 0
  disable := false
  pool := PagedAllocator.clear 4 1 false Nat.one_pos
  adder := overlongRunning.adder

theorem overlongRunning_starts : RoundStart overlongRunning overlongStart where
  tree := (kvInv_start 4 1 (by decide) false .lru 0).treeReady
  adder := rfl
  pageSize := rfl
  unchunked := nofun
  unmixed := rfl
  align := nofun

theorem overlong_runs : (admissionMachine.guardedRun CallsOnTree [.addOneReq (promptReq [1, 2, 3, 4, 5] [] 1 []) 0]
    overlongStart).isSome = true := by decide +kernel

theorem negative_reservation_overadmits : ∃ s : AdmissionRound,
    admissionMachine.Reach CallsOnTree (RoundStart overlongRunning) s ∧ s.allocForExtend zeroMemory = none := by
  have hreach := (Machine.reach_guardedRun overlong_runs).weaken (fun _ _ h => h)
    (by rintro _ rfl; exact overlongRunning_starts)
  refine ⟨_, hreach, ?_⟩
  have hraises : (((admissionMachine.guardedRun CallsOnTree [.addOneReq (promptReq [1, 2, 3, 4, 5] [] 1 []) 0]
      overlongStart).get overlong_runs).allocForExtend zeroMemory).isNone = true := by decide +kernel
  exact Option.isNone_iff_eq_none.mp hraises

end QCFuse.Guarantees
