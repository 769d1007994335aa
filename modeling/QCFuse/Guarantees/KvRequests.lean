import QCFuse.Guarantees.KvConservation

/-!
# Every run keeps every page

The steps of a request: its computed tokens go to the tree, what was already there is freed, and
at its end all that is its own. A request with a blend style gives its row back as a whole and keeps
its lock, which is right only if nothing of it came from the tree.
-/

set_option autoImplicit false

namespace QCFuse.Guarantees

open QCFuse.Library QCFuse.Source

/-! ## `cache_unfinished_req` -/

section Unfinished

variable {total : Nat} {c : RadixCache Nat} {a : PagedAllocator} {others : List Nat} {r : InFlight}

/-- Where the whole pages of what is computed end. -/
abbrev computedPages (c : RadixCache Nat) (r : InFlight) : Nat := pageAligned c.pageSize r.req.fillIds.length

theorem slots_of_allocated (h : r.allocated = true) : r.slots = r.req.row := by
  rw [InFlight.slots, h]
  rfl

theorem ReqInv.matched_le_computed (hr : ReqInv c r) : r.req.lastMatchedPrefixLen ≤ computedPages c r := by
  rw [hr.aligned]
  exact Nat.mul_le_mul_right _ (Nat.div_le_div_right hr.known)

theorem unfinishedInsert_eq (hrun : r.allocated = true) (now : Int) :
    unfinishedInsert c now r.req = c.insert now (unfinishedKey c.pageSize r.req)
      (r.slots.take (unfinishedKey c.pageSize r.req).len) := by
  rw [unfinishedInsert, unfinishedKey_len, slots_of_allocated hrun, List.take_take,
    Nat.min_eq_left (pageAligned_le _ _)]

theorem unfinishedInsert_handsOver (h : RadixInv (r.req.lastNode :: others) c)
    (hready : PoolReady c.pageSize a) (hnodes : NodesInPages c.pageSize c.children) (hr : ReqInv c r)
    (hrun : r.allocated = true) (hnodup : (privatePages c.pageSize r).Nodup) (now : Int) :
    HandedOver c a r (computedPages c r) (unfinishedInsert c now r.req).1 (unfinishedInsert c now r.req).2
      (a.release (pySlice (r.req.row.take r.req.fillIds.length) r.req.prefixIndices.length
        (unfinishedInsert c now r.req).1)) := by
  have hrow := hr.filled hrun
  have hlen := unfinishedKey_len c.pageSize r.req
  have hle := pageAligned_le c.pageSize r.req.fillIds.length
  have hpre : r.req.fillIds.take r.req.lastMatchedPrefixLen <+: (unfinishedKey c.pageSize r.req).tokenIds :=
    List.take_prefix_take_left hr.matched_le_computed
  have hands := insert_handsOver h hready hnodes hr hnodup now rfl unfinishedKey_dvd hpre
    (by rw [slots_of_allocated hrun, hlen]; omega)
  rw [← unfinishedInsert_eq hrun, hlen] at hands
  have hslice : pySlice (r.req.row.take r.req.fillIds.length) r.req.prefixIndices.length
      (unfinishedInsert c now r.req).1 =
        pySlice r.slots r.req.prefixIndices.length (unfinishedInsert c now r.req).1 := by
    rw [slots_of_allocated hrun, pySlice, List.take_take, Nat.min_eq_left (hands.present_le.trans hle), pySlice]
  rw [hslice]
  exact hands

/-- What the cache does behind the insertion of `cache_unfinished_req` leaves all pages where they are. -/
theorem cacheUnfinishedReq_handsOver (h : RadixInv (r.req.lastNode :: others) c)
    (hready : PoolReady c.pageSize a) (hnodes : NodesInPages c.pageSize c.children) (hr : ReqInv c r)
    (hrun : r.allocated = true) (hplain : r.req.blendStyle = none)
    (hnodup : (privatePages c.pageSize r).Nodup) (now later : Int) :
    HandedOver c a r (computedPages c r) (unfinishedInsert c now r.req).1
      (c.cacheUnfinishedReq now later r.req).2.2
      (a.releaseAll (c.cacheUnfinishedReq now later r.req).2.1) := by
  have hands := unfinishedInsert_handsOver h hready hnodes hr hrun hnodup now
  have hinsert := unfinishedInsert_inv h now (hr.filled hrun)
  have hmatch := matchPrefix_pages hinsert hands.nodes later (unfinishedKey c.pageSize r.req)
  have hunlock := decLockRef_pages hmatch.nodes r.req.lastNode
  have hlock := incLockRef_pages hunlock.nodes (unfinishedMatch c now later r.req).1.lastDeviceNode
  have hadds := (hmatch.trans hunlock).trans hlock
  rw [cacheUnfinishedReq_plain now later hplain]
  refine ⟨hands.present_le, hlock.nodes, List.perm_iff_count.mpr fun g => ?_⟩
  have hcountTree := hadds.pages.count_eq g
  have hcount := hands.pages.count_eq g
  simp only [List.append_nil, List.count_append, PagedAllocator.releaseAll, List.foldl_cons,
    List.foldl_nil] at hcountTree hcount ⊢
  rw [unfinishedMatch] at hcountTree ⊢
  omega

theorem cacheUnfinishedReq_keeps (h : RadixInv (r.req.lastNode :: others) c) (hr : ReqInv c r)
    (hrun : r.allocated = true) (hplain : r.req.blendStyle = none) (now later : Int) (held : List Nat) :
    KeepsPaths held c (c.cacheUnfinishedReq now later r.req).2.2 := by
  have hinsert := unfinishedInsert_inv h now (hr.filled hrun)
  rw [cacheUnfinishedReq_plain now later hplain]
  exact (((insert_keeps h now unfinishedKey_dvd).trans (matchPrefix_keeps hinsert later _)).trans
    (decLockRef_keeps _ _)).trans (incLockRef_keeps _ _)

/-- The slots a request is told of after its pages went to the tree. -/
structure Continued (c c' : RadixCache Nat) (r : InFlight) (req : CachedReq) : Prop where
  pageSize : c'.pageSize = c.pageSize
  plain : req.blendStyle = none
  fillIds : req.fillIds = r.req.fillIds
  tokens : req.originInputIds ++ req.outputIds = r.req.originInputIds ++ r.req.outputIds
  matched : req.lastMatchedPrefixLen = computedPages c r
  prefixLen : req.prefixIndices.length = r.req.fillIds.length
  path : (computedPages c r = 0 ∧ req.lastNode = c'.rootNode.id) ∨ PathTo c'.children req.lastNode req.extraKey
    (r.req.fillIds.take (computedPages c r)) (req.prefixIndices.take (computedPages c r))
  behind : req.prefixIndices.drop (computedPages c r) =
    (r.req.row.take r.req.fillIds.length).drop (computedPages c r)
  rowLen : req.row.length = r.req.row.length
  rowBehind : req.row.drop (computedPages c r) = r.req.row.drop (computedPages c r)
  rowOffsets : OnOffsets c.pageSize req.row
  prefixOffsets : OnOffsets c.pageSize req.prefixIndices

theorem cacheUnfinishedReq_continued (h : RadixInv (r.req.lastNode :: others) c)
    (hready : PoolReady c.pageSize a) (hnodes : NodesInPages c.pageSize c.children) (hr : ReqInv c r)
    (hrun : r.allocated = true) (hplain : r.req.blendStyle = none)
    (hnodup : (privatePages c.pageSize r).Nodup) (now later : Int) :
    Continued c (c.cacheUnfinishedReq now later r.req).2.2 r (c.cacheUnfinishedReq now later r.req).1 := by
  have hrow := hr.filled hrun
  have hslots := slots_of_allocated hrun
  have hA : computedPages c r ≤ r.req.fillIds.length := pageAligned_le c.pageSize r.req.fillIds.length
  have hdvd : c.pageSize ∣ computedPages c r := pageAligned_dvd c.pageSize r.req.fillIds.length
  have hinsert := unfinishedInsert_inv h now hrow
  have hkeeps := cacheUnfinishedReq_keeps h hr hrun hplain now later []
  have hlen : (unfinishedMatch c now later r.req).1.deviceIndices.length = computedPages c r :=
    unfinishedMatch_length h now later hrow
  have hprefixLen := cacheUnfinishedReq_prefixLen h now later hplain hrow
  have hpath := matchPrefix_path hinsert later (unfinishedKey c.pageSize r.req)
  have hmatchNodes := (matchPrefix_pages hinsert
    (unfinishedInsert_handsOver h hready hnodes hr hrun hnodup now).nodes later
    (unfinishedKey c.pageSize r.req)).nodes
  have hshape := (unfinishedMatch_inv h now later hrow).shaped
  have hsize : (unfinishedMatch c now later r.req).2.pageSize = c.pageSize := by
    rw [unfinishedMatch, matchPrefix_pageSize, unfinishedInsert, insert_pageSize]
  have hroot : (unfinishedInsert c now r.req).2.rootNode.id = (unfinishedMatch c now later r.req).2.rootNode.id := by
    rw [unfinishedMatch, matchPrefix_rootNode]
  have hprivate : InPages c.pageSize (r.req.row.drop (computedPages c r)) := by
    have hrest := hr.pages.drop c.pageSize_pos (Nat.dvd_sub hdvd hr.matched_dvd)
    rwa [privateSlots, hslots, List.drop_drop, Nat.add_sub_cancel' hr.matched_le_computed] at hrest
  rw [← unfinishedMatch] at hpath hmatchNodes
  rw [hlen, show (unfinishedKey c.pageSize r.req).tokenIds = r.req.fillIds.take (computedPages c r) from rfl,
    List.take_take, Nat.min_self] at hpath
  have hnew : OnOffsets c.pageSize (unfinishedMatch c now later r.req).1.deviceIndices := by
    rcases hpath with ⟨hnil, _⟩ | hnode
    · rw [hnil]
      exact (inPages_nil _).onOffsets
    · exact hsize ▸ (hnode.inPages (unfinishedMatch c now later r.req).2.pageSize_pos hshape hmatchNodes).onOffsets
  rw [cacheUnfinishedReq_plain now later hplain] at hprefixLen hkeeps ⊢
  dsimp only at hprefixLen hkeeps ⊢
  have hindices : (if c.pageSize ≠ 1 then (unfinishedMatch c now later r.req).1.deviceIndices ++
        (r.req.row.take r.req.fillIds.length).drop (unfinishedMatch c now later r.req).1.deviceIndices.length
      else (unfinishedMatch c now later r.req).1.deviceIndices) =
      (unfinishedMatch c now later r.req).1.deviceIndices ++
        (r.req.row.take r.req.fillIds.length).drop (computedPages c r) := by
    rw [hlen]
    split
    next => rfl
    next hone =>
      rw [not_not] at hone
      rw [List.drop_of_length_le, List.append_nil]
      rw [List.length_take, computedPages, pageAligned, hone, Nat.div_one, Nat.mul_one]
      exact Nat.min_le_left _ _
  rw [hindices] at hprefixLen ⊢
  exact {
    pageSize := hkeeps.pageSize
    plain := hplain
    fillIds := rfl
    tokens := rfl
    matched := hlen
    prefixLen := hprefixLen
    path := by
      refine hpath.imp (fun hnil => ⟨?_, ?_⟩) fun hnode => ?_
      · rw [← hlen, hnil.1]
        rfl
      · exact hnil.2.trans hroot
      · refine (pathTo_mapPath _ 1).mpr ((pathTo_mapPath _ (-1)).mpr ?_)
        dsimp only
        rw [List.take_left' hlen]
        exact hnode
    behind := List.drop_left' hlen
    rowLen := length_overwrite_drop _ (by rw [hlen]; omega)
    rowBehind := hlen ▸ drop_overwrite_drop _ (by rw [hlen]; omega)
    rowOffsets := (hslots ▸ hr.offsets).overwrite hnew (by rw [hlen]; omega) _
    prefixOffsets := by
      refine hnew.append (hlen ▸ hdvd) ?_
      rw [List.drop_take]
      exact (hprivate.take _).onOffsets }

/-- A request goes on after its last round of the prefill. -/
theorem Continued.running {c' : RadixCache Nat} {req : CachedReq} (h : Continued c c' r req) (hr : ReqInv c r)
    (hrun : r.allocated = true) (hwhole : r.chunked = false) : ReqInv c' { r with req } := by
  have hslots : InFlight.slots { r with req } = req.row := slots_of_allocated hrun
  have hrow := hr.filled hrun
  exact {
    aligned := by rw [h.matched, h.pageSize, h.prefixLen]
    path := by
      rw [HoldsPath, h.matched, h.fillIds]
      exact h.path
    within := by
      rw [hslots, h.prefixLen, h.rowLen]
      exact hrow
    known := by rw [h.prefixLen, h.fillIds]
    filled := fun _ => by
      rw [h.fillIds, h.rowLen]
      exact hrow
    chunk := fun _ hchunk => by
      rw [hwhole] at hchunk
      cases hchunk
    waiting := fun hwait => by
      rw [hrun] at hwait
      cases hwait
    pages := by
      have hrest := hr.pages.drop c.pageSize_pos (Nat.dvd_sub
        (pageAligned_dvd c.pageSize r.req.fillIds.length) hr.matched_dvd)
      rw [privateSlots, slots_of_allocated hrun, List.drop_drop, Nat.add_sub_cancel' hr.matched_le_computed] at hrest
      rw [privateSlots, hslots, h.matched, h.pageSize, h.rowBehind]
      exact hrest
    offsets := by
      rw [hslots, h.pageSize]
      exact h.rowOffsets
    tokens := by
      rw [h.fillIds, h.tokens]
      exact hr.tokens
    blend := fun hstyle => by
      rw [h.plain] at hstyle
      cases hstyle }

theorem Continued.private_running {c' : RadixCache Nat} {req : CachedReq} (h : Continued c c' r req)
    (hrun : r.allocated = true) :
    privatePages c'.pageSize { r with req } = pagesIn c.pageSize (r.slots.drop (computedPages c r)) := by
  have hslots : InFlight.slots { r with req } = req.row := slots_of_allocated hrun
  rw [privatePages, privateSlots, hslots, h.matched, h.pageSize, h.rowBehind, slots_of_allocated hrun]

/-- A chunked request between two rounds, with the tokens up to the next one. -/
def nextRound (r : InFlight) (req : CachedReq) (fillIds : List Nat) (chunked : Bool) : InFlight :=
  { r with req := { req with fillIds, row := [] }, allocated := false, chunked }

theorem Continued.between {c' : RadixCache Nat} {req : CachedReq} (h : Continued c c' r req) (hr : ReqInv c r)
    (hrun : r.allocated = true) {fillIds : List Nat} (chunked : Bool)
    (hfill : fillIds <+: req.originInputIds ++ req.outputIds)
    (hmore : req.prefixIndices.length < fillIds.length) : ReqInv c' (nextRound r req fillIds chunked) := by
  have hA : computedPages c r ≤ r.req.fillIds.length := pageAligned_le c.pageSize r.req.fillIds.length
  exact {
    aligned := by
      show req.lastMatchedPrefixLen = pageAligned c'.pageSize req.prefixIndices.length
      rw [h.matched, h.pageSize, h.prefixLen]
    path := by
      have hsame : fillIds.take (computedPages c r) = r.req.fillIds.take (computedPages c r) := by
        have htokens := hr.tokens
        rw [h.tokens] at hfill
        rw [h.prefixLen] at hmore
        rw [← take_of_isPrefix hfill (hA.trans hmore.le), take_of_isPrefix htokens hA]
      show (req.lastMatchedPrefixLen = 0 ∧ _) ∨ PathTo c'.children req.lastNode req.extraKey
        (fillIds.take req.lastMatchedPrefixLen) (req.prefixIndices.take req.lastMatchedPrefixLen)
      rw [h.matched, hsame]
      exact h.path
    within := le_rfl
    known := hmore.le
    filled := fun hrun => by cases hrun
    chunk := fun hrun => by cases hrun
    waiting := fun _ => hmore
    pages := by
      show InPages c'.pageSize (req.prefixIndices.drop req.lastMatchedPrefixLen)
      have hrest := hr.pages.drop c.pageSize_pos (Nat.dvd_sub
        (pageAligned_dvd c.pageSize r.req.fillIds.length) hr.matched_dvd)
      rw [privateSlots, slots_of_allocated hrun, List.drop_drop, Nat.add_sub_cancel' hr.matched_le_computed] at hrest
      rw [h.matched, h.behind, h.pageSize, List.drop_take]
      exact hrest.take _
    offsets := by
      show OnOffsets c'.pageSize req.prefixIndices
      rw [h.pageSize]
      exact h.prefixOffsets
    tokens := hfill
    blend := fun hstyle => by
      have hplain : (nextRound r req fillIds chunked).req.blendStyle = none := h.plain
      rw [hplain] at hstyle
      cases hstyle }

theorem Continued.private_between {c' : RadixCache Nat} {req : CachedReq} (h : Continued c c' r req)
    (hr : ReqInv c r) (hrun : r.allocated = true) (hcut : r.chunked = true) (fillIds : List Nat) (chunked : Bool) :
    privatePages c'.pageSize (nextRound r req fillIds chunked) =
      pagesIn c.pageSize (r.slots.drop (computedPages c r)) := by
  show pagesIn c'.pageSize (req.prefixIndices.drop req.lastMatchedPrefixLen) = _
  rw [h.matched, h.behind, h.pageSize, slots_of_allocated hrun, ← hr.chunk hrun hcut, List.take_length]

end Unfinished

/-! ## Steps of one request -/

section Steps

variable {total : Nat} {s : KvState} {rid : Nat} {r : InFlight}

/-- The state with the request looked up in front of the others. -/
theorem KvInv.focus (h : KvInv total s) (hget : s.get? rid = some r) :
    KvInv total ⟨s.cache, s.pool, [r] ++ (s.remove rid).reqs⟩ :=
  h.perm (find_split h.rids hget).2.1

/-- A request put back, among the others again. -/
theorem KvInv.put {c : RadixCache Nat} {a : PagedAllocator} {r' : InFlight} (h : KvInv total s)
    (hget : s.get? rid = some r) (hrid : r'.rid = r.rid)
    (hstep : KvInv total ⟨c, a, [r'] ++ (s.remove rid).reqs⟩) :
    KvInv total (({ s with cache := c, pool := a } : KvState).put r') := by
  obtain ⟨hr, _, hput⟩ := find_split h.rids hget
  exact hstep.perm (hput r' (hrid.trans hr)).symm

theorem KvInv.private_nodup (h : KvInv total s) (hr : r ∈ s.reqs) : (privatePages s.cache.pageSize r).Nodup := by
  have hnodup := h.nodup
  rw [ownedPages] at hnodup
  have hprivate := (List.nodup_append'.mp (List.nodup_append'.mp hnodup).2.1).2.1
  exact (List.nodup_flatMap.mp hprivate).1 r hr

theorem mem_of_get (hget : s.get? rid = some r) : r ∈ s.reqs := List.mem_of_find?_eq_some hget

/-- The pages after `cache_unfinished_req`, however the request goes on. -/
theorem KvInv.continued {r' : InFlight} {now later : Int} (h : KvInv total s) (hget : s.get? rid = some r)
    (hrun : r.allocated = true) (hplain : r.req.blendStyle = none) (hrid : r'.rid = r.rid)
    (hlast : r'.req.lastNode = (s.cache.cacheUnfinishedReq now later r.req).1.lastNode)
    (hreq : ReqInv (s.cache.cacheUnfinishedReq now later r.req).2.2 r')
    (hprivate : privatePages (s.cache.cacheUnfinishedReq now later r.req).2.2.pageSize r' =
      pagesIn s.cache.pageSize (r.slots.drop (computedPages s.cache r))) :
    KvInv total (({ s with
      cache := (s.cache.cacheUnfinishedReq now later r.req).2.2
      pool := s.pool.releaseAll (s.cache.cacheUnfinishedReq now later r.req).2.1 } : KvState).put r') := by
  have hfocus := h.focus hget
  have hr := h.each r (mem_of_get hget)
  have hnodup := h.private_nodup (mem_of_get hget)
  have hradix : RadixInv (r.req.lastNode :: (s.remove rid).reqs.map (·.req.lastNode)) s.cache := hfocus.radix
  have hands := cacheUnfinishedReq_handsOver hradix h.ready h.nodes hr hrun hplain hnodup now later
  have hkeeps := cacheUnfinishedReq_keeps hradix hr hrun hplain now later
    ((s.remove rid).reqs.map (·.req.lastNode))
  refine h.put hget hrid (hfocus.exchange [r] [r'] ?_ hkeeps ?_ ?_ hands.nodes ?_ ?_)
  · have hrids := hfocus.rids
    rw [List.singleton_append, List.map_cons] at hrids ⊢
    rwa [hrid]
  · rw [List.singleton_append, List.map_cons, hlast]
    exact hradix.cacheUnfinishedReq now later hplain (hr.filled hrun)
  · rw [hkeeps.pageSize]
    exact h.ready.releaseAll _
  · intro q hq
    rw [List.mem_singleton.mp hq]
    exact hreq
  · simp only [List.flatMap_cons, List.flatMap_nil, List.append_nil, hprivate]
    exact hands.pages

theorem KvInv.unfinished (h : KvInv total s) (now later : Int) {s' : KvState}
    (hstep : s.unfinished rid now later = some s') : KvInv total s' := by
  unfold KvState.unfinished at hstep
  split at hstep
  next => cases hstep
  next r hget =>
    split at hstep
    next => cases hstep
    next hready =>
      have hrun : r.allocated = true := by simpa using fun halloc => hready (.inl halloc)
      have hwhole : r.chunked = false := by simpa using fun hchunk => hready (.inr hchunk)
      have hmem := mem_of_get hget
      cases hplain : r.req.blendStyle with
      | some style =>
        have hsame : s.cache.cacheUnfinishedReq now later r.req = (r.req, [], s.cache) := by
          rw [RadixCache.cacheUnfinishedReq, hplain]
          rfl
        rw [hsame] at hstep
        cases hstep
        exact h.put hget rfl (h.focus hget)
      | none =>
        cases hstep
        have hradix : RadixInv (r.req.lastNode :: (s.remove rid).reqs.map (·.req.lastNode)) s.cache :=
          (h.focus hget).radix
        have hcont := cacheUnfinishedReq_continued hradix h.ready h.nodes (h.each r hmem) hrun hplain
          (h.private_nodup hmem) now later
        exact h.continued hget hrun hplain rfl rfl (hcont.running (h.each r hmem) hrun hwhole)
          (hcont.private_running hrun)

theorem KvInv.nextChunk (h : KvInv total s) (extendLen : Nat) (now later : Int) {s' : KvState}
    (hplain : ∀ r, s.get? rid = some r → r.req.blendStyle = none)
    (hstep : s.nextChunk rid extendLen now later = some s') : KvInv total s' := by
  unfold KvState.nextChunk at hstep
  split at hstep
  next => cases hstep
  next r hget =>
    dsimp only at hstep
    split at hstep
    next => cases hstep
    next hready =>
      simp only [not_or, Bool.not_eq_false, Nat.not_lt] at hready
      obtain ⟨hrun, hcut, hpos, hlen⟩ := hready
      cases hstep
      have hmem := mem_of_get hget
      have hradix : RadixInv (r.req.lastNode :: (s.remove rid).reqs.map (·.req.lastNode)) s.cache :=
        (h.focus hget).radix
      have hcont := cacheUnfinishedReq_continued hradix h.ready h.nodes (h.each r hmem) hrun (hplain r hget)
        (h.private_nodup hmem) now later
      refine h.continued hget hrun (hplain r hget) rfl rfl (hcont.between (h.each r hmem) hrun _ ?_ ?_)
        (hcont.private_between (h.each r hmem) hrun hcut _ _)
      · rw [hcont.tokens]
        exact List.take_prefix _ _
      · rw [List.length_take]
        omega

end Steps

/-! ## The end of a request -/

section Finish

variable {total : Nat} {s : KvState} {rid : Nat} {r : InFlight} {c : RadixCache Nat} {a : PagedAllocator}
  {others : List Nat}

theorem LocksCounted.drop {Tok : Type} {holds : List Nat} {f : Children Tok} {i : Nat}
    (h : LocksCounted (i :: holds) f) (hi : i ∉ ids f) : LocksCounted holds f := by
  induction f with
  | nil => trivial
  | cons childKey node below rest ihb ihr =>
    obtain ⟨hcount, hbelow, hrest⟩ := h
    rw [ids_cons, ← List.cons_append, List.mem_append, not_or] at hi
    obtain ⟨hhere, hnotRest⟩ := hi
    refine ⟨?_, ihb hbelow fun hmem => hhere (List.mem_cons_of_mem _ hmem), ihr hrest hnotRest⟩
    rwa [List.countP_cons_of_neg (by simpa using hhere)] at hcount

/-- A lock on the root alone counts nowhere. -/
theorem RadixInv.dropRoot (h : RadixInv (c.rootNode.id :: others) c) : RadixInv others c where
  shaped := h.shaped
  idsNodup := h.idsNodup
  idsOld := h.idsOld
  rootOld := h.rootOld
  rootApart := h.rootApart
  held i hi := h.held i (List.mem_cons_of_mem _ hi)
  locks := h.locks.drop h.rootApart
  evictable := h.evictable
  protect := h.protect

/-- A request that leaves with all its pages. -/
structure Leaves (c : RadixCache Nat) (a : PagedAllocator) (others : List Nat) (r : InFlight)
    (c' : RadixCache Nat) (a' : PagedAllocator) : Prop where
  radix : RadixInv others c'
  keeps : KeepsPaths others c c'
  nodes : NodesInPages c'.pageSize c'.children
  pages : (a'.freeSet ++ treePages c'.pageSize c'.children).Perm
    (a.freeSet ++ (treePages c.pageSize c.children ++ privatePages c.pageSize r))

theorem leaves_blend (h : RadixInv (r.req.lastNode :: others) c) (hready : PoolReady c.pageSize a)
    (hnodes : NodesInPages c.pageSize c.children) (hr : ReqInv c r) (hrun : r.allocated = true)
    (hstyle : r.req.blendStyle.isSome = true) (hnodup : (privatePages c.pageSize r).Nodup) :
    Leaves c a others r c (a.release r.req.row) := by
  obtain ⟨hnone, hroot⟩ := hr.blend hstyle
  have hmatched : r.req.lastMatchedPrefixLen = 0 := by
    have := hr.matched_le
    rwa [hnone, List.length_nil, Nat.le_zero] at this
  have hslots : privateSlots r = r.req.row := by
    rw [privateSlots, slots_of_allocated hrun, hmatched, List.drop_zero]
  have hpages := hr.pages
  rw [privatePages] at hnodup
  rw [hslots] at hpages hnodup
  rw [hroot] at h
  refine ⟨h.dropRoot, KeepsPaths.refl _ _, hnodes, ?_⟩
  rw [privatePages, hslots]
  refine ((release_value hready c.pageSize_pos hpages hnodup).append_right _).trans
    (List.perm_iff_count.mpr fun g => ?_)
  simp only [List.count_append]
  omega

theorem leaves_dropped (h : RadixInv (r.req.lastNode :: others) c) (hready : PoolReady c.pageSize a)
    (hnodes : NodesInPages c.pageSize c.children) (hr : ReqInv c r) (hrun : r.allocated = true)
    (hnodup : (privatePages c.pageSize r).Nodup) :
    Leaves c a others r (c.decLockRef r.req.lastNode)
      (a.releaseAll [pySlice r.req.row r.req.prefixIndices.length (pageAligned c.pageSize r.req.row.length),
        r.req.row.drop (pageAligned c.pageSize r.req.row.length)]) := by
  have hP := c.pageSize_pos
  have hslots := slots_of_allocated hrun
  have hle := pageAligned_le c.pageSize r.req.row.length
  have hdvd := pageAligned_dvd c.pageSize r.req.row.length
  have hmatched : r.req.lastMatchedPrefixLen ≤ pageAligned c.pageSize r.req.row.length := by
    rw [hr.aligned]
    exact Nat.mul_le_mul_right _ (Nat.div_le_div_right (hslots ▸ hr.within))
  have hpages := hr.pages
  have hsplit := pagesIn_slice hP hr.matched_dvd hdvd hmatched r.req.row
  rw [privateSlots, hslots] at hpages
  rw [privatePages, privateSlots, hslots, hsplit] at hnodup
  obtain ⟨hslice, htail, _⟩ := List.nodup_append'.mp hnodup
  have hpagesTail : InPages c.pageSize (r.req.row.drop (pageAligned c.pageSize r.req.row.length)) := by
    have hrest := hpages.drop hP (Nat.dvd_sub hdvd hr.matched_dvd)
    rwa [List.drop_drop, Nat.add_sub_cancel' hmatched] at hrest
  have hfirst := release_slice hready hP hr.aligned hpages hdvd hle hslice
  have hsecond := release_value (hready.release (pySlice r.req.row r.req.prefixIndices.length
    (pageAligned c.pageSize r.req.row.length))) hP hpagesTail htail
  have hunlock := decLockRef_pages hnodes r.req.lastNode
  have hradix := h.decLockRef List.mem_cons_self
  rw [List.erase_cons_head] at hradix
  refine ⟨hradix, decLockRef_keeps _ _, hunlock.nodes, List.perm_iff_count.mpr fun g => ?_⟩
  have hcountFirst := hfirst.count_eq g
  have hcountSecond := hsecond.count_eq g
  have hcountTree := hunlock.pages.count_eq g
  rw [privatePages, privateSlots, hslots, hsplit]
  simp only [List.count_append, List.append_nil, PagedAllocator.releaseAll, List.foldl_cons,
    List.foldl_nil] at hcountFirst hcountSecond hcountTree ⊢
  omega

/-- The key under which the whole pages of a request are inserted at its end. -/
def finishedKey (c : RadixCache Nat) (req : CachedReq) : RadixKey Nat :=
  ⟨((req.originInputIds ++ req.outputIds).take req.row.length).take (pageAligned c.pageSize req.row.length),
    req.extraKey⟩

theorem finishedKey_len (hknown : r.req.row.length ≤ (r.req.originInputIds ++ r.req.outputIds).length) :
    (finishedKey c r.req).len = pageAligned c.pageSize r.req.row.length := by
  have hle := pageAligned_le c.pageSize r.req.row.length
  rw [RadixKey.len, finishedKey, List.length_take, List.length_take]
  omega

theorem ReqInv.matched_le_row (hr : ReqInv c r) (hrun : r.allocated = true) :
    r.req.lastMatchedPrefixLen ≤ pageAligned c.pageSize r.req.row.length := by
  rw [hr.aligned]
  exact Nat.mul_le_mul_right _ (Nat.div_le_div_right (slots_of_allocated hrun ▸ hr.within))

theorem ReqInv.prefix_finishedKey (hr : ReqInv c r) (hrun : r.allocated = true) :
    r.req.fillIds.take r.req.lastMatchedPrefixLen <+: (finishedKey c r.req).tokenIds := by
  rw [finishedKey, List.take_take, Nat.min_eq_left (pageAligned_le _ _)]
  refine List.prefix_take_iff.mpr ⟨(List.take_prefix _ _).trans hr.tokens, ?_⟩
  exact (List.length_take_le _ _).trans (hr.matched_le_row hrun)

theorem leaves_inserted (h : RadixInv (r.req.lastNode :: others) c) (hready : PoolReady c.pageSize a)
    (hnodes : NodesInPages c.pageSize c.children) (hr : ReqInv c r) (hrun : r.allocated = true)
    (hknown : r.req.row.length ≤ (r.req.originInputIds ++ r.req.outputIds).length)
    (hnodup : (privatePages c.pageSize r).Nodup) (now : Int) :
    Leaves c a others r
      ((c.insert now (finishedKey c r.req) (r.req.row.take (pageAligned c.pageSize r.req.row.length))).2.decLockRef
        r.req.lastNode)
      (a.releaseAll [pySlice r.req.row r.req.prefixIndices.length
          (c.insert now (finishedKey c r.req) (r.req.row.take (pageAligned c.pageSize r.req.row.length))).1,
        r.req.row.drop (pageAligned c.pageSize r.req.row.length)]) := by
  have hP := c.pageSize_pos
  have hslots := slots_of_allocated hrun
  have hle := pageAligned_le c.pageSize r.req.row.length
  have hdvd := pageAligned_dvd c.pageSize r.req.row.length
  have hlen : (finishedKey c r.req).len = pageAligned c.pageSize r.req.row.length := finishedKey_len hknown
  have hmatched := hr.matched_le_row hrun
  have hpre := hr.prefix_finishedKey hrun
  have hands := insert_handsOver h hready hnodes hr hnodup now rfl (hlen.symm ▸ hdvd) hpre
    (by rw [hlen, hslots]; exact hle)
  rw [hlen, hslots] at hands
  have hinsert : RadixInv (r.req.lastNode :: others) (c.insert now (finishedKey c r.req)
      (r.req.row.take (pageAligned c.pageSize r.req.row.length))).2 :=
    h.insert now (hlen.symm ▸ hdvd) (by rw [hlen, List.length_take_of_le hle])
  have hpagesTail : InPages c.pageSize (r.req.row.drop (pageAligned c.pageSize r.req.row.length)) := by
    have hrest := hr.pages.drop hP (Nat.dvd_sub hdvd hr.matched_dvd)
    rwa [privateSlots, hslots, List.drop_drop, Nat.add_sub_cancel' hmatched] at hrest
  have htail : (pagesIn c.pageSize (r.req.row.drop (pageAligned c.pageSize r.req.row.length))).Nodup := by
    rw [privatePages, privateSlots, hslots, pagesIn_slice hP hr.matched_dvd hdvd hmatched r.req.row] at hnodup
    exact (List.nodup_append'.mp hnodup).2.1
  have hsecond := release_value (hready.release (pySlice r.req.row r.req.prefixIndices.length
    (c.insert now (finishedKey c r.req) (r.req.row.take (pageAligned c.pageSize r.req.row.length))).1)) hP
    hpagesTail htail
  have hunlock := decLockRef_pages hands.nodes r.req.lastNode
  have hradix := hinsert.decLockRef List.mem_cons_self
  rw [List.erase_cons_head] at hradix
  refine ⟨hradix, (insert_keeps h now (hlen.symm ▸ hdvd)).trans (decLockRef_keeps _ _), hunlock.nodes,
    List.perm_iff_count.mpr fun g => ?_⟩
  have hcountHands := hands.pages.count_eq g
  have hcountSecond := hsecond.count_eq g
  have hcountTree := hunlock.pages.count_eq g
  simp only [List.count_append, List.append_nil, PagedAllocator.releaseAll, List.foldl_cons, List.foldl_nil,
    hslots] at hcountHands hcountSecond hcountTree ⊢
  omega

theorem KvInv.leave {c' : RadixCache Nat} {a' : PagedAllocator} (h : KvInv total s)
    (hget : s.get? rid = some r)
    (hleaves : Leaves s.cache s.pool ((s.remove rid).reqs.map (·.req.lastNode)) r c' a')
    (hready : PoolReady s.cache.pageSize a') :
    KvInv total (({ s with cache := c', pool := a' } : KvState).remove rid) := by
  have hfocus := h.focus hget
  have hrids := hfocus.rids
  rw [List.singleton_append, List.map_cons, List.nodup_cons] at hrids
  refine hfocus.exchange [r] [] hrids.2 hleaves.keeps hleaves.radix ?_ hleaves.nodes
    (fun q hq => by cases hq) ?_
  · rw [hleaves.keeps.pageSize]
    exact hready
  · simp only [List.flatMap_cons, List.flatMap_nil, List.append_nil]
    exact hleaves.pages

theorem cacheFinishedReq_eq (c : RadixCache Nat) (now : Int) (req : CachedReq) (isInsert : Bool)
    (hrow : req.row.length = req.originInputIds.length + (req.outputIds.length - 1)) :
    c.cacheFinishedReq now req isInsert =
      if req.blendStyle.isSome then ([req.row], c)
      else if isInsert then
        ([pySlice req.row req.prefixIndices.length
            (c.insert now (finishedKey c req) (req.row.take (pageAligned c.pageSize req.row.length))).1,
          req.row.drop (pageAligned c.pageSize req.row.length)],
        (c.insert now (finishedKey c req)
          (req.row.take (pageAligned c.pageSize req.row.length))).2.decLockRef req.lastNode)
      else
        ([pySlice req.row req.prefixIndices.length (pageAligned c.pageSize req.row.length),
          req.row.drop (pageAligned c.pageSize req.row.length)], c.decLockRef req.lastNode) := by
  rw [RadixCache.cacheFinishedReq, ← hrow, List.take_length, finishedKey]

theorem KvInv.finish (h : KvInv total s) (now : Int) (isInsert : Bool) {s' : KvState}
    (hstep : s.finish rid now isInsert = some s') : KvInv total s' := by
  unfold KvState.finish at hstep
  split at hstep
  next => cases hstep
  next r hget =>
    split at hstep
    next => cases hstep
    next hdone =>
      simp only [not_or, Bool.not_eq_false, Bool.not_eq_true, not_not] at hdone
      obtain ⟨hrun, hwhole, hrow⟩ := hdone
      have hmem := mem_of_get hget
      have hr := h.each r hmem
      have hnodup := h.private_nodup hmem
      have hradix : RadixInv (r.req.lastNode :: (s.remove rid).reqs.map (·.req.lastNode)) s.cache :=
        (h.focus hget).radix
      have hknown : r.req.row.length ≤ (r.req.originInputIds ++ r.req.outputIds).length := by
        rw [List.length_append]
        omega
      have hleaves : Leaves s.cache s.pool ((s.remove rid).reqs.map (·.req.lastNode)) r
          (s.cache.cacheFinishedReq now r.req isInsert).2
          (s.pool.releaseAll (s.cache.cacheFinishedReq now r.req isInsert).1) := by
        rw [cacheFinishedReq_eq _ _ _ _ hrow]
        split
        next hstyle => exact leaves_blend hradix h.ready h.nodes hr hrun hstyle hnodup
        next =>
          split
          · exact leaves_inserted hradix h.ready h.nodes hr hrun hknown hnodup now
          · exact leaves_dropped hradix h.ready h.nodes hr hrun hnodup
      have heq := Option.some.inj hstep
      subst heq
      exact h.leave hget hleaves (h.ready.releaseAll _)

theorem KvInv.output (h : KvInv total s) (token : Nat) {s' : KvState}
    (hstep : s.output rid token = some s') : KvInv total s' := by
  unfold KvState.output at hstep
  split at hstep
  next => cases hstep
  next r hget =>
    split at hstep
    next => cases hstep
    next =>
      cases hstep
      have hr := h.each r (mem_of_get hget)
      have hfocus := h.focus hget
      refine h.put hget rfl (hfocus.exchange [r] [_] hfocus.rids (KeepsPaths.refl _ _) hfocus.radix h.ready
        h.nodes (fun q hq => ?_) (List.Perm.refl _))
      rw [List.mem_singleton.mp hq]
      refine ⟨hr.aligned, hr.path, hr.within, hr.known, hr.filled, hr.chunk, hr.waiting, hr.pages, hr.offsets,
        ?_, hr.blend⟩
      rw [← List.append_assoc]
      exact hr.tokens.trans (List.prefix_append _ _)

theorem KvInv.admitReq (h : KvInv total s) {originInputIds outputIds : List Nat} {extraKey : Option String}
    {blendStyle : Option BlendStyle} {maxPrefixLen extendLen : Nat} {now : Int} {s' : KvState}
    (hblend : blendStyle.isSome = true → (s.cache.matchPrefix now ⟨(originInputIds ++ outputIds).take
      (min maxPrefixLen ((originInputIds ++ outputIds).length - 1)), extraKey⟩).1.deviceIndices = [])
    (hstep : s.admitReq rid originInputIds outputIds extraKey blendStyle maxPrefixLen extendLen now = some s') :
    KvInv total s' := by
  unfold KvState.admitReq at hstep
  dsimp only at hstep
  split at hstep
  next => cases hstep
  next hadmitted =>
    simp only [not_or, Nat.not_lt, Option.not_isSome_iff_eq_none] at hadmitted
    obtain ⟨hnew, hpos, hlen⟩ := hadmitted
    cases hstep
    have hkey : (originInputIds ++ outputIds).take (min maxPrefixLen ((originInputIds ++ outputIds).length - 1)) <+:
        originInputIds ++ outputIds := List.take_prefix _ _
    refine h.admitted (?_ : JustAdmitted s now ⟨(originInputIds ++ outputIds).take
        (min maxPrefixLen ((originInputIds ++ outputIds).length - 1)), extraKey⟩ (originInputIds ++ outputIds) _)
      hkey (by exact hnew)
    exact {
      extraKey := rfl
      waits := rfl
      prefixIndices := rfl
      lastNode := rfl
      matched := rfl
      tokens := rfl
      fillIds := List.take_prefix _ _
      more := by
        dsimp only
        rw [List.length_take]
        omega
      blend := hblend }

end Finish

/-! ## Runs -/

inductive KvOp where
  | admitReq (rid : Nat) (originInputIds outputIds : List Nat) (extraKey : Option String)
      (blendStyle : Option BlendStyle) (maxPrefixLen extendLen : Nat) (now : Int)
  | allocForExtend (mem : KernelMemory)
  | output (rid token : Nat)
  | allocForDecode (mem : KernelMemory) (rids : List Nat)
  | unfinished (rid : Nat) (now later : Int)
  | nextChunk (rid extendLen : Nat) (now later : Int)
  | finish (rid : Nat) (now : Int) (isInsert : Bool)
  | evict (numTokens : Int)
  | matchPrefix (now : Int) (key : RadixKey Nat)

def kvMachine : Machine KvState KvOp where
  step
    | .admitReq rid originInputIds outputIds extraKey blendStyle maxPrefixLen extendLen now, s =>
      s.admitReq rid originInputIds outputIds extraKey blendStyle maxPrefixLen extendLen now
    | .allocForExtend mem, s => s.allocForExtend mem
    | .output rid token, s => s.output rid token
    | .allocForDecode mem rids, s => s.allocForDecode mem rids
    | .unfinished rid now later, s => s.unfinished rid now later
    | .nextChunk rid extendLen now later, s => s.nextChunk rid extendLen now later
    | .finish rid now isInsert, s => s.finish rid now isInsert
    | .evict numTokens, s => some (s.evict numTokens)
    | .matchPrefix now key, s => some { s with cache := (s.cache.matchPrefix now key).2 }

/-- An empty tree and a free pool. -/
def KvState.start (size pageSize : Nat) (h : 0 < pageSize) (needSort : Bool) (policy : EvictionPolicy)
    (now : Int) : KvState :=
  ⟨RadixCache.reset pageSize h policy now, PagedAllocator.clear size pageSize needSort h, []⟩

theorem kvInv_start (size pageSize : Nat) (h : 0 < pageSize) (needSort : Bool) (policy : EvictionPolicy)
    (now : Int) : KvInv (size / pageSize) (KvState.start size pageSize h needSort policy now) where
  radix := radixInv_reset pageSize h policy now
  ready := ⟨rfl, rfl, .inr rfl⟩
  nodes := nodesInPages_nil _
  rids := List.nodup_nil
  each := fun r hr => by cases hr
  pages := List.Perm.of_eq (by simp [ownedPages, poolPages, KvState.start, PagedAllocator.clear,
    PagedAllocator.freeSet, RadixCache.reset])

/-- A request with a blend style matches nothing and is computed in one round. -/
def BlendApart (s : KvState) : KvOp → Prop
  | .admitReq _ originInputIds outputIds extraKey blendStyle maxPrefixLen _ now =>
    blendStyle.isSome = true → (s.cache.matchPrefix now ⟨(originInputIds ++ outputIds).take
      (min maxPrefixLen ((originInputIds ++ outputIds).length - 1)), extraKey⟩).1.deviceIndices = []
  | .nextChunk rid _ _ _ => ∀ r, s.get? rid = some r → r.req.blendStyle = none
  | _ => True

instance (s : KvState) (op : KvOp) : Decidable (BlendApart s op) := by
  cases op
  case nextChunk rid extendLen now later =>
    exact decidable_of_iff ((s.get? rid).all (·.req.blendStyle.isNone) = true) (by
      rw [BlendApart, Option.all_eq_true]
      simp)
  all_goals
    unfold BlendApart
    infer_instance

theorem kvMachine_step {total : Nat} {s s' : KvState} {op : KvOp} (h : KvInv total s)
    (hguard : BlendApart s op) (hstep : kvMachine.step op s = some s') : KvInv total s' := by
  cases op with
  | admitReq => exact h.admitReq hguard hstep
  | allocForExtend mem => exact h.allocForExtend mem hstep
  | output rid token => exact h.output token hstep
  | allocForDecode mem rids => exact h.allocForDecode mem rids hstep
  | unfinished rid now later => exact h.unfinished now later hstep
  | nextChunk rid extendLen now later => exact h.nextChunk extendLen now later hguard hstep
  | finish rid now isInsert => exact h.finish now isInsert hstep
  | evict numTokens =>
    cases hstep
    exact h.evict numTokens
  | matchPrefix now key =>
    cases hstep
    exact h.matchPrefix now key

theorem kvInv_of_reach {size pageSize : Nat} {hpage : 0 < pageSize} {needSort : Bool}
    {policy : EvictionPolicy} {now : Int} {s : KvState}
    (h : kvMachine.Reach BlendApart (· = KvState.start size pageSize hpage needSort policy now) s) :
    KvInv (size / pageSize) s :=
  h.invariant (fun s hs => by rw [hs]; exact kvInv_start size pageSize hpage needSort policy now)
    fun _ _ _ hs hguard hstep => kvMachine_step hs hguard hstep

/-- Every page is free, in the tree, or of one request, once; a node is locked by the requests that
hold it or a node below it, once for each. -/
structure KvConserved (total : Nat) (s : KvState) : Prop where
  pages : (ownedPages s).Perm (poolPages total)
  locks : LocksCounted (s.reqs.map (·.req.lastNode)) s.cache.children

theorem kv_conserved {size pageSize : Nat} {hpage : 0 < pageSize} {needSort : Bool}
    {policy : EvictionPolicy} {now : Int} {s : KvState}
    (h : kvMachine.Reach BlendApart (· = KvState.start size pageSize hpage needSort policy now) s) :
    KvConserved (size / pageSize) s :=
  ⟨(kvInv_of_reach h).pages, (kvInv_of_reach h).radix.locks⟩

/-- A request leaves its prompt in the tree; another one with a blend style matches nothing. -/
def blendApartOps : List KvOp :=
  [.admitReq 1 [5, 6, 7] [] none none 9 3 0, .allocForExtend zeroMemory, .output 1 8, .unfinished 1 10 20,
    .allocForDecode zeroMemory [1], .output 1 9, .finish 1 30 true,
    .admitReq 2 [3, 4] [] none (some .doBlend) 9 2 40, .allocForExtend zeroMemory, .finish 2 50 true]

theorem blendApart_runs : (kvMachine.guardedRun BlendApart blendApartOps
    (KvState.start 8 2 (by decide) false .lru 0)).isSome = true := by decide +kernel

theorem kv_conserved_blendApart : ∃ s : KvState, kvMachine.Reach BlendApart
    (· = KvState.start 8 2 (by decide) false .lru 0) s ∧ KvConserved (8 / 2) s :=
  ⟨_, Machine.reach_guardedRun blendApart_runs, kv_conserved (Machine.reach_guardedRun blendApart_runs)⟩

/-- A request with a blend style that matches the prompt of another one. -/
def blendMatchOps : List KvOp :=
  [.admitReq 1 [5, 6] [] none none 9 2 0, .allocForExtend zeroMemory, .finish 1 10 true,
    .admitReq 2 [5, 6, 7] [] none (some .doBlend) 9 1 20, .allocForExtend zeroMemory, .finish 2 30 true]

theorem blendMatch_runs : (kvMachine.run blendMatchOps
    (KvState.start 8 1 (by decide) false .lru 0)).isSome = true := by decide +kernel

/-- It frees the pages of the tree along with its own. -/
theorem kv_not_conserved : ∃ s : KvState, kvMachine.Reach (fun _ _ => True)
    (· = KvState.start 8 1 (by decide) false .lru 0) s ∧ ¬ KvConserved (8 / 1) s := by
  refine ⟨_, Machine.reach_run (fun _ _ _ => trivial) blendMatch_runs, fun h => ?_⟩
  exact absurd h.pages.length_eq (by decide +kernel)

end QCFuse.Guarantees
