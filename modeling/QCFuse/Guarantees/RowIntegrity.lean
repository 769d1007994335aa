import QCFuse.Guarantees.KvRequests

/-!
# Rows of running requests

The entries of a row up to what is matched are the slots of the path the request holds, the others
are its own. `cache_unfinished_req` rewrites a row from the old prefix on, and frees whole pages, so
this is kept only where the page the old prefix ends in was not inserted by another request.
-/

set_option autoImplicit false

namespace QCFuse.Guarantees

open QCFuse.Library QCFuse.Source

/-! ## What is stored for a prefix -/

section Stored

variable {Tok : Type} {P : Nat} {f : Children Tok} {extraKey : Option String} {p : List Tok} {v : List Int}

theorem TreeStores.take (hshape : Shaped P f) (h : TreeStores f extraKey p v) {k : Nat} (hpos : 0 < k) :
    TreeStores f extraKey (p.take k) (v.take k) := by
  induction f generalizing p v k with
  | nil => cases h
  | cons childKey node below rest ihb ihr =>
    obtain ⟨hnode, _, hbelow, hrest, _⟩ := hshape.cons
    have hvalued : node.value.length = node.key.tokenIds.length := hnode.valued
    rcases h with ⟨heq, ⟨hne, hpre, rfl⟩ | ⟨p', v', rfl, rfl, hstored⟩⟩ | hstored
    · refine .inl ⟨heq, .inl ⟨?_, (List.take_prefix _ _).trans hpre, ?_⟩⟩
      · exact fun hnil => hne (by simpa [hpos.ne'] using hnil)
      · rw [List.take_take, List.length_take]
    · rcases Nat.lt_or_ge node.key.tokenIds.length k with hlt | hge
      · obtain ⟨j, rfl⟩ := Nat.exists_eq_add_of_lt hlt
        rw [Nat.add_assoc, List.take_length_add_append, ← hvalued, List.take_length_add_append]
        exact .inl ⟨heq, .inr ⟨_, _, rfl, rfl, ihb hbelow hstored (Nat.succ_pos j)⟩⟩
      · refine .inl ⟨heq, .inl ⟨?_, ?_, ?_⟩⟩
        · rw [List.take_append_of_le_length hge]
          have := hnode.nonempty
          exact fun hnil => this (by simpa [hpos.ne'] using hnil)
        · rw [List.take_append_of_le_length hge]
          exact List.take_prefix _ _
        · rw [List.take_append_of_le_length hge, List.take_append_of_le_length (hvalued.symm ▸ hge),
            List.length_take_of_le hge]
    · exact .inr (ihr hrest hstored hpos)

/-- The pages of a path are in the tree. -/
theorem PathTo.page_mem (hP : 0 < P) {id : Nat} {t : List Tok} {s : List Int} (hnodes : NodesInPages P f)
    (h : PathTo f id extraKey t s) {x : Int} (hx : x ∈ s) : x / (P : Int) ∈ treePages P f := by
  induction f generalizing t s with
  | nil => exact h.elim
  | cons childKey node below rest ihb ihr =>
    obtain ⟨hhere, hbelow, hrest⟩ := nodesInPages_cons.mp hnodes
    rw [treePages_cons]
    rcases h with ⟨_, ⟨_, _, rfl⟩ | ⟨t', s', _, rfl, hpath⟩⟩ | hpath
    · exact List.mem_append_left _ (hhere.page_mem hP hx)
    · rcases List.mem_append.mp hx with hx | hx
      · exact List.mem_append_left _ (hhere.page_mem hP hx)
      · exact List.mem_append_right _ (List.mem_append_left _ (ihb hbelow hpath hx))
    · exact List.mem_append_right _ (List.mem_append_right _ (ihr hrest hpath hx))

end Stored

/-! ## The slots after an insertion -/

section Inserted

variable {c : RadixCache Nat} {holds : List Nat} {key : RadixKey Nat} {value : List Int}

/-- What an insertion found present is what a match finds. -/
theorem insert_le_match (h : RadixInv holds c) (now later : Int) (halign : c.pageSize ∣ key.len) :
    (c.insert now key value).1 ≤ (c.matchPrefix later key).1.deviceIndices.length := by
  have hexact : InsertExact c key value _ _ := insert_exact h now halign
  obtain ⟨s, hlen, hs, _⟩ := hexact.stored
  rcases Nat.eq_zero_or_pos (c.insert now key value).1 with hzero | hpos
  · omega
  · have htake : (key.tokenIds.take (c.insert now key value).1).length = (c.insert now key value).1 :=
      List.length_take_of_le hexact.within
    have := (matchPrefix_exact h later key).longest _ s (hs hpos) (htake.symm ▸ hexact.aligned)
      (List.take_prefix _ _)
    omega

/-- A match behind an insertion returns what was stored, then the values that were inserted. -/
theorem insert_match_slots (h : RadixInv holds c) (now later : Int) (halign : c.pageSize ∣ key.len)
    (hvalue : value.length = key.len) :
    ((c.insert now key value).2.matchPrefix later key).1.deviceIndices.drop (c.insert now key value).1 =
        value.drop (c.insert now key value).1 ∧
      ∀ m v, c.pageSize ∣ m → 0 < m → m ≤ key.len → TreeStores c.children key.extraKey (key.tokenIds.take m) v →
        ((c.insert now key value).2.matchPrefix later key).1.deviceIndices.take m = v := by
  have hexact : InsertExact c key value _ _ := insert_exact h now halign
  have hinv := h.insert now halign hvalue
  have hmatch := matchPrefix_exact hinv later key
  have hfull := insert_matchPrefix h now later halign hvalue
  have hsize := insert_pageSize c now key value
  obtain ⟨s, hlen, hs, hstored⟩ := hexact.stored
  have hwhole : key.tokenIds.take key.len = key.tokenIds := List.take_length
  refine ⟨?_, fun m v hdvd hpos hle hv => ?_⟩
  · rcases Nat.lt_or_ge (c.insert now key value).1 key.len with hlt | hge
    · have hnew : TreeStores (c.insert now key value).2.children key.extraKey key.tokenIds
          ((s ++ value.drop (c.insert now key value).1).take key.len) :=
        (hstored _ _ _).mpr (.inr ⟨rfl, List.prefix_refl _, hlt, rfl⟩)
      have heq := hmatch.exact _ (by rw [hfull, hwhole]; exact hnew)
      rw [← heq, List.take_of_length_le (by rw [List.length_append, List.length_drop]; omega),
        List.drop_left' hlen]
    · rw [List.drop_of_length_le (by omega), List.drop_of_length_le (by omega)]
  · have hold : TreeStores (c.insert now key value).2.children key.extraKey (key.tokenIds.take m) v :=
      (hstored _ _ _).mpr (.inl hv)
    have hne : (key.tokenIds.take m).length = m := List.length_take_of_le hle
    have hdevice : ((c.insert now key value).2.matchPrefix later key).1.deviceIndices ≠ [] := by
      intro hnil
      rw [hnil, List.length_nil] at hfull
      omega
    have hnow := (hmatch.stored hdevice).take hinv.shaped hpos
    -- both are stored for the first `m` tokens
    rw [hfull, hwhole] at hnow
    exact hnow.unique hinv.shaped (by rw [hne, hsize]; exact hdvd) hold

end Inserted

/-! ## Rows on their path -/

section Rows

variable {total : Nat} {s : KvState} {rid : Nat} {r : InFlight} {c : RadixCache Nat} {others : List Nat}

/-- The matched part of the row is that of `prefix_indices`. -/
def OnPath (r : InFlight) : Prop :=
  r.slots.take r.req.lastMatchedPrefixLen = r.req.prefixIndices.take r.req.lastMatchedPrefixLen

/-- Where the prefix computed before ends: at a page boundary, or in a page the tree has not. -/
def EndsApart (c : RadixCache Nat) (now : Int) (req : CachedReq) : Prop :=
  c.pageSize ∣ req.prefixIndices.length ∨
    (c.matchPrefix now (unfinishedKey c.pageSize req)).1.deviceIndices.length ≤ req.prefixIndices.length

theorem take_overwrite_drop {α : Type} {xs ys : List α} {m off : Nat} (hm : m ≤ ys.length)
    (hfront : ys.take m = xs.take m) (hcase : m = off ∨ ys = xs.take ys.length) :
    (overwrite xs off (ys.drop off)).take ys.length = ys := by
  rw [overwrite_drop]
  split
  next hoff =>
    have hjoin : xs.take off ++ ys.drop off = ys := by
      rcases hcase with rfl | heq
      · rw [← hfront, List.take_append_drop]
      · have htake : xs.take off = ys.take off := by
          rw [heq, List.take_take, Nat.min_eq_left hoff]
        rw [htake, List.take_append_drop]
    rw [hjoin, List.take_left]
  next hoff =>
    rcases hcase with rfl | heq
    · exact absurd hm hoff
    · exact heq.symm

/-- The slots matched after the insertion are those the row has, if its prefix ends apart. -/
theorem unfinished_onPath (h : RadixInv (r.req.lastNode :: others) c) (hr : ReqInv c r) (hpath : OnPath r)
    (hrun : r.allocated = true) (now later : Int) (hapart : EndsApart c now r.req) :
    (overwrite r.req.row r.req.prefixIndices.length
      ((unfinishedMatch c now later r.req).1.deviceIndices.drop r.req.prefixIndices.length)).take
        (computedPages c r) = (unfinishedMatch c now later r.req).1.deviceIndices := by
  have hrow := hr.filled hrun
  have hslots := slots_of_allocated hrun
  have hmatched := hr.matched_le_computed
  have hvalue := unfinished_value_length (c := c) hrow
  have hlen : (unfinishedMatch c now later r.req).1.deviceIndices.length = computedPages c r :=
    unfinishedMatch_length h now later hrow
  have hA : computedPages c r ≤ r.req.fillIds.length := pageAligned_le c.pageSize r.req.fillIds.length
  have hkey := unfinishedKey_len c.pageSize r.req
  obtain ⟨hbehind, hfront⟩ := insert_match_slots h now later unfinishedKey_dvd hvalue
  rw [← unfinishedInsert, ← unfinishedMatch] at hbehind hfront
  rw [OnPath, hslots] at hpath
  have hsame : (unfinishedMatch c now later r.req).1.deviceIndices.take r.req.lastMatchedPrefixLen =
      r.req.row.take r.req.lastMatchedPrefixLen := by
    rw [hpath]
    rcases hr.path with ⟨hzero, _⟩ | hnode
    · rw [hzero, List.take_zero, List.take_zero]
    · obtain ⟨hne, _, _⟩ := hnode.ne_nil_length h.shaped
      have hpos : 0 < r.req.lastMatchedPrefixLen := by
        refine Nat.pos_of_ne_zero fun hzero => hne ?_
        rw [hzero, List.take_zero]
      refine hfront _ _ hr.matched_dvd hpos (by rw [hkey]; exact hmatched) ?_
      rw [show (unfinishedKey c.pageSize r.req).tokenIds = r.req.fillIds.take (computedPages c r) from rfl,
        List.take_take, Nat.min_eq_left hmatched]
      exact hnode.stored h.shaped
  rw [← hlen]
  refine take_overwrite_drop (m := r.req.lastMatchedPrefixLen) (by omega) hsame ?_
  rcases hapart with hdvd | hle
  · refine .inl ?_
    rw [hr.aligned, pageAligned, Nat.div_mul_cancel hdvd]
  · refine .inr ?_
    have hpresent : (unfinishedInsert c now r.req).1 ≤ r.req.prefixIndices.length :=
      (insert_le_match h now now unfinishedKey_dvd).trans hle
    have hexact : InsertExact c (unfinishedKey c.pageSize r.req) _ (unfinishedInsert c now r.req).1 _ :=
      insert_exact h now unfinishedKey_dvd
    have hmn : r.req.lastMatchedPrefixLen ≤ (unfinishedInsert c now r.req).1 :=
      hr.path.present h hr.matched_dvd (hr.matched_le.trans hr.known) now rfl unfinishedKey_dvd
        (List.take_prefix_take_left hmatched)
    -- nothing but what the request holds was present
    have heq : (unfinishedInsert c now r.req).1 = r.req.lastMatchedPrefixLen := by
      refine Nat.le_antisymm ?_ hmn
      obtain ⟨k, hk⟩ := hexact.aligned
      rw [hr.aligned, pageAligned, hk, Nat.mul_comm]
      exact Nat.mul_le_mul_right _ ((Nat.le_div_iff_mul_le c.pageSize_pos).mpr (by rw [Nat.mul_comm]; omega))
    rw [heq] at hbehind
    rw [hlen]
    have hrowA : (r.req.row.take r.req.fillIds.length).take (pageAligned c.pageSize r.req.fillIds.length) =
        r.req.row.take (computedPages c r) := by
      rw [List.take_take, Nat.min_eq_left (pageAligned_le _ _)]
    rw [hrowA] at hbehind
    calc (unfinishedMatch c now later r.req).1.deviceIndices
        _ = r.req.row.take r.req.lastMatchedPrefixLen ++
            (r.req.row.take (computedPages c r)).drop r.req.lastMatchedPrefixLen := by
          rw [← hsame, ← hbehind, List.take_append_drop]
        _ = (r.req.row.take (computedPages c r)).take r.req.lastMatchedPrefixLen ++
            (r.req.row.take (computedPages c r)).drop r.req.lastMatchedPrefixLen := by
          rw [List.take_take, Nat.min_eq_left hmatched]
        _ = r.req.row.take (computedPages c r) := List.take_append_drop _ _

/-- The pages of plain requests are where they belong, and rows follow the paths. -/
structure RowsInv (total : Nat) (s : KvState) : Prop where
  kv : KvInv total s
  plain : ∀ r ∈ s.reqs, r.req.blendStyle = none
  rows : ∀ r ∈ s.reqs, OnPath r

/-- Requests are plain, and where a prefill ends, what was computed before ends apart. -/
def RowSafe (s : KvState) : KvOp → Prop
  | .admitReq _ _ _ _ blendStyle _ _ _ => blendStyle = none
  | .unfinished rid now _ => ∀ r, s.get? rid = some r → EndsApart s.cache now r.req
  | _ => True

/-- Requests are plain. -/
def PlainOnly (_ : KvState) : KvOp → Prop
  | .admitReq _ _ _ _ blendStyle _ _ _ => blendStyle = none
  | _ => True

theorem RowsInv.blendApart {op : KvOp} (h : RowsInv total s) (hsafe : RowSafe s op) : BlendApart s op := by
  cases op with
  | admitReq rid originInputIds outputIds extraKey blendStyle maxPrefixLen extendLen now =>
    intro hstyle
    rw [show blendStyle = none from hsafe] at hstyle
    cases hstyle
  | nextChunk rid extendLen now later => exact fun r hget => h.plain r (mem_of_get hget)
  | _ => trivial

theorem mem_put {r' q : InFlight} (hq : q ∈ (s.put r').reqs) : q = r' ∨ q ∈ s.reqs := by
  obtain ⟨p, hp, rfl⟩ := List.mem_map.mp hq
  split
  · exact .inl rfl
  · exact .inr hp

/-- What an allocation leaves of the rows. -/
theorem onPath_granted {want seqLen : InFlight → Nat} {write : InFlight → List Int → InFlight}
    (h : KvInv total s) (hrows : ∀ r ∈ s.reqs, OnPath r)
    (hasks : ∀ r ∈ s.reqs, want r ≠ 0 → Asks want seqLen write r) (out : List Int) :
    ∀ q ∈ writeSlots want write out s.reqs, OnPath q := by
  have hreqs : ∀ reqs : List InFlight, (∀ r ∈ reqs, r ∈ s.reqs) → ∀ out,
      ∀ q ∈ writeSlots want write out reqs, OnPath q := by
    intro reqs
    induction reqs with
    | nil => exact fun _ _ q hq => by cases hq
    | cons r reqs ih =>
      intro hsub out q hq
      have hmem := hsub r List.mem_cons_self
      rw [writeSlots] at hq
      rcases List.mem_cons.mp hq with rfl | hq
      · split
        next => exact hrows r hmem
        next hwant =>
          rw [(hasks r hmem hwant).write]
          have hr := h.each r hmem
          show (r.slots ++ _).take r.req.lastMatchedPrefixLen = _
          rw [List.take_append_of_le_length (hr.matched_le.trans hr.within)]
          exact hrows r hmem
      · exact ih (fun r' hr' => hsub r' (List.mem_cons_of_mem _ hr')) _ q hq
  exact hreqs s.reqs (fun _ hr => hr) out

theorem plain_granted (want : InFlight → Nat) (write : InFlight → List Int → InFlight)
    (hwrite : ∀ r slots, (write r slots).req.blendStyle = r.req.blendStyle) (reqs : List InFlight)
    (hplain : ∀ r ∈ reqs, r.req.blendStyle = none) (out : List Int) :
    ∀ q ∈ writeSlots want write out reqs, q.req.blendStyle = none := by
  induction reqs generalizing out with
  | nil => exact fun q hq => by cases hq
  | cons r reqs ih =>
    intro q hq
    rw [writeSlots] at hq
    rcases List.mem_cons.mp hq with rfl | hq
    · split
      · exact hplain r List.mem_cons_self
      · rw [hwrite]
        exact hplain r List.mem_cons_self
    · exact ih (fun r' hr' => hplain r' (List.mem_cons_of_mem _ hr')) _ q hq

theorem RowsInv.allocForExtend (h : RowsInv total s) (mem : KernelMemory) {s' : KvState}
    (hstep : s.allocForExtend mem = some s') :
    (∀ r ∈ s'.reqs, r.req.blendStyle = none) ∧ ∀ r ∈ s'.reqs, OnPath r := by
  rw [allocForExtend_eq] at hstep
  obtain ⟨out, _, rfl⟩ := Option.map_eq_some_iff.mp hstep
  have hplain : ∀ q ∈ writeSlots KvState.extendLen KvState.writeCacheIndices out s.reqs, q.req.blendStyle = none :=
    plain_granted _ KvState.writeCacheIndices (fun _ _ => rfl) s.reqs h.plain out
  exact ⟨hplain, onPath_granted h.kv h.rows (extend_asks h.kv) out⟩

theorem RowsInv.allocForDecode (h : RowsInv total s) (mem : KernelMemory) (rids : List Nat) {s' : KvState}
    (hstep : s.allocForDecode mem rids = some s') :
    (∀ r ∈ s'.reqs, r.req.blendStyle = none) ∧ ∀ r ∈ s'.reqs, OnPath r := by
  rw [allocForDecode_eq] at hstep
  obtain ⟨out, _, rfl⟩ := Option.map_eq_some_iff.mp hstep
  have hplain : ∀ q ∈ writeSlots (KvState.decodeLen rids) KvState.writeDecode out s.reqs, q.req.blendStyle = none :=
    plain_granted _ KvState.writeDecode (fun _ _ => rfl) s.reqs h.plain out
  exact ⟨hplain, onPath_granted h.kv h.rows (decode_asks h.kv rids) out⟩

theorem RowsInv.unfinished (h : RowsInv total s) (now later : Int)
    (hapart : ∀ r, s.get? rid = some r → EndsApart s.cache now r.req) {s' : KvState}
    (hstep : s.unfinished rid now later = some s') :
    (∀ r ∈ s'.reqs, r.req.blendStyle = none) ∧ ∀ r ∈ s'.reqs, OnPath r := by
  unfold KvState.unfinished at hstep
  split at hstep
  next => cases hstep
  next r hget =>
    split at hstep
    next => cases hstep
    next hready =>
      have hrun : r.allocated = true := by simpa using fun halloc => hready (.inl halloc)
      have hmem := mem_of_get hget
      have hplain := h.plain r hmem
      have hr := h.kv.each r hmem
      have hradix : RadixInv (r.req.lastNode :: (s.remove rid).reqs.map (·.req.lastNode)) s.cache :=
        (h.kv.focus hget).radix
      have hcont := cacheUnfinishedReq_continued hradix h.kv.ready h.kv.nodes hr hrun hplain
        (h.kv.private_nodup hmem) now later
      have hrow := unfinished_onPath hradix hr (h.rows r hmem) hrun now later (hapart r hget)
      have hlen : (unfinishedMatch s.cache now later r.req).1.deviceIndices.length = computedPages s.cache r :=
        unfinishedMatch_length hradix now later (hr.filled hrun)
      have hput : OnPath { r with req := (s.cache.cacheUnfinishedReq now later r.req).1 } := by
        have hslots : InFlight.slots { r with req := (s.cache.cacheUnfinishedReq now later r.req).1 } =
            (s.cache.cacheUnfinishedReq now later r.req).1.row := slots_of_allocated hrun
        rw [OnPath, hslots, hcont.matched]
        rw [cacheUnfinishedReq_plain now later hplain]
        refine hrow.trans ?_
        dsimp only
        split
        · rw [List.take_left' hlen]
        · exact (List.take_of_length_le hlen.le).symm
      cases hstep
      refine ⟨fun q hq => ?_, fun q hq => ?_⟩
      · rcases mem_put hq with rfl | hq
        · exact hcont.plain
        · exact h.plain q hq
      · rcases mem_put hq with rfl | hq
        · exact hput
        · exact h.rows q hq

theorem RowsInv.step {op : KvOp} {s' : KvState} (h : RowsInv total s) (hsafe : RowSafe s op)
    (hstep : kvMachine.step op s = some s') : RowsInv total s' := by
  have hkv := kvMachine_step h.kv (h.blendApart hsafe) hstep
  suffices hrows : (∀ r ∈ s'.reqs, r.req.blendStyle = none) ∧ ∀ r ∈ s'.reqs, OnPath r from
    ⟨hkv, hrows.1, hrows.2⟩
  cases op with
  | admitReq rid originInputIds outputIds extraKey blendStyle maxPrefixLen extendLen now =>
    simp only [kvMachine, KvState.admitReq] at hstep
    split at hstep
    next => cases hstep
    next =>
      cases hstep
      refine ⟨fun q hq => ?_, fun q hq => ?_⟩
      · rcases List.mem_cons.mp hq with rfl | hq
        · exact hsafe
        · exact h.plain q hq
      · rcases List.mem_cons.mp hq with rfl | hq
        · rfl
        · exact h.rows q hq
  | allocForExtend mem => exact h.allocForExtend mem hstep
  | output rid token =>
    simp only [kvMachine, KvState.output] at hstep
    split at hstep
    next => cases hstep
    next r hget =>
      split at hstep
      next => cases hstep
      next =>
        cases hstep
        refine ⟨fun q hq => ?_, fun q hq => ?_⟩
        · rcases mem_put hq with rfl | hq
          · exact h.plain r (mem_of_get hget)
          · exact h.plain q hq
        · rcases mem_put hq with rfl | hq
          · exact h.rows r (mem_of_get hget)
          · exact h.rows q hq
  | allocForDecode mem rids => exact h.allocForDecode mem rids hstep
  | unfinished rid now later => exact h.unfinished now later hsafe hstep
  | nextChunk rid extendLen now later =>
    simp only [kvMachine, KvState.nextChunk] at hstep
    split at hstep
    next => cases hstep
    next r hget =>
      split at hstep
      next => cases hstep
      next =>
        cases hstep
        refine ⟨fun q hq => ?_, fun q hq => ?_⟩
        · rcases mem_put hq with rfl | hq
          · show (s.cache.cacheUnfinishedReq now later r.req).1.blendStyle = none
            rw [cacheUnfinishedReq_plain now later (h.plain r (mem_of_get hget))]
            exact h.plain r (mem_of_get hget)
          · exact h.plain q hq
        · rcases mem_put hq with rfl | hq
          · rfl
          · exact h.rows q hq
  | finish rid now isInsert =>
    simp only [kvMachine, KvState.finish] at hstep
    split at hstep
    next => cases hstep
    next r hget =>
      split at hstep
      next => cases hstep
      next =>
        cases hstep
        exact ⟨fun q hq => h.plain q (List.mem_of_mem_filter hq), fun q hq => h.rows q (List.mem_of_mem_filter hq)⟩
  | evict numTokens =>
    cases hstep
    exact ⟨h.plain, h.rows⟩
  | matchPrefix now key =>
    cases hstep
    exact ⟨h.plain, h.rows⟩

end Rows

/-! ## Runs -/

/-- Entries of the row name the slots of the path the request holds or its own, and none of them is
in a page that is free or another request's. -/
structure RowIntact (s : KvState) (r : InFlight) : Prop where
  path : r.req.lastMatchedPrefixLen = 0 ∨ PathTo s.cache.children r.req.lastNode r.req.extraKey
    (r.req.fillIds.take r.req.lastMatchedPrefixLen) (r.slots.take r.req.lastMatchedPrefixLen)
  own : ∀ x ∈ r.slots.drop r.req.lastMatchedPrefixLen,
    x / (s.cache.pageSize : Int) ∈ privatePages s.cache.pageSize r
  live : ∀ x ∈ r.slots, x / (s.cache.pageSize : Int) ∉ s.pool.freeSet
  apart : ∀ q ∈ s.reqs, q.rid ≠ r.rid → ∀ x ∈ r.slots,
    x / (s.cache.pageSize : Int) ∉ privatePages s.cache.pageSize q

theorem RowsInv.intact {total : Nat} {s : KvState} (h : RowsInv total s) {r : InFlight} (hmem : r ∈ s.reqs) :
    RowIntact s r := by
  have hr := h.kv.each r hmem
  have hpath : r.req.lastMatchedPrefixLen = 0 ∨ PathTo s.cache.children r.req.lastNode r.req.extraKey
      (r.req.fillIds.take r.req.lastMatchedPrefixLen) (r.slots.take r.req.lastMatchedPrefixLen) := by
    rw [h.rows r hmem]
    exact hr.path.imp And.left id
  have hown : ∀ x ∈ r.slots.drop r.req.lastMatchedPrefixLen,
      x / (s.cache.pageSize : Int) ∈ privatePages s.cache.pageSize r :=
    fun x hx => hr.pages.page_mem s.cache.pageSize_pos hx
  -- each page has one owner
  have hnodup := h.kv.nodup
  rw [ownedPages] at hnodup
  obtain ⟨_, hrest, hfree⟩ := List.nodup_append'.mp hnodup
  obtain ⟨_, hprivate, htree⟩ := List.nodup_append'.mp hrest
  have howner : ∀ x ∈ r.slots, x / (s.cache.pageSize : Int) ∈ treePages s.cache.pageSize s.cache.children ∨
      x / (s.cache.pageSize : Int) ∈ privatePages s.cache.pageSize r := by
    intro x hx
    rw [← List.take_append_drop r.req.lastMatchedPrefixLen r.slots] at hx
    rcases List.mem_append.mp hx with hx | hx
    · rcases hpath with hzero | hnode
      · rw [hzero, List.take_zero] at hx
        cases hx
      · exact .inl (hnode.page_mem s.cache.pageSize_pos h.kv.nodes hx)
    · exact .inr (hown x hx)
  have hof : ∀ {q : InFlight} {g : Int}, q ∈ s.reqs → g ∈ privatePages s.cache.pageSize q →
      g ∈ s.reqs.flatMap (privatePages s.cache.pageSize) :=
    fun hq hg => List.mem_flatMap.mpr ⟨_, hq, hg⟩
  refine ⟨hpath, hown, fun x hx hmemFree => ?_, fun q hq hne x hx hmemOther => ?_⟩
  · rcases howner x hx with htreePage | hprivatePage
    · exact hfree hmemFree (List.mem_append_left _ htreePage)
    · exact hfree hmemFree (List.mem_append_right _ (hof hmem hprivatePage))
  · rcases howner x hx with htreePage | hprivatePage
    · exact htree htreePage (hof hq hmemOther)
    · have : Std.Symm (Function.onFun List.Disjoint (privatePages s.cache.pageSize)) :=
        ⟨fun _ _ hab => List.Disjoint.symm hab⟩
      have hapart := (List.nodup_flatMap.mp hprivate).2.forall hq hmem fun heq => hne (congrArg InFlight.rid heq)
      exact hapart hmemOther hprivatePage

theorem rowsInv_of_reach {size pageSize : Nat} {hpage : 0 < pageSize} {needSort : Bool}
    {policy : EvictionPolicy} {now : Int} {s : KvState}
    (h : kvMachine.Reach RowSafe (· = KvState.start size pageSize hpage needSort policy now) s) :
    RowsInv (size / pageSize) s :=
  h.invariant (fun s hs => by
      rw [hs]
      exact ⟨kvInv_start size pageSize hpage needSort policy now, fun r hr => (by cases hr),
        fun r hr => (by cases hr)⟩)
    fun _ _ _ hs hsafe hstep => hs.step hsafe hstep

theorem rows_intact {size pageSize : Nat} {hpage : 0 < pageSize} {needSort : Bool}
    {policy : EvictionPolicy} {now : Int} {s : KvState}
    (h : kvMachine.Reach RowSafe (· = KvState.start size pageSize hpage needSort policy now) s) :
    ∀ r ∈ s.reqs, RowIntact s r :=
  fun _ hr => (rowsInv_of_reach h).intact hr

theorem rowSafe_unfinished (s : KvState) (rid : Nat) (now later : Int) :
    (s.get? rid).all (fun r => decide (s.cache.pageSize ∣ r.req.prefixIndices.length ∨
      (s.cache.matchPrefix now (unfinishedKey s.cache.pageSize r.req)).1.deviceIndices.length ≤
        r.req.prefixIndices.length)) = true ↔ RowSafe s (.unfinished rid now later) := by
  rw [RowSafe, Option.all_eq_true]
  simp [EndsApart]

instance (s : KvState) : ∀ op : KvOp, Decidable (RowSafe s op)
  | .admitReq _ _ _ _ blendStyle _ _ _ => inferInstanceAs (Decidable (blendStyle = none))
  | .unfinished rid now later => decidable_of_iff _ (rowSafe_unfinished s rid now later)
  | .allocForExtend _ | .output _ _ | .allocForDecode _ _ | .nextChunk _ _ _ _ | .finish _ _ _ | .evict _
  | .matchPrefix _ _ => .isTrue trivial

/-- Two requests with one prompt; the second is computed in chunks that end in a page. -/
def chunkThenWhole (second : List Nat) : List KvOp :=
  [.admitReq 1 [1, 2, 3, 4, 9] [] none none 9 5 0, .admitReq 2 second [] none none 9 3 1, .allocForExtend zeroMemory,
    .output 1 7, .unfinished 1 10 20, .nextChunk 2 1 30 40, .allocForExtend zeroMemory, .output 2 8,
    .unfinished 2 50 60]

theorem otherTail_runs : (kvMachine.guardedRun RowSafe (chunkThenWhole [1, 2, 5, 4])
    (KvState.start 16 2 (by decide) false .lru 0)).isSome = true := by decide +kernel

theorem rows_intact_otherTail : ∃ s : KvState, kvMachine.Reach RowSafe
    (· = KvState.start 16 2 (by decide) false .lru 0) s ∧ ∀ r ∈ s.reqs, RowIntact s r :=
  ⟨_, Machine.reach_guardedRun otherTail_runs, rows_intact (Machine.reach_guardedRun otherTail_runs)⟩

instance (s : KvState) : ∀ op : KvOp, Decidable (PlainOnly s op)
  | .admitReq _ _ _ _ blendStyle _ _ _ => inferInstanceAs (Decidable (blendStyle = none))
  | .allocForExtend _ | .output _ _ | .allocForDecode _ _ | .unfinished _ _ _ | .nextChunk _ _ _ _
  | .finish _ _ _ | .evict _ | .matchPrefix _ _ => .isTrue trivial

theorem sameTail_runs : (kvMachine.guardedRun PlainOnly (chunkThenWhole [1, 2, 3, 4])
    (KvState.start 16 2 (by decide) false .lru 0)).isSome = true := by decide +kernel

/-- The second request's row keeps a slot of the page that was freed as a duplicate. -/
theorem row_names_freed_page : ∃ s : KvState, kvMachine.Reach PlainOnly
    (· = KvState.start 16 2 (by decide) false .lru 0) s ∧ ¬ ∀ r ∈ s.reqs, RowIntact s r := by
  refine ⟨_, Machine.reach_guardedRun sameTail_runs, fun h => ?_⟩
  have hlive : ∀ r ∈ ((kvMachine.guardedRun PlainOnly (chunkThenWhole [1, 2, 3, 4])
      (KvState.start 16 2 (by decide) false .lru 0)).get sameTail_runs).reqs, ∀ x ∈ r.slots,
      x / 2 ∉ ((kvMachine.guardedRun PlainOnly (chunkThenWhole [1, 2, 3, 4])
        (KvState.start 16 2 (by decide) false .lru 0)).get sameTail_runs).pool.freeSet :=
    fun r hr => (h r hr).live
  exact absurd hlive (by decide +kernel)

end QCFuse.Guarantees
