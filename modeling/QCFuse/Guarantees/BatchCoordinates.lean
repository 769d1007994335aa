import QCFuse.Guarantees.BlendHomogeneity

/-!
# Chunk coordinates of a request and its rows in the batch

The chunk list covers the prompt; the rows are what is left of `fill_ids` behind the cached
prefix, after the chunk budget.
-/

set_option autoImplicit false

namespace QCFuse.Guarantees

open QCFuse.Library QCFuse.Source

/-- A blend request whose locations start at 0, never decrease and end with the prompt. -/
def WellLocated (r : Req) : Prop :=
  ∃ blend locs, r.blend = some blend ∧ blend.blendLocList = some locs ∧
    locs.Pairwise (· ≤ ·) ∧ locs.getLast? = some (r.originInputIds.length : Int)

/-- The rows of the requests before request `i`. -/
def rowsBefore (batch : List Req) (i : Nat) : Int := extendNumTokens (batch.take i)

/-- Each request's rows are the tokens its chunks describe: there is no cached prefix, the last
location is the number of its rows, and its chunks lie on them. -/
structure RowsMatch (batch : List Req) (p : PreparedBlend) : Prop where
  rows : ∀ (i : Nat) (r : Req) (locs : List Int), batch[i]? = some r →
    p.forwardBlendLocs[i]? = some locs →
      r.prefixIndices = [] ∧ locs.getLast? = some r.extendInputLen
  total : p.info.chunkLocList.getLast? = some (extendNumTokens batch)
  inside : ∀ (i k : Nat) (r : Req) (locs : List Int), batch[i]? = some r →
    p.forwardBlendLocs[i]? = some locs → k < locs.length →
      ∃ row, pyIndex p.info.chunkLocList
          (start (fun locs => (diff locs).length) p.forwardBlendLocs i + k : Nat) = .ok row ∧
        rowsBefore batch i ≤ row ∧ row ≤ rowsBefore batch i + r.inputIds.length

/-- The request extends the batch by exactly its prompt: no prefix was found in the cache, it is
not cut to a chunk, and no output tokens follow the prompt. -/
structure WholePrompt (r : Req) : Prop where
  noPrefix : r.prefixIndices = []
  fill : r.fillIds = r.originInputIds
  len : 0 ≤ r.extendInputLen

/-! ## Admission -/

/-- What every way into the batch leaves. -/
structure Admitted (r : Req) : Prop where
  fill : r.fillIds <+: r.originInputIds ++ r.outputIds
  len : r.prefixIndices = [] → 0 ≤ r.extendInputLen → (r.fillIds.length : Int) = r.extendInputLen

theorem admitted_init (tree : Option TreeCache) (r : Req) : Admitted (initNextRoundInput tree r) where
  fill := List.prefix_refl _
  len hcached _ := by
    simp only [initNextRoundInput] at hcached ⊢
    rw [hcached, List.length_nil]
    omega

theorem pyTake_initial {α : Type} (xs : List α) (stop : Int) : pyTake xs stop <+: xs :=
  List.take_prefix _ _

/-- A request cut to a part of what it was to extend. -/
theorem Admitted.cut {r : Req} (h : Admitted r) {extendInputLen stop : Int}
    (hle : extendInputLen ≤ r.extendInputLen) (hstop : r.prefixIndices = [] → stop = extendInputLen) :
    Admitted { r with extendInputLen := extendInputLen, fillIds := pyTake r.fillIds stop } where
  fill := (pyTake_initial _ _).trans h.fill
  len hcached hnonneg := by
    simp only at hcached hnonneg
    have hlen := h.len hcached (by omega)
    rw [pyTake, hstop hcached, if_neg (by omega), List.length_take]
    show ((min extendInputLen.toNat r.fillIds.length : Nat) : Int) = extendInputLen
    omega

theorem addChunkedReq_admitted {adder adder' : PrefillAdder} {r : Req} {chunked : Option Req}
    (h : adder.addChunkedReq r = .ok (adder', chunked)) (hr : Admitted r)
    (hall : ∀ q ∈ adder.canRunList, Admitted q) : ∀ q ∈ adder'.canRunList, Admitted q := by
  unfold PrefillAdder.addChunkedReq at h
  split at h
  next => cases h
  next =>
    cases h
    intro q hq
    rcases List.mem_append.mp hq with hq | hq
    · exact hall q hq
    · rw [List.mem_singleton.mp hq]
      refine hr.cut (min_le_left _ _) fun hcached => ?_
      rw [hcached, List.length_nil]
      omega

theorem ceilPagedTokens_le {adder : PrefillAdder} {tokens pages : Int} (hpage : 0 < adder.pageSize)
    (h : pages * adder.pageSize < adder.ceilPagedTokens tokens) : pages * adder.pageSize < tokens := by
  unfold PrefillAdder.ceilPagedTokens at h
  by_contra hle
  have hpage' : (0 : Int) < adder.pageSize := by exact_mod_cast hpage
  have hdiv : -pages ≤ (-tokens) / (adder.pageSize : Int) := by
    rw [Int.le_ediv_iff_mul_le hpage']
    linarith
  nlinarith

theorem truncLen_lt {adder : PrefillAdder} {tokens remChunkTokens truncLen : Int}
    (hpage : 0 < adder.pageSize) (hrem : remChunkTokens < adder.ceilPagedTokens tokens)
    (h : adder.truncLen remChunkTokens = some truncLen) : truncLen < tokens := by
  have hfloor : remChunkTokens / (adder.pageSize : Int) * adder.pageSize < tokens :=
    ceilPagedTokens_le hpage (lt_of_le_of_lt (Int.ediv_mul_le _ (by omega)) hrem)
  simp only [PrefillAdder.truncLen] at h
  split at h
  next => cases h
  next =>
    split at h
    next =>
      cases h
      exact hfloor
    next align _ =>
      split at h
      next => cases h
      next =>
        cases h
        refine lt_of_le_of_lt ?_ hfloor
        by_cases halign : align = 0
        · subst halign
          simp only [zero_mul]
          omega
        · rw [mul_comm]
          exact Int.ediv_mul_le _ halign

theorem addOneReq_admitted (tree : TreeCache) {adder : PrefillAdder} {r : Req}
    (hpage : 0 < adder.pageSize) (hr : Admitted r) (hall : ∀ q ∈ adder.canRunList, Admitted q) :
    ∀ q ∈ (adder.addOneReq tree r).1.canRunList, Admitted q := by
  have hadd : ∀ {r' : Req} {list : List Req}, Admitted r' → list = adder.canRunList ++ [r'] →
      ∀ q ∈ list, Admitted q := by
    rintro r' _ hr' rfl q hq
    rcases List.mem_append.mp hq with hq | hq
    · exact hall q hq
    · rw [List.mem_singleton.mp hq]
      exact hr'
  unfold PrefillAdder.addOneReq
  split
  next =>
    simp only [PrefillAdder.addOneReqIgnoreEos]
    split
    next => exact hall
    next =>
      split
      next => exact hall
      next =>
        split
        next => exact hadd hr rfl
        next truncLen _ =>
          split
          next => exact hadd hr rfl
          next hlt =>
            split
            next => exact hall
            next => exact hadd (hr.cut (le_of_lt (not_le.mp hlt)) fun _ => rfl) rfl
  next =>
    simp only
    split
    next => exact hall
    next =>
      split
      next => exact hall
      next =>
        split
        next => exact hall
        next =>
          split
          next => exact hadd hr rfl
          next remChunkTokens _ =>
            split
            next => exact hadd hr rfl
            next hlt =>
              split
              next => exact hall
              next truncLen htrunc =>
                refine hadd (hr.cut (truncLen_lt hpage (not_le.mp hlt) htrunc).le fun hcached => ?_) rfl
                rw [hcached, List.length_nil]
                omega

theorem addOneReq_pageSize (tree : TreeCache) (adder : PrefillAdder) (r : Req) :
    (adder.addOneReq tree r).1.pageSize = adder.pageSize := by
  unfold PrefillAdder.addOneReq
  split
  next =>
    simp only [PrefillAdder.addOneReqIgnoreEos]
    split_ifs <;> try rfl
    split
    next => rfl
    next => split_ifs <;> rfl
  next =>
    simp only
    split_ifs <;> try rfl
    split
    next => rfl
    next =>
      split_ifs
      next => rfl
      next => split <;> rfl

theorem admit_admitted (s : PrefillState) (queue : List Req) (batchIsFull : Bool)
    {adder : PrefillAdder} (hpage : 0 < adder.pageSize) (hall : ∀ q ∈ adder.canRunList, Admitted q) :
    ∀ q ∈ (admitQueue s queue batchIsFull adder).canRunList, Admitted q := by
  induction queue generalizing adder with
  | nil => exact hall
  | cons r queue ih =>
    have hone := addOneReq_admitted s.tree hpage (admitted_init (some s.tree) r) hall
    have hpage' := addOneReq_pageSize s.tree adder (initNextRoundInput (some s.tree) r)
    unfold admitQueue
    split
    next => exact hall
    next =>
      generalize adder.addOneReq s.tree (initNextRoundInput (some s.tree) r) = added at hone hpage'
      split
      next => exact ih (hpage' ▸ hpage) hone
      next => exact hone

theorem newPrefillBatch_admitted {s : PrefillState} (hpage : 0 < s.pageSize) {batch : List Req}
    (h : newPrefillBatch s = .ok (some batch)) : ∀ r ∈ batch, Admitted r := by
  have hstart : ∀ q ∈ s.adder.canRunList, Admitted q := by
    intro q hq
    rw [show s.adder.canRunList = [] from rfl] at hq
    cases hq
  have hpage' : 0 < s.adder.pageSize := hpage
  unfold newPrefillBatch at h
  split at h
  next =>
    split at h
    next => cases h
    next =>
      have hall := admit_admitted s s.waitingQueue s.batchIsFull hpage' hstart
      generalize admitQueue s s.waitingQueue s.batchIsFull s.adder = adder at h hall
      simp only at h
      split at h
      next => cases h
      next =>
        cases h
        exact hall
  next chunkedReq _ =>
    obtain ⟨⟨adder, chunked⟩, hadder, h⟩ := bind_ok h
    have hchunked := addChunkedReq_admitted hadder (admitted_init none chunkedReq) hstart
    have hbatch : (admitQueue s s.waitingQueue s.batchIsFull adder).canRunList = batch :=
      Option.some.inj (Except.ok.inj h)
    rw [← hbatch]
    refine admit_admitted s s.waitingQueue s.batchIsFull ?_ hchunked
    unfold PrefillAdder.addChunkedReq at hadder
    split at hadder
    next => cases hadder
    next =>
      cases hadder
      exact hpage

/-! ## Locations -/

/-- Locations from 0 up to `len` that never decrease. -/
structure Located (locs : List Int) (len : Int) : Prop where
  first : locs.head? = some 0
  nonneg : ∀ chunk ∈ diff locs, 0 ≤ chunk
  last : locs.getLast? = some len

theorem diff_cons_cons (a b : Int) (locs : List Int) : diff (a :: b :: locs) = (b - a) :: diff (b :: locs) :=
  rfl

theorem diff_cumsumFrom (total : Int) (lens : List Int) : diff (total :: cumsumFrom total lens) = lens := by
  induction lens generalizing total with
  | nil => rfl
  | cons len lens ih =>
    rw [cumsumFrom, diff_cons_cons, ih]
    congr 1
    omega

theorem sum_take_diff (first : Int) (locs : List Int) {k : Nat} (h : k ≤ locs.length) :
    ((diff (first :: locs)).take k).sum = (first :: locs).getD k 0 - first := by
  induction k generalizing first locs with
  | zero => simp
  | succ k ih =>
    cases locs with
    | nil => cases h
    | cons next locs =>
      rw [diff_cons_cons, List.take_succ_cons, List.sum_cons, ih next locs (by simpa using h),
        List.getD_cons_succ]
      omega

/-- The chunk lengths add up to the locations. -/
theorem Located.sum_take {locs : List Int} {len : Int} (h : Located locs len) {k : Nat}
    (hk : k < locs.length) : ((diff locs).take k).sum = locs.getD k 0 := by
  cases locs with
  | nil => cases hk
  | cons first locs =>
    obtain rfl : first = 0 := Option.some.inj h.first
    rw [sum_take_diff 0 locs (by simpa using hk), sub_zero]

theorem Located.ne {locs : List Int} {len : Int} (h : Located locs len) : locs ≠ [] := by
  rintro rfl
  cases h.first

theorem Located.sum {locs : List Int} {len : Int} (h : Located locs len) : (diff locs).sum = len := by
  have hpos := List.length_pos_iff.mpr h.ne
  have hlast := h.last
  have htake := h.sum_take (k := locs.length - 1) (by omega)
  rw [List.take_of_length_le (by rw [length_diff])] at htake
  rw [List.getLast?_eq_getElem?] at hlast
  rw [htake, List.getD_eq_getElem?_getD, hlast, Option.getD_some]

theorem located_cumsumLens (lens : List Int) (h : ∀ len ∈ lens, 0 ≤ len) :
    Located (cumsumLens lens) lens.sum where
  first := rfl
  nonneg := by
    rw [cumsumLens, diff_cumsumFrom]
    exact h
  last := by
    have hlen : (cumsumLens lens).length = lens.length + 1 := by
      rw [cumsumLens, List.length_cons, length_cumsumFrom]
    have hget := getD_cumsumLens lens (le_refl lens.length)
    rw [List.take_length, List.getD_eq_getElem?_getD] at hget
    rw [List.getLast?_eq_getElem?, hlen, Nat.add_sub_cancel, ← hget,
      List.getElem?_eq_getElem (by omega), Option.getD_some]

/-- A document and its zip prompt form one chunk, so the chunks still cover the prompt. -/
theorem sum_pairs (loc : Nat → Int) (n : Nat) :
    ((List.range n).map fun i => loc (2 * i + 3) - loc (2 * i + 1)).sum =
      loc (2 * n + 1) - loc 1 := by
  induction n with
  | zero => simp
  | succ n ih =>
    rw [List.range_succ, List.map_append, List.sum_append, ih, List.map_singleton, List.sum_singleton,
      show 2 * (n + 1) + 1 = 2 * n + 3 by omega]
    omega

/-- The forward chunks of an augmented prompt of `len` tokens. -/
theorem augmentedLocs_located {loc : Nat → Int} {n : Nat} {len : Int} (hzero : loc 0 = 0)
    (hmono : ∀ i j, i ≤ j → j ≤ 2 * n + 2 → loc i ≤ loc j) (hend : loc (2 * n + 2) = len) :
    Located (augmentedLocs loc n).forwardLocs len := by
  have hsum := sum_pairs loc n
  have hlens := located_cumsumLens ((loc 1 - loc 0) ::
    ((List.range n).map fun i => loc (2 * i + 3) - loc (2 * i + 1)) ++
      [loc (2 * n + 2) - loc (2 * n + 1)]) (by
    intro chunk hchunk
    rw [List.cons_append, List.mem_cons, List.mem_append, List.mem_singleton, List.mem_map] at hchunk
    rcases hchunk with rfl | ⟨i, hi, rfl⟩ | rfl
    · have := hmono 0 1 (by omega) (by omega)
      omega
    · have := List.mem_range.mp hi
      have := hmono (2 * i + 1) (2 * i + 3) (by omega) (by omega)
      omega
    · have := hmono (2 * n + 1) (2 * n + 2) (by omega) (by omega)
      omega)
  have htotal : ((loc 1 - loc 0) :: ((List.range n).map fun i => loc (2 * i + 3) - loc (2 * i + 1)) ++
      [loc (2 * n + 2) - loc (2 * n + 1)]).sum = len := by
    rw [List.sum_append, List.sum_cons, hsum, List.sum_singleton, hzero, hend]
    omega
  rwa [htotal] at hlens

theorem forwardLocs_located {rawLocs locs : List Int} {len : Int} (h : forwardLocs rawLocs = .ok locs)
    (hfirst : rawLocs.head? = some 0) (hsorted : rawLocs.Pairwise (· ≤ ·))
    (hlast : rawLocs.getLast? = some len) : Located locs len := by
  unfold forwardLocs at h
  split at h
  next augmented haugmented =>
    cases h
    by_cases hcount : 4 ≤ numRawChunks rawLocs ∧ numRawChunks rawLocs % 2 = 0
    · obtain ⟨n, hn, hlen⟩ := length_of_numRawChunks hcount
      rw [prepareAugmentedLocs_eq hn hlen] at haugmented
      cases haugmented
      refine augmentedLocs_located ?_ (fun i j hij hj => getD_mono hsorted hij (by omega)) ?_
      · rw [List.getD_eq_getElem?_getD, ← List.head?_eq_getElem?, hfirst, Option.getD_some]
      · rw [List.getLast?_eq_getElem?, hlen] at hlast
        rw [List.getD_eq_getElem?_getD, show 2 * n + 2 = 2 * n + 3 - 1 by omega, hlast, Option.getD_some]
    · rw [prepareAugmentedLocs_none hcount] at haugmented
      cases haugmented
  next => cases h

theorem reqForward_located {offline : Bool} {r : Req} {locs : List Int} (hr : WellLocated r)
    (h : reqForward offline r = .ok locs) : Located locs r.originInputIds.length := by
  obtain ⟨blend, rawLocs, hblend, hlocs, hsorted, hlast⟩ := hr
  have hfirst := blend.located rawLocs hlocs
  obtain ⟨rawLocs', hraw, h⟩ := bind_ok h
  have hraw' : r.rawBlendLocs = .ok rawLocs := by
    rw [Req.rawBlendLocs, hblend, Option.bind_some, hlocs]
  obtain rfl : rawLocs' = rawLocs := Except.ok.inj (hraw.symm.trans hraw')
  split at h
  next => exact forwardLocs_located h hfirst hsorted hlast
  next =>
    cases h
    exact ⟨hfirst, diff_nonneg hsorted, hlast⟩

/-! ## Rows -/

/-- What is left of an admitted request is its prompt exactly if its last location says so. -/
theorem rows_iff {r : Req} {locs : List Int} (hr : Admitted r)
    (hlocs : Located locs r.originInputIds.length) :
    (r.prefixIndices = [] ∧ locs.getLast? = some r.extendInputLen) ↔ WholePrompt r := by
  constructor
  · rintro ⟨hcached, hlast⟩
    have hextend : (r.originInputIds.length : Int) = r.extendInputLen :=
      Option.some.inj (hlocs.last.symm.trans hlast)
    have hlen := hr.len hcached (by omega)
    refine ⟨hcached, ?_, by omega⟩
    rw [List.prefix_iff_eq_take.mp hr.fill, show r.fillIds.length = r.originInputIds.length by omega,
      List.take_left]
  · rintro ⟨hcached, hfill, hnonneg⟩
    refine ⟨hcached, ?_⟩
    rw [hlocs.last, ← hr.len hcached hnonneg, hfill]

theorem WholePrompt.inputIds {r : Req} (h : WholePrompt r) : r.inputIds = r.originInputIds := by
  rw [Req.inputIds, h.noPrefix, h.fill]
  rfl

theorem Located.take_bounds {locs : List Int} {len : Int} (h : Located locs len) (k : Nat) :
    0 ≤ ((diff locs).take k).sum ∧ ((diff locs).take k).sum ≤ len := by
  have hfront : 0 ≤ ((diff locs).take k).sum :=
    List.sum_nonneg fun chunk hchunk => h.nonneg chunk (List.mem_of_mem_take hchunk)
  have hback : 0 ≤ ((diff locs).drop k).sum :=
    List.sum_nonneg fun chunk hchunk => h.nonneg chunk (List.mem_of_mem_drop hchunk)
  have hsum : ((diff locs).take k ++ (diff locs).drop k).sum = _ := List.sum_append
  rw [List.take_append_drop, h.sum] at hsum
  omega

/-- Where every request brings its whole prompt, the chunks of a request start with its rows. -/
theorem tokensBefore_eq_rowsBefore {offline : Bool} {batch : List Req} {forward : List (List Int)}
    (hforward : batch.mapM (reqForward offline) = .ok forward) (hlocated : ∀ r ∈ batch, WellLocated r)
    (hwhole : ∀ r ∈ batch, WholePrompt r) (i : Nat) : tokensBefore forward i = rowsBefore batch i := by
  rw [tokensBefore, rowsBefore, extendNumTokens, List.map_take, List.map_take]
  congr 2
  obtain ⟨hlen, hget⟩ := mapM_ok hforward
  apply List.ext_getElem
  · rw [List.length_map, List.length_map, hlen]
  · intro j hj hj'
    rw [List.length_map] at hj hj'
    have hmem := List.getElem_mem hj'
    rw [List.getElem_map, List.getElem_map, (reqForward_located (hlocated _ hmem) (hget j hj' hj)).sum,
      (hwhole _ hmem).inputIds]

/-- An idle scheduler with one blend request waiting. -/
def oneBlend (matchPrefix : List Nat → Option String → List Nat) : PrefillState :=
  { plainFirst with
    tree := ⟨false, matchPrefix, fun _ => 0⟩
    waitingQueue := [kvComputeReq] }

theorem oneBlend_batch : newPrefillBatch (oneBlend fun _ _ => []) =
    .ok (some [initNextRoundInput none kvComputeReq]) := by
  decide +kernel

theorem kvComputeReq_wellLocated (tree : Option TreeCache) :
    WellLocated (initNextRoundInput tree kvComputeReq) :=
  ⟨kvComputePart, [0, 2, 3, 6], rfl, rfl, by decide, rfl⟩

/-- What `prepare_for_extend` makes of that request, whatever its rows are. -/
theorem kvComputeReq_prepared (tree : Option TreeCache) : ∃ p,
    prepareBlend 4 [initNextRoundInput tree kvComputeReq] = .ok (some p) ∧
      p.forwardBlendLocs = [[0, 2, 3, 6]] :=
  ⟨_, rfl, rfl⟩

/-- A tree with the first two tokens of the prompt. -/
def cachedTwo (tokens : List Nat) (_ : Option String) : List Nat :=
  if tokens.take 2 = [1, 2] then [10, 11] else []

end QCFuse.Guarantees
