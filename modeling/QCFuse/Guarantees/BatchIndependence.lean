import QCFuse.Guarantees.PromptLayout
import QCFuse.Source.BatchBlendInfo

/-!
# Requests of one batch against the same requests alone

`prepare_for_extend` passes running chunk totals on, which `_init_triton_blend_metadata` takes
as such while `_compute_request_boundaries` adds them up once more.
-/

set_option autoImplicit false

namespace QCFuse.Guarantees

open QCFuse.Library QCFuse.Source

/-- `blend_loc_list` never decreases and has at least one chunk. -/
structure WellFormedLocs (loc : List Int) : Prop where
  chunk : 2 ≤ loc.length
  sorted : loc.Pairwise (· ≤ ·)

theorem WellFormedLocs.ne {loc : List Int} (h : WellFormedLocs loc) : loc ≠ [] :=
  List.length_pos_iff.mp (Nat.lt_of_lt_of_le Nat.two_pos h.chunk)

/-- The tokens of the earlier requests of a batch. -/
def tokensBefore (blendLocs : List (List Int)) (i : Nat) : Int :=
  ((blendLocs.take i).map fun loc => (diff loc).sum).sum

theorem length_diff (loc : List Int) : (diff loc).length = loc.length - 1 := by
  simp only [diff, chunkAbsRanges, List.length_map, List.length_zip, List.length_tail]
  omega

theorem diff_nonneg {loc : List Int} (h : loc.Pairwise (· ≤ ·)) : ∀ len ∈ diff loc, 0 ≤ len := by
  induction loc with
  | nil => exact nofun
  | cons a loc ih =>
    cases loc with
    | nil => exact nofun
    | cons b loc =>
      intro len hlen
      have hcons : diff (a :: b :: loc) = (b - a) :: diff (b :: loc) := rfl
      rw [hcons] at hlen
      rcases List.mem_cons.mp hlen with rfl | hlen
      · have := List.rel_of_pairwise_cons h (List.mem_cons_self (a := b))
        omega
      · exact ih h.of_cons len hlen

/-! ## Token selection -/

/-- The region of request `i` of a batch. -/
def regionOf (blendLocs : List (List Int)) (i : Nat) : Py ReqRegion :=
  getRequestRegion (prepareBlendLocs blendLocs).chunkLocList
    (computeRequestBoundaries (prepareBlendLocs blendLocs)).2 i

/-- The region `base` tokens further on. -/
def shiftRegion (base : Int) (r : ReqRegion) : ReqRegion :=
  ⟨r.reqStart + base, r.questStart + base, r.questEnd + base, r.ragStart + base, r.ragLen⟩

/-- `select` with `ratio <= 0`. -/
def selectQueryOnly (blendLocs : List (List Int)) : Py (List Int × List Nat) :=
  computeQueryOnly (prepareBlendLocs blendLocs)

/-- Each region is the request's own, shifted by the earlier requests, and the selection of the
batch is the shifted concatenation of the requests' own. -/
def SelectsAsAlone (blendLocs : List (List Int)) : Prop :=
  (∀ i (h : i < blendLocs.length), ∃ own, regionOf [blendLocs[i]] 0 = .ok own ∧
    regionOf blendLocs i = .ok (shiftRegion (tokensBefore blendLocs i) own)) ∧
  ∃ alone, blendLocs.mapM (fun loc => selectQueryOnly [loc]) = .ok alone ∧
    selectQueryOnly blendLocs =
      .ok ((alone.zipIdx.map fun p => p.1.1.map (· + tokensBefore blendLocs p.2)).flatten,
        (alone.map Prod.snd).flatten)

theorem le_sum_cumsumFrom {lens : List Int} (hne : lens ≠ []) (hlens : ∀ len ∈ lens, 0 ≤ len)
    (total : Int) (htotal : 0 ≤ total) : total + lens.sum ≤ (cumsumFrom total lens).sum := by
  induction lens generalizing total with
  | nil => exact absurd rfl hne
  | cons len lens ih =>
    have hlen := hlens len List.mem_cons_self
    rw [cumsumFrom, List.sum_cons, List.sum_cons]
    by_cases hnil : lens = []
    · subst hnil
      simp [cumsumFrom]
    · have := ih hnil (fun x hx => hlens x (List.mem_cons_of_mem _ hx)) (total + len) (by omega)
      omega

/-- Running totals of two or more counts add up to more than the last of them. -/
theorem lt_sum_cumsumFrom {lens : List Int} (htwo : 2 ≤ lens.length) (hlens : ∀ len ∈ lens, 1 ≤ len) :
    lens.sum < (cumsumFrom 0 lens).sum := by
  cases lens with
  | nil => cases htwo
  | cons len lens =>
    have hne : lens ≠ [] := by
      rintro rfl
      simp at htwo
    have hlen := hlens len List.mem_cons_self
    have htail := le_sum_cumsumFrom hne (fun x hx => by
      have := hlens x (List.mem_cons_of_mem _ hx)
      omega) (0 + len) (by omega)
    rw [cumsumFrom, List.sum_cons, List.sum_cons]
    omega

theorem length_chunkLocList (blendLocs : List (List Int)) :
    (prepareBlendLocs blendLocs).chunkLocList.length =
      (blendLocs.map fun loc => loc.length - 1).sum + 1 := by
  rw [prepareBlendLocs, cumsumLens, List.length_cons, length_cumsumFrom, List.length_flatMap]
  congr 2
  exact List.map_congr_left fun loc _ => length_diff loc

/-- The chunk count of a batch, as its running totals end. -/
theorem sum_chunkCounts {blendLocs : List (List Int)} (h : ∀ loc ∈ blendLocs, loc ≠ []) :
    ((blendLocs.map fun loc => (loc.length : Int) - 1).sum) =
      ((blendLocs.map fun loc => loc.length - 1).sum : Nat) := by
  induction blendLocs with
  | nil => rfl
  | cons loc locs ih =>
    have hloc := List.length_pos_iff.mpr (h loc List.mem_cons_self)
    rw [List.map_cons, List.sum_cons, List.map_cons, List.sum_cons,
      ih fun x hx => h x (List.mem_cons_of_mem _ hx)]
    omega

/-- With two requests or more, the last one's boundary lies past the chunk locations. -/
theorem regionOf_last_error {blendLocs : List (List Int)} (h : ∀ loc ∈ blendLocs, WellFormedLocs loc)
    (htwo : 2 ≤ blendLocs.length) (r : ReqRegion) :
    regionOf blendLocs (blendLocs.length - 1) ≠ .ok r := by
  intro hok
  obtain ⟨prefixIdx, -, hok⟩ := bind_ok hok
  obtain ⟨reqEnd, hend, hok⟩ := bind_ok hok
  obtain ⟨reqStart, -, hok⟩ := bind_ok hok
  obtain ⟨questStart, -, hok⟩ := bind_ok hok
  obtain ⟨questEnd, hquest, -⟩ := bind_ok hok
  have hcounts : ∀ n ∈ blendLocs.map (fun loc => (loc.length : Int) - 1), 1 ≤ n := by
    intro n hn
    obtain ⟨loc, hloc, rfl⟩ := List.mem_map.mp hn
    have := (h loc hloc).chunk
    omega
  have hlt := lt_sum_cumsumFrom (by rwa [List.length_map]) hcounts
  have hreqLen : (prepareBlendLocs blendLocs).reqLenList.length = blendLocs.length := by
    rw [prepareBlendLocs, length_cumsumFrom, List.length_map]
  -- the last boundary is the sum of the running totals
  have hboundary : reqEnd = (prepareBlendLocs blendLocs).reqLenList.sum := by
    rw [pyIndex_ok_iff, Nat.sub_add_cancel (by omega)] at hend
    have hget := getD_cumsumLens (prepareBlendLocs blendLocs).reqLenList (i := blendLocs.length)
      (le_of_eq hreqLen.symm)
    rw [← hreqLen, List.take_length, hreqLen] at hget
    rw [← hget, List.getD_eq_getElem?_getD]
    exact (congrArg (·.getD 0) hend).symm
  have hlen := length_chunkLocList blendLocs
  rw [sub_add_cancel, hboundary] at hquest
  obtain ⟨n, hn⟩ : ∃ n : Nat, (prepareBlendLocs blendLocs).reqLenList.sum = n := by
    refine ⟨(prepareBlendLocs blendLocs).reqLenList.sum.toNat, (Int.toNat_of_nonneg ?_).symm⟩
    have := sum_chunkCounts fun loc hloc => (h loc hloc).ne
    simp only [prepareBlendLocs]
    omega
  rw [hn, pyIndex_ok_iff] at hquest
  have hbound := (List.getElem?_eq_some_iff.mp hquest).1
  rw [hlen] at hbound
  have := sum_chunkCounts fun loc hloc => (h loc hloc).ne
  simp only [prepareBlendLocs] at hn
  omega

theorem pyIndex_cumsumLens (lens : List Int) {i : Nat} (hi : i ≤ lens.length) :
    pyIndex (cumsumLens lens) (i : Int) = .ok (lens.take i).sum := by
  have hbound : i < (cumsumLens lens).length := by
    rw [cumsumLens, List.length_cons, length_cumsumFrom]
    omega
  rw [pyIndex_ok_iff, ← getD_cumsumLens lens hi, List.getD_eq_getElem?_getD,
    List.getElem?_eq_getElem hbound, Option.getD_some]

/-- A request alone: its last chunk is the question, what lies between it and the first one
the RAG span. -/
theorem regionOf_single {loc : List Int} (h : WellFormedLocs loc) :
    ∃ r, regionOf [loc] 0 = .ok r ∧ r.questStart ≤ r.questEnd := by
  have hchunk := h.chunk
  have hlen := length_diff loc
  have hloc : (prepareBlendLocs [loc]).chunkLocList = cumsumLens (diff loc) := by
    simp [prepareBlendLocs]
  obtain ⟨n, hn⟩ : ∃ n, loc.length = n + 2 := ⟨loc.length - 2, by omega⟩
  have hstart : pyIndex (cumsumLens (diff loc)) 0 = .ok 0 :=
    pyIndex_cumsumLens (diff loc) (Nat.zero_le _)
  have hquest := pyIndex_cumsumLens (diff loc) (i := n) (by omega)
  have hend : pyIndex (cumsumLens (diff loc)) ((n : Int) + 1) = _ :=
    pyIndex_cumsumLens (diff loc) (i := n + 1) (by omega)
  have hboundaries : (computeRequestBoundaries (prepareBlendLocs [loc])).2 = [0, (n : Int) + 1] := by
    simp only [prepareBlendLocs, List.map_cons, List.map_nil, cumsumFrom, computeRequestBoundaries]
    congr 2
    omega
  have hle : ((diff loc).take n).sum ≤ ((diff loc).take (n + 1)).sum := by
    have hlt : n < (diff loc).length := by omega
    have := diff_nonneg h.sorted (diff loc)[n] (List.getElem_mem hlt)
    rw [List.take_succ_eq_append_getElem hlt, List.sum_append, List.sum_singleton]
    omega
  have hfirst : pyIndex [(0 : Int), n + 1] 0 = .ok 0 := rfl
  have hsecond : pyIndex [(0 : Int), n + 1] 1 = .ok ((n : Int) + 1) := rfl
  have hone : (n : Int) + 1 - 1 = (n : Nat) := by omega
  rw [regionOf, hboundaries, hloc]
  simp only [getRequestRegion, Nat.cast_zero, Nat.cast_one, Nat.zero_add, hfirst, hsecond, bind,
    Except.bind, hone, hquest, hend, hstart]
  split
  next hrag =>
    have hragStart := pyIndex_cumsumLens (diff loc) (i := 1) (by omega)
    rw [Nat.cast_one] at hragStart
    simp only [Int.zero_add, hragStart]
    exact ⟨_, rfl, hle⟩
  next => exact ⟨_, rfl, hle⟩

theorem selectQueryOnly_single {loc : List Int} (h : WellFormedLocs loc) :
    ∃ indices lens, selectQueryOnly [loc] = .ok (indices, lens) := by
  obtain ⟨r, hr, hle⟩ := regionOf_single h
  have hnum : (computeRequestBoundaries (prepareBlendLocs [loc])).1 = 1 := rfl
  have harange : torchArange r.questStart r.questEnd = .ok (pyRange r.questStart r.questEnd) := by
    rw [torchArange, if_neg (not_lt.mpr hle)]
  unfold regionOf at hr
  refine ⟨[pyRange r.questStart r.questEnd].flatten,
    [pyRange r.questStart r.questEnd].map List.length, ?_⟩
  simp only [selectQueryOnly, computeQueryOnly, hnum, List.range_one, List.mapM_cons, List.mapM_nil,
    hr, harange, bind, Except.bind, pure, Except.pure, buildFinalOutput]

/-- Requests are selected from as if alone exactly in a batch of one request. -/
theorem selectsAsAlone_iff (blendLocs : List (List Int)) (hne : blendLocs ≠ [])
    (h : ∀ loc ∈ blendLocs, WellFormedLocs loc) :
    SelectsAsAlone blendLocs ↔ blendLocs.length = 1 := by
  constructor
  · rintro ⟨hregions, -⟩
    have hpos := List.length_pos_iff.mpr hne
    by_contra hmany
    obtain ⟨own, -, hlast⟩ := hregions (blendLocs.length - 1) (by omega)
    exact regionOf_last_error h (by omega) _ hlast
  · intro hone
    obtain ⟨loc, rfl⟩ := List.length_eq_one_iff.mp hone
    have hloc := h loc (List.mem_singleton_self _)
    obtain ⟨r, hr, -⟩ := regionOf_single hloc
    obtain ⟨indices, lens, hselect⟩ := selectQueryOnly_single hloc
    refine ⟨fun i hi => ?_, [(indices, lens)], ?_, ?_⟩
    · obtain rfl : i = 0 := by
        rw [List.length_singleton] at hi
        omega
      refine ⟨r, hr, ?_⟩
      rw [hr]
      simp [shiftRegion, tokensBefore]
    · simp only [List.mapM_cons, List.mapM_nil, hselect, bind, Except.bind, pure, Except.pure]
    · rw [hselect]
      simp [tokensBefore]

theorem selectsAsAlone_iff_single :
    SelectsAsAlone [[0, 2, 5, 6]] ↔ [[(0 : Int), 2, 5, 6]].length = 1 := by
  refine selectsAsAlone_iff _ (List.cons_ne_nil _ _) fun loc hloc => ?_
  rw [List.mem_singleton.mp hloc]
  exact ⟨by decide, by decide⟩

/-- Two requests of two chunks each: the second one's region is out of range. -/
theorem twoRequests_not_selectsAsAlone : ¬ SelectsAsAlone [[0, 2, 3], [0, 1, 4]] := by
  rintro ⟨hregions, -⟩
  obtain ⟨own, -, hregion⟩ := hregions 1 (by decide)
  have herror : regionOf [[0, 2, 3], [0, 1, 4]] 1 = .error .indexError := rfl
  rw [herror] at hregion
  cases hregion

/-! ## Sparse attention -/

/-- The tokens of a request. -/
def tokenCount (loc : List Int) : Int := (diff loc).sum

/-- A strictly increasing selection of each request's own positions. -/
structure Selections (blendLocs sels : List (List Int)) : Prop where
  locs : ∀ loc ∈ blendLocs, WellFormedLocs loc
  paired : sels.length = blendLocs.length
  sorted : ∀ sel ∈ sels, sel.Pairwise (· < ·)
  bounded : ∀ (i : Nat) (loc sel : List Int), blendLocs[i]? = some loc → sels[i]? = some sel →
    ∀ p ∈ sel, 0 ≤ p ∧ p < tokenCount loc

/-- `blend_top_indices` of the batch. -/
def topIndices (blendLocs sels : List (List Int)) : List Int :=
  (sels.zipIdx.map fun s => s.1.map (· + tokensBefore blendLocs s.2)).flatten

/-- `blend_top_lens` of the batch. -/
def topLens (sels : List (List Int)) : List Int := sels.map fun sel => (sel.length : Int)

/-- Keys of a token at position `p` of its request, in a layer with this window. -/
def CausalKey (slidingWindowSize p k : Int) : Prop :=
  0 ≤ k ∧ k ≤ p ∧ (0 < slidingWindowSize → p - k < slidingWindowSize)

/-- Key row `k` of request `i` is row `k` of its own tokens, and each selected token attends to
the request's keys up to its own position, as with the request alone. -/
def AttendsAsAlone (blendLocs sels : List (List Int)) (blocks : Nat × Nat)
    (slidingWindowSize : Int) : Prop :=
  ∃ md, initTritonBlendMetadata (prepareBlendLocs blendLocs) (topIndices blendLocs sels)
      (topLens sels) = .ok md ∧
    ∀ (i : Nat) (loc sel : List Int), blendLocs[i]? = some loc → sels[i]? = some sel →
      md.kvStartLoc[i]? = some (tokensBefore blendLocs i) ∧ md.kvLens[i]? = some (tokenCount loc) ∧
      ∃ own, initTritonBlendMetadata (prepareBlendLocs [loc]) (topIndices [loc] [sel])
          (topLens [sel]) = .ok own ∧
        ∀ (row : Nat) (p : Int), sel[row]? = some p → ∀ k,
          (k ∈ attendedKeys md blocks.1 blocks.2 slidingWindowSize i row ↔
            CausalKey slidingWindowSize p k) ∧
          (k ∈ attendedKeys own blocks.1 blocks.2 slidingWindowSize 0 row ↔
            k ∈ attendedKeys md blocks.1 blocks.2 slidingWindowSize i row)

/-- No token stands before the request, or the token is the request's last one, no padding
follows the keys and the window reaches over them and the tokens before. -/
def SeesOwnKeys (base len : Int) (blockN : Nat) (slidingWindowSize p : Int) : Prop :=
  base = 0 ∨ p + 1 = len ∧ (blockN : Int) ∣ len ∧ (slidingWindowSize ≤ 0 ∨ base + len ≤ slidingWindowSize)

/-- The keys a query row at position `base + p` sees among `loaded` ones are those of position
`p` exactly under `SeesOwnKeys`. -/
theorem causalKeys_iff {base len p maxQPos window : Int} {blockN : Nat} (hblock : 0 < blockN)
    (hbase : 0 ≤ base) (hp : 0 ≤ p) (hlen : p < len) (hmax : base + p ≤ maxQPos) :
    (∀ k : Int, (0 ≤ k ∧ k < (((min (maxQPos + 1) len).toNat + blockN - 1) / blockN * blockN : Nat) ∧
        k ≤ base + p ∧ (0 < window → base + p - k < window)) ↔ CausalKey window p k) ↔
      SeesOwnKeys base len blockN window p := by
  set loaded := ((min (maxQPos + 1) len).toNat + blockN - 1) / blockN * blockN with hloaded
  have hcover : (min (maxQPos + 1) len).toNat ≤ loaded := by
    have := Nat.div_add_mod ((min (maxQPos + 1) len).toNat + blockN - 1) blockN
    have := Nat.mod_lt ((min (maxQPos + 1) len).toNat + blockN - 1) hblock
    rw [hloaded, Nat.mul_comm]
    omega
  unfold CausalKey SeesOwnKeys
  constructor
  · intro h
    by_cases hzero : base = 0
    · exact Or.inl hzero
    refine Or.inr ?_
    have hself := (h p).mpr ⟨hp, le_refl p, by omega⟩
    -- the next position passes the shifted causal mask
    have hlast : p + 1 = len := by
      by_contra hne
      have := ((h (p + 1)).mp ⟨by omega, by omega, by omega, by omega⟩).2.1
      omega
    have hmin : (min (maxQPos + 1) len).toNat = len.toNat := by omega
    refine ⟨hlast, ?_, ?_⟩
    · have hexact : loaded = len.toNat := by
        by_contra hne
        have := ((h len).mp ⟨by omega, by omega, by omega, by omega⟩).2.1
        omega
      have hcast : (loaded : Int) = len := by omega
      rw [← hcast]
      exact Int.natCast_dvd_natCast.mpr (Dvd.intro_left _ rfl)
    · by_contra hwindow
      rcases lt_or_ge p window with hinside | houtside
      · have := ((h 0).mpr ⟨le_refl 0, hp, by omega⟩).2.2.2
        omega
      · have := ((h (p - window + 1)).mpr ⟨by omega, by omega, by omega⟩).2.2.2
        omega
  · rintro (rfl | ⟨hlast, hdvd, hwindow⟩) k
    · constructor
      · rintro ⟨hk, -, hle, hw⟩
        exact ⟨hk, by omega, by omega⟩
      · rintro ⟨hk, hle, hw⟩
        exact ⟨hk, by omega, by omega, by omega⟩
    · have hexact : (loaded : Int) = len := by
        obtain ⟨blocks, hblocks⟩ := hdvd
        obtain ⟨n, rfl⟩ : ∃ n : Nat, blocks = n := by
          refine ⟨blocks.toNat, (Int.toNat_of_nonneg ?_).symm⟩
          by_contra hneg
          have := Int.mul_nonpos_of_nonneg_of_nonpos (Int.natCast_nonneg blockN)
            (le_of_lt (not_le.mp hneg))
          omega
        have hmin : (min (maxQPos + 1) len).toNat = blockN * n := by
          rw [min_eq_right (by omega), hblocks]
          rfl
        rw [hloaded, hmin, Nat.add_sub_assoc hblock, Nat.mul_add_div hblock,
          Nat.div_eq_of_lt (by omega), Nat.add_zero, hblocks]
        push_cast
        ring
      constructor
      · rintro ⟨hk, hload, hle, hw⟩
        exact ⟨hk, by omega, by omega⟩
      · rintro ⟨hk, hle, hw⟩
        exact ⟨hk, by omega, by omega, by omega⟩

/-- `chunk_loc_list` inside request `i`. -/
theorem pyIndex_chunkLocList_within {blendLocs : List (List Int)} {i k : Nat} {loc : List Int}
    (h : blendLocs[i]? = some loc) (hk : k ≤ (diff loc).length) :
    pyIndex (prepareBlendLocs blendLocs).chunkLocList
      (start (fun loc => (diff loc).length) blendLocs i + k : Nat) =
        .ok (tokensBefore blendLocs i + ((diff loc).take k).sum) := by
  obtain ⟨hi, rfl⟩ := List.getElem?_eq_some_iff.mp h
  have hfront : ((blendLocs.take i).flatMap diff).length =
      start (fun loc => (diff loc).length) blendLocs i := by
    rw [List.length_flatMap, start]
  have hsplit : blendLocs.flatMap diff =
      (blendLocs.take i).flatMap diff ++ (diff blendLocs[i] ++ (blendLocs.drop (i + 1)).flatMap diff) := by
    conv_lhs => rw [← List.take_append_drop i blendLocs, List.drop_eq_getElem_cons hi]
    rw [List.flatMap_append, List.flatMap_cons]
  have htake : (blendLocs.flatMap diff).take (start (fun loc => (diff loc).length) blendLocs i + k) =
      (blendLocs.take i).flatMap diff ++ (diff blendLocs[i]).take k := by
    rw [hsplit, ← hfront, List.take_length_add_append, List.take_append_of_le_length hk]
  have hle : start (fun loc => (diff loc).length) blendLocs i + k ≤ (blendLocs.flatMap diff).length := by
    rw [hsplit, List.length_append, List.length_append, hfront]
    omega
  rw [prepareBlendLocs, pyIndex_cumsumLens _ hle, htake, List.sum_append, tokensBefore,
    List.flatMap_def, List.sum_flatten, List.map_map]
  rfl

/-- `chunk_loc_list` at the chunks of the earlier requests. -/
theorem pyIndex_chunkLocList (blendLocs : List (List Int)) {i : Nat} (h : i ≤ blendLocs.length) :
    pyIndex (prepareBlendLocs blendLocs).chunkLocList
      (start (fun loc => (diff loc).length) blendLocs i : Nat) = .ok (tokensBefore blendLocs i) := by
  rcases Nat.lt_or_ge i blendLocs.length with hi | hi
  · have hwithin := pyIndex_chunkLocList_within (List.getElem?_eq_getElem hi) (k := 0) (Nat.zero_le _)
    rw [List.take_zero, List.sum_nil, Int.add_zero] at hwithin
    exact hwithin
  · obtain rfl : i = blendLocs.length := by omega
    have hlen : start (fun loc => (diff loc).length) blendLocs blendLocs.length =
        (blendLocs.flatMap diff).length := by
      rw [start_length, List.length_flatMap]
    rw [prepareBlendLocs, hlen, pyIndex_cumsumLens _ (le_refl _), List.take_length, tokensBefore,
      List.take_length, List.flatMap_def, List.sum_flatten, List.map_map]
    rfl

/-- `req_len_list` counts the chunks of the requests so far. -/
theorem getElem?_reqLenList {blendLocs : List (List Int)}
    (h : ∀ loc ∈ blendLocs, loc ≠ []) {i : Nat} (hi : i ≤ blendLocs.length) :
    (0 :: (prepareBlendLocs blendLocs).reqLenList)[i]? =
      some ((start (fun loc => (diff loc).length) blendLocs i : Nat) : Int) := by
  have hindex := pyIndex_cumsumLens (blendLocs.map fun loc => (loc.length : Int) - 1) (i := i)
    (by rwa [List.length_map])
  rw [pyIndex_ok_iff] at hindex
  rw [prepareBlendLocs]
  refine hindex.trans (congrArg some ?_)
  rw [← List.map_take, sum_chunkCounts fun loc hloc => h loc (List.mem_of_mem_take hloc), start]
  congr 2
  exact List.map_congr_left fun loc _ => (length_diff loc).symm

theorem length_reqLenList (blendLocs : List (List Int)) :
    (prepareBlendLocs blendLocs).reqLenList.length = blendLocs.length := by
  rw [prepareBlendLocs, length_cumsumFrom, List.length_map]

theorem tokensBefore_succ {blendLocs : List (List Int)} {i : Nat} {loc : List Int}
    (h : blendLocs[i]? = some loc) :
    tokensBefore blendLocs (i + 1) = tokensBefore blendLocs i + tokenCount loc := by
  rw [tokensBefore, tokensBefore, List.take_succ_eq_append_getElem (List.getElem?_eq_some_iff.mp h).1,
    (List.getElem?_eq_some_iff.mp h).2, List.map_append, List.sum_append, List.map_singleton,
    List.sum_singleton, tokenCount]

theorem tokensBefore_nonneg {blendLocs : List (List Int)}
    (h : ∀ loc ∈ blendLocs, WellFormedLocs loc) (i : Nat) : 0 ≤ tokensBefore blendLocs i := by
  apply List.sum_nonneg
  intro total htotal
  obtain ⟨loc, hloc, rfl⟩ := List.mem_map.mp htotal
  exact List.sum_nonneg (diff_nonneg (h loc (List.mem_of_mem_take hloc)).sorted)

/-- The gather `chunk_bounds[req_start_idx]`, which ends at `chunk_bounds[req_len_list]`. -/
theorem gather_ok {blendLocs : List (List Int)} (h : ∀ loc ∈ blendLocs, WellFormedLocs loc)
    (counts : List Int) (first : Nat)
    (hcounts : ∀ i n, counts[i]? = some n →
      first + i ≤ blendLocs.length ∧ (0 :: (prepareBlendLocs blendLocs).reqLenList)[first + i]? = some n) :
    ∃ rows, counts.mapM (pyIndex (prepareBlendLocs blendLocs).chunkLocList) = .ok rows ∧
      ∀ i, i < counts.length → rows[i]? = some (tokensBefore blendLocs (first + i)) := by
  have hrow : ∀ i n, counts[i]? = some n →
      pyIndex (prepareBlendLocs blendLocs).chunkLocList n = .ok (tokensBefore blendLocs (first + i)) := by
    intro i n hn
    have hget := hcounts i n hn
    rw [getElem?_reqLenList (fun loc hloc => (h loc hloc).ne) hget.1] at hget
    rw [← Option.some.inj hget.2]
    exact pyIndex_chunkLocList blendLocs hget.1
  obtain ⟨rows, hrows⟩ : ∃ rows, counts.mapM (pyIndex (prepareBlendLocs blendLocs).chunkLocList) = .ok rows :=
    mapM_exists fun n hn => by
      obtain ⟨i, hi, rfl⟩ := List.getElem_of_mem hn
      exact ⟨_, hrow i _ (List.getElem?_eq_getElem hi)⟩
  refine ⟨rows, hrows, fun i hi => ?_⟩
  have hmap := mapM_ok hrows
  have hirows : i < rows.length := by omega
  have := hmap.2 i hi hirows
  rw [hrow i _ (List.getElem?_eq_getElem hi)] at this
  rw [List.getElem?_eq_getElem hirows]
  exact congrArg some (Except.ok.inj this).symm

/-- What the kernel loads for a request: its keys' first row, their number, and for each selected
token its place in the flattened batch. -/
structure RequestRows (md : TritonBlendMetadata) (batch : Nat) (base len : Int) (sel : List Int) :
    Prop where
  kvStart : md.kvStartLoc[batch]? = some base
  kvLen : md.kvLens[batch]? = some len
  qLen : md.qLens[batch]? = some (sel.length : Int)
  qPos : ∀ (row : Nat) (p : Int), sel[row]? = some p →
    md.qPositions.getD (md.qStartLoc.getD batch 0 + row).toNat 0 = base + p

/-- Where the rows of request `i` start. -/
theorem qStartLoc_eq (sels : List (List Int)) {i : Nat} (h : i < sels.length) :
    (if 1 < (topLens sels).length then cumsumLens (topLens sels).dropLast
      else List.replicate (topLens sels).length 0).getD i 0 = (start List.length sels i : Nat) := by
  have hsum : ((start List.length sels i : Nat) : Int) = ((topLens sels).take i).sum := by
    rw [start, topLens, ← List.map_take, Nat.cast_list_sum, List.map_map]
    rfl
  have hlen : (topLens sels).length = sels.length := List.length_map ..
  rw [hsum]
  split
  next hmany =>
    rw [getD_cumsumLens _ (by rw [List.length_dropLast]; omega), List.dropLast_eq_take,
      List.take_take, min_eq_left (by omega)]
  next hone =>
    obtain rfl : i = 0 := by omega
    simp

theorem getElem?_topIndices {blendLocs sels : List (List Int)} {i row : Nat} {sel : List Int} {p : Int}
    (hsel : sels[i]? = some sel) (hp : sel[row]? = some p) :
    (topIndices blendLocs sels)[start List.length sels i + row]? =
      some (tokensBefore blendLocs i + p) := by
  set shifted := sels.zipIdx.map fun s => s.1.map (· + tokensBefore blendLocs s.2) with hshifted
  have hlens : shifted.map List.length = sels.map List.length := by
    apply List.ext_getElem?
    intro j
    simp only [hshifted, List.map_map, List.getElem?_map, List.getElem?_zipIdx, Option.map_map]
    congr 1
    funext sel
    simp
  have hstart : start List.length shifted i = start List.length sels i := by
    rw [start, start, List.map_take, List.map_take, hlens]
  have hget : shifted[i]? = some (sel.map (· + tokensBefore blendLocs i)) := by
    rw [hshifted, List.getElem?_map, List.getElem?_zipIdx, hsel]
    simp
  obtain ⟨hi, hget⟩ := List.getElem?_eq_some_iff.mp hget
  obtain ⟨hrow, hp⟩ := List.getElem?_eq_some_iff.mp hp
  have hflat := getElem?_flatten_start hi (j := row) (by rw [hget, List.length_map]; exact hrow)
  rw [topIndices, ← hshifted, ← hstart, hflat]
  simp only [hget, List.getElem_map, hp, Int.add_comm]

theorem initTritonBlendMetadata_ok {blendLocs sels : List (List Int)}
    (h : Selections blendLocs sels) :
    ∃ md, initTritonBlendMetadata (prepareBlendLocs blendLocs) (topIndices blendLocs sels)
        (topLens sels) = .ok md ∧
      ∀ (i : Nat) (loc sel : List Int), blendLocs[i]? = some loc → sels[i]? = some sel →
        RequestRows md i (tokensBefore blendLocs i) (tokenCount loc) sel := by
  have hreq := length_reqLenList blendLocs
  obtain ⟨kvStart, hkvStart, hstarts⟩ := gather_ok h.locs
    (0 :: (prepareBlendLocs blendLocs).reqLenList.dropLast) 0 (by
      intro i n hn
      rw [Nat.zero_add]
      have hi := (List.getElem?_eq_some_iff.mp hn).1
      rw [List.length_cons, List.length_dropLast] at hi
      refine ⟨by omega, ?_⟩
      cases i with
      | zero => exact hn
      | succ i =>
        rw [List.getElem?_cons_succ] at hn ⊢
        rw [List.dropLast_eq_take, List.getElem?_take] at hn
        split at hn
        next => exact hn
        next => cases hn)
  obtain ⟨kvEnd, hkvEnd, hends⟩ := gather_ok h.locs
    (prepareBlendLocs blendLocs).reqLenList 1 (by
      intro i n hn
      rw [Nat.add_comm, List.getElem?_cons_succ]
      have hi := (List.getElem?_eq_some_iff.mp hn).1
      exact ⟨by omega, hn⟩)
  refine ⟨_, by rw [initTritonBlendMetadata, hkvStart, hkvEnd]; rfl, fun i loc sel hloc hsel => ?_⟩
  have hi := (List.getElem?_eq_some_iff.mp hloc).1
  have hstart := hstarts i (by rw [List.length_cons, List.length_dropLast]; omega)
  have hend := hends i (by omega)
  rw [Nat.zero_add] at hstart
  constructor
  · exact hstart
  · simp only [List.getElem?_zipWith, hstart, hend]
    rw [Nat.add_comm, tokensBefore_succ hloc]
    simp
  · simp [topLens, hsel]
  · intro row p hp
    rw [qStartLoc_eq sels (List.getElem?_eq_some_iff.mp hsel).1, List.getD_eq_getElem?_getD,
      ← Nat.cast_add, Int.toNat_natCast, getElem?_topIndices hsel hp, Option.getD_some]

/-- The keys a query row sees: those loaded up to the furthest row of its block, cut off by the
causal mask and the window. -/
theorem mem_attendedKeys {md : TritonBlendMetadata} {batch : Nat} {base len : Int} {sel : List Int}
    (h : RequestRows md batch base len sel) {blockM : Nat} (hblock : 0 < blockM) (blockN : Nat)
    (window : Int) {row : Nat} {p : Int} (hp : sel[row]? = some p) :
    ∃ maxQPos, base + p ≤ maxQPos ∧ ∀ k, k ∈ attendedKeys md blockM blockN window batch row ↔
      0 ≤ k ∧ k < (((min (maxQPos + 1) len).toNat + blockN - 1) / blockN * blockN : Nat) ∧
        k ≤ base + p ∧ (0 < window → base + p - k < window) := by
  have hrow := (List.getElem?_eq_some_iff.mp hp).1
  have hqPos := h.qPos row p hp
  have hkvLen : md.kvLens.getD batch 0 = len := by
    rw [List.getD_eq_getElem?_getD, h.kvLen, Option.getD_some]
  have hqLen : md.qLens.getD batch 0 = (sel.length : Int) := by
    rw [List.getD_eq_getElem?_getD, h.qLen, Option.getD_some]
  simp only [attendedKeys, hqPos, hkvLen, hqLen]
  set rowPos := fun offsM : Nat =>
    if (offsM : Int) < sel.length then
      md.qPositions.getD (md.qStartLoc.getD batch 0 + offsM).toNat 0
    else -1 with hrowPos
  refine ⟨((List.range' (row / blockM * blockM) blockM).map rowPos).foldl max (-1), ?_, fun k => ?_⟩
  · rw [List.foldl_eq_foldr]
    refine List.le_max_of_le' _ ?_ (le_refl (base + p))
    rw [List.mem_map]
    refine ⟨row, ?_, ?_⟩
    · have := Nat.div_add_mod row blockM
      have := Nat.mod_lt row hblock
      rw [List.mem_range'_1, Nat.mul_comm]
      omega
    · simp only [hrowPos]
      rw [if_pos (by omega), hqPos]
  · rw [List.mem_filter, List.mem_map, decide_eq_true_iff]
    constructor
    · rintro ⟨⟨n, hn, rfl⟩, hmask⟩
      exact ⟨by omega, by exact_mod_cast List.mem_range.mp hn, hmask⟩
    · rintro ⟨hk, hload, hmask⟩
      exact ⟨⟨k.toNat, List.mem_range.mpr (by omega), by omega⟩, hmask⟩

/-- One selected token of one request. -/
theorem attendedKeys_causal_iff {md : TritonBlendMetadata} {batch : Nat} {base len : Int}
    {sel : List Int} (h : RequestRows md batch base len sel) (device : CudaDevice) (lk : Nat)
    (window : Int) (hbase : 0 ≤ base) (hsel : ∀ p ∈ sel, 0 ≤ p ∧ p < len) {row : Nat} {p : Int}
    (hp : sel[row]? = some p) :
    (∀ k, k ∈ attendedKeys md (computeBlockSizes device lk).1 (computeBlockSizes device lk).2
        window batch row ↔ CausalKey window p k) ↔
      SeesOwnKeys base len (computeBlockSizes device lk).2 window p := by
  have hpos := computeBlockSizes_pos device lk
  have hbound := hsel p (List.mem_of_getElem? hp)
  obtain ⟨maxQPos, hmax, hmem⟩ := mem_attendedKeys h hpos.1 (computeBlockSizes device lk).2 window hp
  rw [← causalKeys_iff hpos.2 hbase hbound.1 hbound.2 hmax]
  exact forall_congr' fun k => by rw [hmem k]

/-- A request of the batch alone. -/
theorem Selections.alone {blendLocs sels : List (List Int)} (h : Selections blendLocs sels)
    {i : Nat} {loc sel : List Int} (hloc : blendLocs[i]? = some loc) (hsel : sels[i]? = some sel) :
    Selections [loc] [sel] where
  locs l hl := by
    rw [List.mem_singleton.mp hl]
    exact h.locs loc (List.mem_of_getElem? hloc)
  paired := rfl
  sorted s hs := by
    rw [List.mem_singleton.mp hs]
    exact h.sorted sel (List.mem_of_getElem? hsel)
  bounded j l s hl hs := by
    obtain ⟨-, rfl⟩ := List.getElem?_eq_some_iff.mp hl
    obtain ⟨-, rfl⟩ := List.getElem?_eq_some_iff.mp hs
    simpa using h.bounded i loc sel hloc hsel

/-- Selected tokens see the keys of their own request up to their own position exactly where the
request is the batch's first (but for empty ones), or the masks in batch coordinates happen to
cut off nothing else. -/
theorem attendsAsAlone_iff (blendLocs sels : List (List Int)) (device : CudaDevice) (lk : Nat)
    (window : Int) (h : Selections blendLocs sels) :
    AttendsAsAlone blendLocs sels (computeBlockSizes device lk) window ↔
      ∀ (i : Nat) (loc sel : List Int), blendLocs[i]? = some loc → sels[i]? = some sel →
        ∀ p ∈ sel, SeesOwnKeys (tokensBefore blendLocs i) (tokenCount loc)
          (computeBlockSizes device lk).2 window p := by
  obtain ⟨md, hmd, hrows⟩ := initTritonBlendMetadata_ok h
  have hbase := tokensBefore_nonneg h.locs
  constructor
  · rintro ⟨md', hmd', hattends⟩ i loc sel hloc hsel p hp
    obtain rfl : md' = md := Except.ok.inj (hmd'.symm.trans hmd)
    obtain ⟨row, hrow, rfl⟩ := List.getElem_of_mem hp
    obtain ⟨-, -, own, -, hown⟩ := hattends i loc sel hloc hsel
    have hp := List.getElem?_eq_getElem hrow
    rw [← attendedKeys_causal_iff (hrows i loc sel hloc hsel) device lk window (hbase i)
      (h.bounded i loc sel hloc hsel) hp]
    exact fun k => (hown row _ hp k).1
  · intro hall
    refine ⟨md, hmd, fun i loc sel hloc hsel => ?_⟩
    have hrow := hrows i loc sel hloc hsel
    have hbound := h.bounded i loc sel hloc hsel
    -- alone, the request stands at the start of its batch
    obtain ⟨own, hmdOwn, hrowsOwn⟩ := initTritonBlendMetadata_ok (h.alone hloc hsel)
    refine ⟨hrow.kvStart, hrow.kvLen, own, hmdOwn, fun row p hp k => ?_⟩
    have hbatch := (attendedKeys_causal_iff hrow device lk window (hbase i) hbound hp).mpr
      (hall i loc sel hloc hsel p (List.mem_of_getElem? hp)) k
    have hself := (attendedKeys_causal_iff (hrowsOwn 0 loc sel rfl rfl) device lk window (le_refl 0)
      hbound hp).mpr (Or.inl rfl) k
    exact ⟨hbatch, hself.trans hbatch.symm⟩

/-- Two requests of three and four tokens with some of each selected. -/
theorem twoRequests_selections : Selections [[0, 2, 3], [0, 1, 4]] [[0, 2], [0, 2, 3]] where
  locs loc hloc := by
    simp only [List.mem_cons, List.not_mem_nil, or_false] at hloc
    rcases hloc with rfl | rfl
    · exact ⟨by decide, by decide⟩
    · exact ⟨by decide, by decide⟩
  paired := rfl
  sorted := by decide
  bounded i loc sel hloc hsel := by
    match i with
    | 0 =>
      obtain ⟨-, rfl⟩ := List.getElem?_eq_some_iff.mp hloc
      obtain ⟨-, rfl⟩ := List.getElem?_eq_some_iff.mp hsel
      show ∀ p ∈ [(0 : Int), 2], 0 ≤ p ∧ p < tokenCount [0, 2, 3]
      decide
    | 1 =>
      obtain ⟨-, rfl⟩ := List.getElem?_eq_some_iff.mp hloc
      obtain ⟨-, rfl⟩ := List.getElem?_eq_some_iff.mp hsel
      show ∀ p ∈ [(0 : Int), 2, 3], 0 ≤ p ∧ p < tokenCount [0, 1, 4]
      decide
    | i + 2 => simp at hloc

theorem attendsAsAlone_iff_twoRequests :
    AttendsAsAlone [[0, 2, 3], [0, 1, 4]] [[0, 2], [0, 2, 3]]
        (computeBlockSizes ⟨true, (9, 0)⟩ 128) (-1) ↔
      ∀ (i : Nat) (loc sel : List Int), [[(0 : Int), 2, 3], [0, 1, 4]][i]? = some loc →
        [[(0 : Int), 2], [0, 2, 3]][i]? = some sel → ∀ p ∈ sel,
          SeesOwnKeys (tokensBefore [[0, 2, 3], [0, 1, 4]] i) (tokenCount loc)
            (computeBlockSizes ⟨true, (9, 0)⟩ 128).2 (-1) p :=
  attendsAsAlone_iff _ _ _ _ _ twoRequests_selections

/-- The second request's first token, the fourth of the batch, sees all of its request's keys. -/
theorem twoRequests_not_attendsAsAlone :
    ¬ AttendsAsAlone [[0, 2, 3], [0, 1, 4]] [[0, 2], [0, 2, 3]]
      (computeBlockSizes ⟨true, (9, 0)⟩ 128) (-1) := by
  rintro ⟨md, hmd, hattends⟩
  obtain ⟨md', hmd', hrows⟩ := initTritonBlendMetadata_ok twoRequests_selections
  obtain rfl : md = md' := Except.ok.inj (hmd.symm.trans hmd')
  obtain ⟨-, -, own, -, hown⟩ := hattends 1 _ _ rfl rfl
  have hfirst : [(0 : Int), 2, 3][0]? = some 0 := rfl
  have hsees := (attendedKeys_causal_iff (hrows 1 _ _ rfl rfl) ⟨true, (9, 0)⟩ 128 (-1)
    (tokensBefore_nonneg twoRequests_selections.locs 1)
    (twoRequests_selections.bounded 1 _ _ rfl rfl) hfirst).mp fun k => (hown 0 0 rfl k).1
  unfold SeesOwnKeys at hsees
  revert hsees
  decide

end QCFuse.Guarantees
