import QCFuse.Guarantees.BatchIndependence
import QCFuse.Source.PrefillBatch

/-!
# Whose style and parameters a prefill batch is run with

The policy never looks at `blend_style`, and the preparation reads style and parameters off the
first request of the batch.
-/

set_option autoImplicit false

namespace QCFuse.Guarantees

open QCFuse.Library QCFuse.Source

variable {numLayers : Int}

/-- What becomes of request `i` of a batch: the style and parameters it is run with, its
locations, and the window of its question. -/
def treatment (info : Option PreparedBlend) (i : Nat) :
    Option (BlendSettings × Option (List Int) × Option (Int × Int)) :=
  info.map fun p => (p.settings, p.forwardBlendLocs[i]?, p.questWindows[i]?)

/-- Whatever a request is prepared as by itself, it is prepared as in the batch. -/
def TreatedAsAlone (numLayers : Int) (batch : List Req) : Prop :=
  ∀ (i : Nat) (r : Req) (own : Option PreparedBlend), batch[i]? = some r →
    prepareBlend numLayers [r] = .ok own →
      ∃ info, prepareBlend numLayers batch = .ok info ∧ treatment info i = treatment own 0

/-- The locations the forward pass uses for a request. -/
def reqForward (offline : Bool) (r : Req) : Py (List Int) := do
  let rawLocs ← r.rawBlendLocs
  if offline then forwardLocs rawLocs else .ok rawLocs

/-- The style and parameters a request asks for. -/
def reqSettings (numLayers : Int) (r : Req) : Py (Option BlendSettings) :=
  match r.blend with
  | none => .ok none
  | some blend => (blend.settings numLayers).map some

/-- No request of a batch that starts with a blend request makes the preparation fail: all have
locations, in the augmented layout for a query cache, and for QCOMPUTE the last one has a
question chunk. -/
structure Compatible (batch : List Req) (blend : BlendPart) : Prop where
  located : ∀ r ∈ batch, ∃ locs, reqForward blend.isQueryOffline r = .ok locs
  asked : blend.blendStyle = .qCompute → ∀ last, batch.getLast? = some last →
    ∀ locs, reqForward blend.isQueryOffline last = .ok locs → 2 ≤ (diff locs).length

/-- Every request that can be prepared by itself asks for the style and parameters of the first
one, in a batch that can be prepared. -/
def Homogeneous (numLayers : Int) (batch : List Req) : Prop :=
  ∀ r ∈ batch, ∀ own, prepareBlend numLayers [r] = .ok own →
    ∃ first, batch.head? = some first ∧
      reqSettings numLayers first = .ok (own.map PreparedBlend.settings) ∧
      ∀ blend, first.blend = some blend → Compatible batch blend

/-! ## The stages of the preparation -/

theorem mapM_reqForward {blend : BlendPart} {batch : List Req} {forward : List (List Int)} :
    (∃ raw, batch.mapM Req.rawBlendLocs = .ok raw ∧ blend.forwardBlendLocs raw = .ok forward) ↔
      batch.mapM (reqForward blend.isQueryOffline) = .ok forward := by
  unfold BlendPart.forwardBlendLocs
  cases blend.isQueryOffline with
  | false =>
    have hsame : reqForward false = Req.rawBlendLocs := by
      funext r
      simp only [reqForward, Bool.false_eq_true, if_false]
      cases r.rawBlendLocs <;> rfl
    rw [hsame]
    constructor
    · rintro ⟨raw, hraw, hforward⟩
      cases hforward
      exact hraw
    · exact fun h => ⟨forward, h, rfl⟩
  | true =>
    simp only [if_true]
    induction batch generalizing forward with
    | nil =>
      constructor
      · rintro ⟨raw, hraw, hforward⟩
        cases hraw
        exact hforward
      · exact fun h => ⟨[], rfl, h⟩
    | cons r batch ih =>
      constructor
      · rintro ⟨raw, hraw, hforward⟩
        rw [List.mapM_cons] at hraw
        obtain ⟨locs, hlocs, hraw⟩ := bind_ok hraw
        obtain ⟨raws, hraws, hraw⟩ := bind_ok hraw
        cases hraw
        rw [List.mapM_cons] at hforward
        obtain ⟨f, hf, hforward⟩ := bind_ok hforward
        obtain ⟨fs, hfs, hforward⟩ := bind_ok hforward
        cases hforward
        have hr : reqForward true r = .ok f := by
          rw [reqForward, hlocs]
          exact hf
        rw [List.mapM_cons, hr, ih.mp ⟨raws, hraws, hfs⟩]
        rfl
      · intro h
        rw [List.mapM_cons] at h
        obtain ⟨f, hf, h⟩ := bind_ok h
        obtain ⟨fs, hfs, h⟩ := bind_ok h
        cases h
        obtain ⟨raws, hraws, hfs⟩ := ih.mpr hfs
        obtain ⟨locs, hlocs, hf⟩ := bind_ok hf
        refine ⟨locs :: raws, ?_, ?_⟩
        · rw [List.mapM_cons, hlocs, hraws]
          rfl
        · simp only [if_true] at hf
          rw [List.mapM_cons, hf, hfs]
          rfl

/-- A batch prepared with the settings of `blend`. -/
structure PreparedWith (numLayers : Int) (batch : List Req) (blend : BlendPart) (p : PreparedBlend) :
    Prop where
  forward : batch.mapM (reqForward blend.isQueryOffline) = .ok p.forwardBlendLocs
  settings : blend.settings numLayers = .ok p.settings
  info : p.info = prepareBlendLocs p.forwardBlendLocs
  windows : blend.questWindows p.info = .ok p.questWindows

theorem prepareBlend_some_iff {first : Req} {rest : List Req} {blend : BlendPart}
    (hblend : first.blend = some blend) (info : Option PreparedBlend) :
    prepareBlend numLayers (first :: rest) = .ok info ↔
      ∃ p, info = some p ∧ PreparedWith numLayers (first :: rest) blend p := by
  simp only [prepareBlend, hblend]
  constructor
  · intro h
    obtain ⟨raw, hraw, h⟩ := bind_ok h
    obtain ⟨forward, hforward, h⟩ := bind_ok h
    obtain ⟨settings, hsettings, h⟩ := bind_ok h
    obtain ⟨windows, hwindows, h⟩ := bind_ok h
    cases h
    exact ⟨_, rfl, mapM_reqForward.mp ⟨raw, hraw, hforward⟩, hsettings, rfl, hwindows⟩
  · rintro ⟨⟨settings, forward, info, windows⟩, rfl, h⟩
    obtain ⟨raw, hraw, hforward⟩ := mapM_reqForward.mpr h.forward
    have hinfo := h.info
    have hwindows := h.windows
    simp only at hinfo hwindows hforward
    subst hinfo
    rw [hraw]
    simp only [bind, Except.bind, hforward, h.settings, hwindows, pure, Except.pure]

theorem prepareBlend_none {first : Req} {rest : List Req} (h : first.blend = none) :
    prepareBlend numLayers (first :: rest) = .ok none := by
  simp only [prepareBlend, h]

/-- A request without blend attributes is a plain one. -/
theorem prepareBlend_single_none {r : Req} (h : prepareBlend numLayers [r] = .ok none) :
    r.blend = none := by
  cases hblend : r.blend with
  | none => rfl
  | some blend =>
    obtain ⟨p, hp, -⟩ := (prepareBlend_some_iff hblend none).mp h
    cases hp

/-- The settings tell whether a query cache is computed. -/
theorem isQueryOffline_of_settings {blend : BlendPart} {settings : BlendSettings}
    (h : blend.settings numLayers = .ok settings) :
    settings.blendStyle = blend.blendStyle ∧ blend.isQueryOffline =
      (settings.blendStyle = .kvCompute && settings.isContextblend &&
        (settings.sampleDirs.bind Prod.snd).isSome) := by
  obtain ⟨source, -, h⟩ := bind_ok h
  obtain ⟨select, -, h⟩ := bind_ok h
  cases h
  refine ⟨rfl, ?_⟩
  rw [BlendPart.isQueryOffline]
  congr 1
  cases hquery : blend.ssdCachePathQuery with
  | some dir => simp
  | none => cases hchunk : blend.ssdCachePathChunk <;> simp

/-! ## Request by request -/

theorem mapM_getElem? {α β : Type} {f : α → Py β} {xs : List α} {ys : List β}
    (h : xs.mapM f = .ok ys) {i : Nat} {x : α} (hx : xs[i]? = some x) :
    ∃ y, f x = .ok y ∧ ys[i]? = some y := by
  obtain ⟨hlen, hget⟩ := mapM_ok h
  obtain ⟨hi, rfl⟩ := List.getElem?_eq_some_iff.mp hx
  exact ⟨_, hget i hi (by omega), List.getElem?_eq_getElem (by omega)⟩

theorem forwardLocs_ne {rawLocs locs : List Int} (h : forwardLocs rawLocs = .ok locs) : locs ≠ [] := by
  unfold forwardLocs at h
  split at h
  next augmented haugmented =>
    cases h
    simp only [prepareAugmentedLocsForRequest] at haugmented
    split at haugmented
    next => cases haugmented
    next =>
      split at haugmented
      next => cases haugmented
      next =>
        cases haugmented
        simp [cumsumLens]
  next => cases h

theorem reqForward_ne {offline : Bool} {r : Req} {locs : List Int}
    (h : reqForward offline r = .ok locs) : locs ≠ [] := by
  obtain ⟨rawLocs, hraw, h⟩ := bind_ok h
  split at h
  next => exact forwardLocs_ne h
  next =>
    cases h
    unfold Req.rawBlendLocs at hraw
    split at hraw
    next locs' hlocs =>
      cases hraw
      obtain ⟨blend, -, hblend⟩ := Option.bind_eq_some_iff.mp hlocs
      rintro rfl
      have := blend.located [] hblend
      cases this
    next => cases hraw

/-- The window of a request with a question chunk, wherever it stands in the batch. -/
theorem questWindow_within {locs : List (List Int)} {i : Nat} {loc : List Int}
    (hloc : locs[i]? = some loc) (hchunks : 2 ≤ (diff loc).length) :
    questWindow (prepareBlendLocs locs).chunkLocList
        (start (fun loc => (diff loc).length) locs i : Nat) =
      .ok (((diff loc).take 2).sum - ((diff loc).take 1).sum, ((diff loc).take 1).sum) := by
  have hzero := pyIndex_chunkLocList_within hloc (k := 0) (Nat.zero_le _)
  have hone := pyIndex_chunkLocList_within hloc (k := 1) (by omega)
  have htwo := pyIndex_chunkLocList_within hloc (k := 2) hchunks
  rw [Nat.cast_add, Nat.cast_one] at hone
  rw [Nat.cast_add, Nat.cast_ofNat] at htwo
  rw [Nat.add_zero, List.take_zero, List.sum_nil, Int.add_zero] at hzero
  simp only [questWindow, hzero, hone, htwo, bind, Except.bind, pure, Except.pure]
  congr 2 <;> omega

/-- A window is read while two chunk ends follow. -/
theorem questWindow_ok {locs : List (List Int)} {chunk : Nat}
    (h : chunk + 2 ≤ (locs.flatMap diff).length) :
    ∃ window, questWindow (prepareBlendLocs locs).chunkLocList chunk = .ok window := by
  have hzero := pyIndex_cumsumLens (locs.flatMap diff) (i := chunk) (by omega)
  have hone := pyIndex_cumsumLens (locs.flatMap diff) (i := chunk + 1) (by omega)
  have htwo := pyIndex_cumsumLens (locs.flatMap diff) h
  rw [Nat.cast_add, Nat.cast_one] at hone
  rw [Nat.cast_add, Nat.cast_ofNat] at htwo
  simp only [questWindow, prepareBlendLocs, hzero, hone, htwo, bind, Except.bind, pure, Except.pure]
  exact ⟨_, rfl⟩

/-- The chunks at which the windows of a batch are read. -/
theorem getElem?_reqStarts {locs : List (List Int)} (hlocs : ∀ loc ∈ locs, loc ≠ []) {i : Nat}
    (hi : i < locs.length) :
    (0 :: (prepareBlendLocs locs).reqLenList.dropLast)[i]? =
      some ((start (fun loc => (diff loc).length) locs i : Nat) : Int) := by
  rw [← getElem?_reqLenList hlocs hi.le]
  cases i with
  | zero => rfl
  | succ i =>
    have hlen := length_reqLenList locs
    rw [List.getElem?_cons_succ, List.getElem?_cons_succ, List.dropLast_eq_take, List.getElem?_take,
      if_pos (by omega)]

/-- In a QCOMPUTE batch every window can be read exactly if the last request has a question
chunk. -/
theorem questWindows_ok_iff {locs : List (List Int)} (hlocs : ∀ loc ∈ locs, loc ≠ [])
    {last : List Int} (hlast : locs.getLast? = some last) :
    (∃ windows, (0 :: (prepareBlendLocs locs).reqLenList.dropLast).mapM
        (questWindow (prepareBlendLocs locs).chunkLocList) = .ok windows) ↔ 2 ≤ (diff last).length := by
  have hne : locs ≠ [] := by
    rintro rfl
    cases hlast
  have hpos := List.length_pos_iff.mpr hne
  have hlastGet : locs[locs.length - 1]? = some last := by
    rw [← List.getLast?_eq_getElem?, hlast]
  have htotal : (locs.flatMap diff).length =
      start (fun loc => (diff loc).length) locs (locs.length - 1) + (diff last).length := by
    obtain ⟨hlt, hget⟩ := List.getElem?_eq_some_iff.mp hlastGet
    rw [List.length_flatMap, ← start_length]
    conv_lhs => rw [← Nat.sub_add_cancel hpos]
    rw [start_succ _ _ hlt, hget]
  constructor
  · rintro ⟨windows, hwindows⟩
    obtain ⟨window, hwindow, -⟩ := mapM_getElem? hwindows
      (getElem?_reqStarts hlocs (i := locs.length - 1) (by omega))
    obtain ⟨reqStart, -, hwindow⟩ := bind_ok hwindow
    obtain ⟨first, -, hwindow⟩ := bind_ok hwindow
    obtain ⟨stop, hstop, -⟩ := bind_ok hwindow
    have hcast : ((start (fun loc => (diff loc).length) locs (locs.length - 1) : Nat) : Int) + 2 =
        ((start (fun loc => (diff loc).length) locs (locs.length - 1) + 2 : Nat) : Int) := by omega
    rw [hcast, pyIndex_ok_iff] at hstop
    have hbound := (List.getElem?_eq_some_iff.mp hstop).1
    rw [prepareBlendLocs, cumsumLens, List.length_cons, length_cumsumFrom] at hbound
    omega
  · intro hchunks
    refine mapM_exists fun chunk hchunk => ?_
    obtain ⟨i, hi, hget⟩ := List.getElem_of_mem hchunk
    have hlen := length_reqLenList locs
    rw [List.length_cons, List.length_dropLast] at hi
    have hstart := getElem?_reqStarts hlocs (i := i) (by omega)
    rw [List.getElem?_eq_getElem (by rw [List.length_cons, List.length_dropLast]; omega)] at hstart
    rw [← hget, Option.some.inj hstart]
    refine questWindow_ok ?_
    have hmono := start_mono (fun loc => (diff loc).length) locs (i := i) (j := locs.length - 1) (by omega)
    omega

/-- The question window of a request by itself. -/
def ownWindow (locs : List Int) : Int × Int :=
  (((diff locs).take 2).sum - ((diff locs).take 1).sum, ((diff locs).take 1).sum)

/-- Where a request with its own question chunk has its window in a prepared batch. -/
theorem questWindows_getElem? {blend : BlendPart} {locs : List (List Int)}
    {windows : List (Int × Int)} (hlocs : ∀ loc ∈ locs, loc ≠ [])
    (h : blend.questWindows (prepareBlendLocs locs) = .ok windows) {i : Nat} {loc : List Int}
    (hloc : locs[i]? = some loc) (hchunks : blend.blendStyle = .qCompute → 2 ≤ (diff loc).length) :
    windows[i]? = if blend.blendStyle = .qCompute then some (ownWindow loc) else none := by
  unfold BlendPart.questWindows at h
  split at h
  next hstyle =>
    rw [if_pos hstyle]
    obtain ⟨window, hwindow, hget⟩ := mapM_getElem? h
      (getElem?_reqStarts hlocs (List.getElem?_eq_some_iff.mp hloc).1)
    rw [questWindow_within hloc (hchunks hstyle)] at hwindow
    rw [hget, ← Except.ok.inj hwindow, ownWindow]
  next hstyle =>
    cases h
    rw [if_neg hstyle]
    rfl

/-- A blend request that can be prepared by itself. -/
theorem prepareBlend_single {r : Req} {blend : BlendPart} {own : Option PreparedBlend}
    (hblend : r.blend = some blend) (h : prepareBlend numLayers [r] = .ok own) :
    ∃ settings locs, blend.settings numLayers = .ok settings ∧
      reqForward blend.isQueryOffline r = .ok locs ∧
      (blend.blendStyle = .qCompute → 2 ≤ (diff locs).length) ∧
      own.map PreparedBlend.settings = some settings ∧
      treatment own 0 = some (settings, some locs,
        if blend.blendStyle = .qCompute then some (ownWindow locs) else none) := by
  obtain ⟨p, rfl, hp⟩ := (prepareBlend_some_iff hblend own).mp h
  have hforward := hp.forward
  rw [List.mapM_cons, List.mapM_nil] at hforward
  obtain ⟨locs, hlocs, hforward⟩ := bind_ok hforward
  have hforward : [locs] = p.forwardBlendLocs := Except.ok.inj hforward
  have hne : ∀ loc ∈ [locs], loc ≠ [] := by
    intro loc hloc
    rw [List.mem_singleton.mp hloc]
    exact reqForward_ne hlocs
  have hwindows := hp.windows
  rw [hp.info, ← hforward] at hwindows
  have hchunks : blend.blendStyle = .qCompute → 2 ≤ (diff locs).length := by
    intro hstyle
    unfold BlendPart.questWindows at hwindows
    rw [if_pos hstyle] at hwindows
    exact (questWindows_ok_iff hne rfl).mp ⟨_, hwindows⟩
  have hwindow := questWindows_getElem? (i := 0) hne hwindows rfl hchunks
  refine ⟨p.settings, locs, hp.settings, hlocs, hchunks, rfl, ?_⟩
  rw [treatment, Option.map_some, ← hforward, hwindow]
  rfl

theorem forward_ne {offline : Bool} {batch : List Req} {forward : List (List Int)}
    (h : batch.mapM (reqForward offline) = .ok forward) : ∀ loc ∈ forward, loc ≠ [] := by
  intro loc hloc
  obtain ⟨hlen, hget⟩ := mapM_ok h
  obtain ⟨i, hi, rfl⟩ := List.getElem_of_mem hloc
  exact reqForward_ne (hget i (by omega) hi)

theorem forward_getLast? {offline : Bool} {batch : List Req} {forward : List (List Int)}
    (h : batch.mapM (reqForward offline) = .ok forward) {last : Req} (hlast : batch.getLast? = some last) :
    ∃ locs, reqForward offline last = .ok locs ∧ forward.getLast? = some locs := by
  rw [List.getLast?_eq_getElem?] at hlast
  obtain ⟨locs, hlocs, hget⟩ := mapM_getElem? h hlast
  refine ⟨locs, hlocs, ?_⟩
  rw [List.getLast?_eq_getElem?, (mapM_ok h).1]
  exact hget

theorem prepared_compatible {batch : List Req} {blend : BlendPart} {p : PreparedBlend}
    (h : PreparedWith numLayers batch blend p) : Compatible batch blend where
  located r hr := by
    obtain ⟨i, hi, rfl⟩ := List.getElem_of_mem hr
    obtain ⟨locs, hlocs, -⟩ := mapM_getElem? h.forward (List.getElem?_eq_getElem hi)
    exact ⟨locs, hlocs⟩
  asked hstyle last hlast locs hlocs := by
    obtain ⟨locs', hlocs', hget⟩ := forward_getLast? h.forward hlast
    obtain rfl : locs' = locs := Except.ok.inj (hlocs'.symm.trans hlocs)
    have hwindows := h.windows
    rw [h.info, BlendPart.questWindows, if_pos hstyle] at hwindows
    exact (questWindows_ok_iff (forward_ne h.forward) hget).mp ⟨_, hwindows⟩

theorem compatible_prepared {first : Req} {rest : List Req} {blend : BlendPart} {settings : BlendSettings}
    (h : Compatible (first :: rest) blend) (hsettings : blend.settings numLayers = .ok settings) :
    ∃ p, PreparedWith numLayers (first :: rest) blend p ∧ p.settings = settings := by
  obtain ⟨forward, hforward⟩ := mapM_exists h.located
  obtain ⟨windows, hwindows⟩ : ∃ windows,
      blend.questWindows (prepareBlendLocs forward) = .ok windows := by
    unfold BlendPart.questWindows
    split
    next hstyle =>
      have hlast := List.getLast?_eq_some_getLast (List.cons_ne_nil first rest)
      obtain ⟨locs, hlocs, hget⟩ := forward_getLast? hforward hlast
      exact (questWindows_ok_iff (forward_ne hforward) hget).mpr (h.asked hstyle _ hlast locs hlocs)
    next => exact ⟨[], rfl⟩
  exact ⟨⟨settings, forward, prepareBlendLocs forward, windows⟩,
    ⟨hforward, hsettings, rfl, hwindows⟩, rfl⟩

/-- A plain request as it arrives. -/
def plainReq : Req where
  originInputIds := [1, 2, 3]
  outputIds := []
  fillIds := []
  prefixIndices := []
  extendInputLen := 0
  maxNewTokens := 8
  ignoreEos := false
  extraKey := none
  logprobStartLen := none
  blend := none

/-- A KVCOMPUTE request of three chunks. -/
def kvComputePart : BlendPart where
  blendStyle := .kvCompute
  blendLocList := some [0, 2, 3, 6]
  located := by
    intro locs hlocs
    cases hlocs
    rfl
  method := none
  ratio := none
  start := none
  attnStart := 0
  attnEnd := -1
  isContextblend := false
  contextCacheSource := some "query"
  contextNSink := none
  digestRatio := none
  digestIndexMethod := none
  criticalLayers := none
  ssdCachePathChunk := some "chunks"
  ssdCachePathQuery := none

def kvComputeReq : Req :=
  { plainReq with originInputIds := [1, 2, 3, 4, 5, 6], blend := some kvComputePart }

/-- An idle scheduler with a plain request waiting before a blend request. -/
def plainFirst : PrefillState where
  tree := ⟨false, fun _ _ => [], fun _ => 0⟩
  pageSize := 1
  clipMaxNewTokens := 4096
  maxPrefillTokens := 16384
  chunkedPrefillSize := some 8192
  truncationAlignSize := none
  isMixedChunk := false
  newTokenRatio := 1
  availableAndEvictable := 1000
  numAllocatableReqs := 8
  batchIsFull := false
  running := []
  chunkedReq := none
  waitingQueue := [plainReq, kvComputeReq]

end QCFuse.Guarantees
