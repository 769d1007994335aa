import QCFuse.Guarantees.ValidatorSoundness

/-!
# The two read paths of the query cache

One block read for a list of layers against one read a layer. Both return the bytes an accepted
metadata file describes; they differ in the offsets from which the pinned buffer is viewed, and so in
the alignment they need.
-/

set_option autoImplicit false

namespace QCFuse.Guarantees

open QCFuse.Library QCFuse.Source

/-! ## The sections of an accepted file -/

/-- The layers `ids` lie one behind the other from `base` on. -/
structure LaidOut (bin : Bytes) (sectionMeta : Json) (ids : List Int) (base : Nat) (pairs : List KvPair) :
    Prop where
  length_eq : pairs.length = ids.length
  layer : ∀ i (h : i < ids.length) (h' : i < pairs.length),
    DescribedLayer bin sectionMeta ids[i] (base + start KvPair.nbytes pairs i) pairs[i]

/-- An entry of the size its shape and dtype say describes the bytes in its range. -/
theorem described_of_meta {bin : Bytes} {sectionMeta : Json} {layerId : Int} {name : String} {off : Nat}
    {item : TensorMeta} (hitem : packedTensorMeta sectionMeta layerId name = .ok item)
    (hoffset : item.offset = off) (hend : item.end_ = item.offset + item.nbytes)
    (hnbytes : item.nbytes = ((item.shape.prod * item.dtype.itemsize : Nat) : Int))
    (hstop : item.end_ ≤ bin.length) :
    ∃ t : Tensor, Described bin sectionMeta layerId name off t ∧ item.end_ = (off + t.nbytes : Nat) := by
  obtain ⟨offset, stop, nbytes, shape, dtype⟩ := item
  simp only at hoffset hend hnbytes hstop
  subst hoffset hnbytes hend
  have hlen : (slice bin off (shape.prod * dtype.itemsize)).length = shape.prod * dtype.itemsize :=
    length_slice (by omega)
  refine ⟨⟨shape, dtype, slice bin off (shape.prod * dtype.itemsize), hlen⟩, ⟨?_, ?_, rfl⟩, ?_⟩
  · rw [hitem, Tensor.nbytes, Nat.cast_add]
  · rw [Tensor.nbytes]
    exact_mod_cast hstop
  · rw [Tensor.nbytes, Nat.cast_add]

theorem laidOut_of_tiles {bin : Bytes} {sectionMeta : Json} {ids : List Int} {items : List TensorMeta}
    {base : Nat} {stop : Int} (hitems : layerItems sectionMeta ids = .ok items)
    (htiles : Tiles items base stop) (hstop : stop ≤ bin.length) :
    ∃ pairs, LaidOut bin sectionMeta ids base pairs := by
  induction ids generalizing items base with
  | nil => exact ⟨[], rfl, fun i hi => absurd hi (Nat.not_lt_zero i)⟩
  | cons id ids ih =>
    obtain ⟨k, hk, hitems⟩ := bind_ok hitems
    obtain ⟨v, hv, hitems⟩ := bind_ok hitems
    obtain ⟨rest, hrest, hitems⟩ := bind_ok hitems
    cases hitems
    obtain ⟨hkOffset, hkEnd, hkNbytes, hvOffset, hvEnd, hvNbytes, htail⟩ := htiles
    have hle := htail.le
    obtain ⟨kTensor, hkTensor, hkStop⟩ := described_of_meta hk hkOffset hkEnd hkNbytes
      (by omega : k.end_ ≤ bin.length)
    obtain ⟨vTensor, hvTensor, hvStop⟩ := described_of_meta hv (hvOffset.trans hkStop) hvEnd hvNbytes
      (by omega : v.end_ ≤ bin.length)
    rw [hvStop] at htail
    obtain ⟨pairs, hlen, hlayers⟩ := ih hrest htail
    refine ⟨(kTensor, vTensor) :: pairs, by simp [hlen], fun i hi hi' => ?_⟩
    cases i with
    | zero => simpa using ⟨hkTensor, hvTensor⟩
    | succ i =>
      have hlayer := hlayers i (by simpa using hi) (by simpa using hi')
      simpa [start, KvPair.nbytes, Nat.add_assoc] using hlayer

/-- The two sections of a query cache. -/
inductive QuerySection where
  | digest | critical

namespace QuerySection

def name : QuerySection → String
  | .digest => "digest"
  | .critical => "critical"

/-- The layer ids of a section in stored order. -/
def storedIds (queryMeta : Json) : QuerySection → Py (List Int)
  | .digest => do
    let numLayers ← asInt (← (← queryMeta.item "digest").get "num_layers")
    return layerRange numLayers.toNat
  | .critical => do (← (← queryMeta.item "critical").getD "layer_ids" (.arr [])).intList

end QuerySection

/-- Each section of an accepted metadata file is laid out in stored order. -/
theorem readQueryMeta_laidOut {files : CacheFiles} {queryMeta : Json}
    (h : readQueryMeta files = .ok queryMeta) (s : QuerySection) :
    ∃ bin sectionMeta stored base pairs, files.binFile = some bin ∧
      queryMeta.item s.name = .ok sectionMeta ∧ s.storedIds queryMeta = .ok stored ∧
      LaidOut bin sectionMeta stored base pairs := by
  obtain ⟨bin, _, _, _, _, _, hchecked⟩ := readQueryMeta_checked h
  obtain ⟨metaFile, binFile⟩ := files
  obtain rfl : metaFile = some queryMeta := hchecked.metaFile
  obtain rfl : binFile = some bin := hchecked.binFile
  obtain ⟨-, ⟨digest, critical, numLayers, criticalJson, criticalIds, digestItems, criticalItems, hdigest,
    hcritical, ⟨value, hvalue, hint⟩, -, hids, hcriticalIds, hdigestItems, hcriticalItems, htiles, -⟩⟩ :=
    readQueryMeta_sound h
  obtain ⟨middle, hdigestTiles, hcriticalTiles⟩ := htiles.split
  have hmiddle := hdigestTiles.le
  cases s with
  | digest =>
    obtain ⟨pairs, hlaid⟩ := laidOut_of_tiles hdigestItems
      (show Tiles digestItems (0 : Nat) middle from hdigestTiles) hcriticalTiles.le
    refine ⟨bin, digest, _, 0, pairs, rfl, hdigest, ?_, hlaid⟩
    simp only [QuerySection.storedIds, hdigest, hvalue, asInt, hint, bind, Except.bind, pure, Except.pure]
  | critical =>
    obtain ⟨base, rfl⟩ := Int.eq_ofNat_of_zero_le hmiddle
    obtain ⟨pairs, hlaid⟩ := laidOut_of_tiles hcriticalItems hcriticalTiles (le_refl _)
    refine ⟨bin, critical, criticalIds, base, pairs, rfl, hcritical, ?_, hlaid⟩
    simp only [QuerySection.storedIds, hcritical, hids, Json.intList, Json.iter, bind, Except.bind,
      hcriticalIds]

/-! ## The two paths on described layers -/

variable (memory : Nat → UInt8) {files : CacheFiles} {bin : Bytes} {queryMeta sectionMeta : Json}
  {sectionName : String} {off : Int → Nat} {pair : Int → KvPair}

/-- The layers picked from a section are described as they are in the section. -/
theorem querySection_described (hsection : queryMeta.item sectionName = .ok sectionMeta) (ids : List Int)
    (hlayers : ∀ id ∈ ids, DescribedLayer bin sectionMeta id (off id) (pair id)) :
    ∃ packedMeta, querySectionLayersAsPackedMeta queryMeta sectionName ids = .ok packedMeta ∧
      ∀ id ∈ ids, DescribedLayer bin packedMeta id (off id) (pair id) := by
  obtain ⟨packedMeta, hpacked, hsame⟩ := querySection_tensorMeta hsection ids fun id hid =>
    ⟨_, (hlayers id hid).k.tensorMeta⟩
  refine ⟨packedMeta, hpacked, fun id hid => ?_⟩
  obtain ⟨hk, hv⟩ := hlayers id hid
  exact ⟨⟨(hsame id hid "k").trans hk.tensorMeta, hk.inside, hk.bytes⟩,
    ⟨(hsame id hid "v").trans hv.tensorMeta, hv.inside, hv.bytes⟩⟩

/-- The block read returns the described layers, if its block covers them and they are aligned to its
first one. -/
theorem loadQueryLayersToGpu_ok (reads : List (Option Nat)) (slot : Slot) {ids : List Int} {first : Int}
    (hbin : files.binFile = some bin) (hsection : queryMeta.item sectionName = .ok sectionMeta)
    (hlayers : ∀ id ∈ ids, DescribedLayer bin sectionMeta id (off id) (pair id))
    (hfirst : ids.head? = some first) (loaded : List (Int × KvPair)) :
    loadQueryLayersToGpu memory reads files queryMeta sectionName ids slot = .ok loaded ↔
      (CoversBlock off pair ids ∧ ∀ id ∈ ids, AlignedFrom (off first) (off id) (pair id)) ∧
        loaded = ids.map fun id => (id, pair id) := by
  obtain ⟨packedMeta, hpacked, hdescribed⟩ := querySection_described hsection ids hlayers
  have hload : loadQueryLayersToGpu memory reads files queryMeta sectionName ids slot =
      readBlockToSlot "query cache" "Query cache" memory reads bin packedMeta ids ⟨slot.pinBuf, none⟩ >>=
        fun slot' => ids.mapM fun id => do return (id, ← copyPackedLayerFromBlockToGpu slot' id) := by
    cases ids with
    | nil => cases hfirst
    | cons id rest =>
      simp only [loadQueryLayersToGpu, readQueryLayersToSlot, hbin, hpacked, bind, Except.bind]
  rw [hload]
  by_cases hcovers : CoversBlock off pair ids
  · obtain ⟨slot', hread, hcopy⟩ := readBlockToSlot_covers "query cache" "Query cache" memory reads
      ⟨slot.pinBuf, none⟩ off pair hfirst hdescribed hcovers
    have hmap : (ids.mapM fun id => do return (id, ← copyPackedLayerFromBlockToGpu slot' id)) =
        if ∀ id ∈ ids, AlignedFrom (off first) (off id) (pair id) then .ok (ids.map fun id => (id, pair id))
        else .error misaligned := by
      refine mapM_guarded fun id hid => ?_
      rw [hcopy id hid]
      by_cases haligned : AlignedFrom (off first) (off id) (pair id)
      · rw [if_pos haligned, if_pos haligned]
        rfl
      · rw [if_neg haligned, if_neg haligned]
        rfl
    rw [hread]
    change (ids.mapM fun id => do return (id, ← copyPackedLayerFromBlockToGpu slot' id)) = _ ↔ _
    rw [hmap]
    split
    next haligned => exact ⟨fun h => ⟨⟨hcovers, haligned⟩, (Except.ok.inj h).symm⟩, fun h => by rw [h.2]⟩
    next haligned => exact ⟨by rintro ⟨⟩, fun h => absurd h.1.2 haligned⟩
  · obtain ⟨e, hread⟩ := readBlockToSlot_uncovered "query cache" "Query cache" memory reads
      ⟨slot.pinBuf, none⟩ off pair hfirst hdescribed hcovers
    rw [hread]
    exact ⟨by rintro ⟨⟩, fun h => absurd h.1.1 hcovers⟩

/-- The reads layer by layer return the described layers, if each V is aligned to its own K. -/
theorem loadQueryLayersProgressively_eq (reads : Int → List (Option Nat)) (slot : Slot) (ids : List Int)
    (hbin : files.binFile = some bin) (hsection : queryMeta.item sectionName = .ok sectionMeta)
    (hlayers : ∀ id ∈ ids, DescribedLayer bin sectionMeta id (off id) (pair id)) :
    loadQueryLayersProgressively memory reads files queryMeta sectionName ids slot =
      if ∀ id ∈ ids, AlignedFrom (off id) (off id) (pair id) then .ok (ids.map fun id => (id, pair id))
      else .error misaligned := by
  induction ids generalizing slot with
  | nil => rfl
  | cons id ids ih =>
    have hlayer := hlayers id List.mem_cons_self
    obtain ⟨packedMeta, hpacked, hdescribed⟩ := querySection_described hsection [id] fun other hother => by
      rw [List.mem_singleton.mp hother]
      exact hlayer
    have hone := hdescribed id List.mem_cons_self
    obtain ⟨slot', hfill, hcopy⟩ := fillSlot_described memory (reads id) packedMeta [id] (off id)
      (pair id).nbytes ⟨slot.pinBuf, none⟩ hone.inside
    have hcopied := hcopy id (off id) (pair id) hone (Nat.le_refl _) (Nat.le_refl _)
    have hread : readQueryLayerFromOpenFile memory (reads id) bin queryMeta sectionName id
        ⟨slot.pinBuf, none⟩ = .ok slot' := by
      have hspan : ((off id + (pair id).1.nbytes + (pair id).2.nbytes : Nat) : Int) - (off id : Nat) =
          ((pair id).nbytes : Nat) := by
        rw [KvPair.nbytes]
        omega
      simp only [readQueryLayerFromOpenFile, hpacked, hone.k.tensorMeta, hone.v.tensorMeta, hspan, bind,
        Except.bind]
      exact hfill
    rw [loadQueryLayersProgressively, hbin]
    simp only [hread, hcopied, bind, Except.bind]
    have hcons := List.forall_mem_cons (p := fun other => AlignedFrom (off other) (off other) (pair other))
      (a := id) (l := ids)
    by_cases haligned : AlignedFrom (off id) (off id) (pair id)
    · rw [if_pos haligned]
      simp only [ih slot' fun other hother => hlayers other (List.mem_cons_of_mem _ hother)]
      by_cases hrest : ∀ other ∈ ids, AlignedFrom (off other) (off other) (pair other)
      · rw [if_pos hrest, if_pos (hcons.mpr ⟨haligned, hrest⟩)]
        rfl
      · rw [if_neg hrest, if_neg fun hall => hrest (hcons.mp hall).2]
    · rw [if_neg haligned, if_neg fun hall => haligned (hcons.mp hall).1]

/-! ## Layers in stored order -/

/-- Offsets and contents of a laid out section by layer id. -/
theorem LaidOut.byId {stored : List Int} {base : Nat} {pairs : List KvPair}
    (h : LaidOut bin sectionMeta stored base pairs) :
    ∃ (off : Int → Nat) (pair : Int → KvPair),
      (∀ id ∈ stored, DescribedLayer bin sectionMeta id (off id) (pair id)) ∧
        ∀ i (hi : i < stored.length) (hi' : i < pairs.length),
          off stored[i] = base + start KvPair.nbytes pairs i ∧ pair stored[i] = pairs[i] := by
  have hsome : ∀ id, ∃ (off : Nat) (p : KvPair), id ∈ stored → DescribedLayer bin sectionMeta id off p := by
    intro id
    by_cases hid : id ∈ stored
    · obtain ⟨i, hi, rfl⟩ := List.getElem_of_mem hid
      have hi' : i < pairs.length := h.length_eq ▸ hi
      exact ⟨_, _, fun _ => h.layer i hi hi'⟩
    · exact ⟨0, default, fun hmem => absurd hmem hid⟩
  choose off pair hlayers using hsome
  refine ⟨off, pair, hlayers, fun i hi hi' => ?_⟩
  exact (hlayers _ (List.getElem_mem hi)).unique (h.layer i hi hi')

/-- A run of layers in stored order covers its block. -/
theorem covers_of_infix {stored ids : List Int} {base : Nat} {pairs : List KvPair}
    (hlen : pairs.length = stored.length)
    (hoff : ∀ i (hi : i < stored.length) (hi' : i < pairs.length),
      off stored[i] = base + start KvPair.nbytes pairs i ∧ pair stored[i] = pairs[i])
    (hrun : ids <:+: stored) : CoversBlock off pair ids := by
  obtain ⟨before, after, rfl⟩ := hrun
  have hat : ∀ j (hj : j < ids.length), off ids[j] = base + start KvPair.nbytes pairs (before.length + j) ∧
      off ids[j] + (pair ids[j]).nbytes = base + start KvPair.nbytes pairs (before.length + j + 1) := by
    intro j hj
    have hi : before.length + j < (before ++ ids ++ after).length := by
      simp only [List.length_append]
      omega
    have hget : (before ++ ids ++ after)[before.length + j] = ids[j] := by
      rw [List.getElem_append_left (by simp only [List.length_append]; omega),
        List.getElem_append_right (by omega)]
      simp
    have h := hoff _ hi (by omega)
    rw [hget] at h
    rw [h.1, h.2, start_succ _ _ (by omega), Nat.add_assoc]
    exact ⟨rfl, rfl⟩
  intro first hfirst last hlast id hid
  obtain ⟨j, hj, rfl⟩ := List.getElem_of_mem hid
  rw [List.head?_eq_getElem?, Option.mem_def, List.getElem?_eq_some_iff] at hfirst
  obtain ⟨hzero, rfl⟩ := hfirst
  rw [List.getLast?_eq_getElem?, Option.mem_def, List.getElem?_eq_some_iff] at hlast
  obtain ⟨hend, rfl⟩ := hlast
  constructor
  · rw [(hat 0 hzero).1, (hat j hj).1]
    exact Nat.add_le_add_left (start_mono _ _ (by omega)) _
  · rw [(hat j hj).2, (hat _ hend).2]
    exact Nat.add_le_add_left (start_mono _ _ (by omega)) _

/-! ## When the paths agree -/

/-- The results name `kv` for the layer, and nothing else. -/
def Delivers (results : List (Int × KvPair)) (layerId : Int) (kv : KvPair) : Prop :=
  (layerId, kv) ∈ results ∧ ∀ other, (layerId, other) ∈ results → other = kv

/-- The block read raises or returns what the reads layer by layer deliver, and does not raise on a run of
the section in stored order. -/
def PathsAgree (stored ids : List Int) (block progressive : Py (List (Int × KvPair))) : Prop :=
  (∀ loaded, block = .ok loaded → ∃ calls, progressive = .ok calls ∧
    ∀ id ∈ ids, ∃ kv, Delivers loaded id kv ∧ Delivers calls id kv) ∧
  (ids <:+: stored → ∃ loaded, block = .ok loaded)

variable (sectionMeta)

/-- Every requested tensor lies between the first K's start and the last V's end. -/
def InsideFirstLast (ids : List Int) : Prop :=
  ∀ first ∈ ids.head?, ∀ last ∈ ids.getLast?, ∀ firstK lastV,
    packedTensorMeta sectionMeta first "k" = .ok firstK →
    packedTensorMeta sectionMeta last "v" = .ok lastV →
    ∀ id ∈ ids, ∀ name ∈ ["k", "v"], ∀ item, packedTensorMeta sectionMeta id name = .ok item →
      firstK.offset ≤ item.offset ∧ item.end_ ≤ lastV.end_

/-- Every requested tensor starts at a multiple of its item size, counted from the first K. -/
def AlignedToFirst (ids : List Int) : Prop :=
  ∀ first ∈ ids.head?, ∀ firstK, packedTensorMeta sectionMeta first "k" = .ok firstK →
    ∀ id ∈ ids, ∀ name ∈ ["k", "v"], ∀ item, packedTensorMeta sectionMeta id name = .ok item →
      (item.dtype.itemsize : Int) ∣ item.offset - firstK.offset

/-- Every requested V starts at a multiple of its item size, counted from its own K. -/
def AlignedToOwn (ids : List Int) : Prop :=
  ∀ id ∈ ids, ∀ k v, packedTensorMeta sectionMeta id "k" = .ok k → packedTensorMeta sectionMeta id "v" = .ok v →
    (v.dtype.itemsize : Int) ∣ v.offset - k.offset

/-- A run is aligned to its first K, and where a block is read, each V is aligned to its own K. -/
def ReadsAligned (stored ids : List Int) : Prop :=
  (ids <:+: stored → AlignedToFirst sectionMeta ids) ∧
    (InsideFirstLast sectionMeta ids → AlignedToFirst sectionMeta ids → AlignedToOwn sectionMeta ids)

variable {sectionMeta}

theorem insideFirstLast_iff {ids : List Int}
    (hlayers : ∀ id ∈ ids, DescribedLayer bin sectionMeta id (off id) (pair id)) :
    InsideFirstLast sectionMeta ids ↔ CoversBlock off pair ids := by
  constructor
  · intro h first hfirst last hlast id hid
    have hfirstK := (hlayers first (List.mem_of_head? hfirst)).k.tensorMeta
    have hlastV := (hlayers last (List.mem_of_getLast? hlast)).v.tensorMeta
    have hk := h first hfirst last hlast _ _ hfirstK hlastV id hid "k" (by simp) _
      (hlayers id hid).k.tensorMeta
    have hv := h first hfirst last hlast _ _ hfirstK hlastV id hid "v" (by simp) _
      (hlayers id hid).v.tensorMeta
    simp only [KvPair.nbytes] at hk hv ⊢
    omega
  · intro h first hfirst last hlast firstK lastV hfirstK hlastV id hid name hname item hitem
    have hin := h first hfirst last hlast id hid
    obtain rfl := Except.ok.inj ((hlayers first (List.mem_of_head? hfirst)).k.tensorMeta.symm.trans hfirstK)
    obtain rfl := Except.ok.inj ((hlayers last (List.mem_of_getLast? hlast)).v.tensorMeta.symm.trans hlastV)
    simp only [KvPair.nbytes] at hin
    rcases List.mem_pair.mp hname with rfl | rfl
    · obtain rfl := Except.ok.inj ((hlayers id hid).k.tensorMeta.symm.trans hitem)
      simp only
      omega
    · obtain rfl := Except.ok.inj ((hlayers id hid).v.tensorMeta.symm.trans hitem)
      simp only
      omega

theorem dvd_offset_iff {itemsize offset base : Nat} (h : base ≤ offset) :
    (itemsize : Int) ∣ (offset : Int) - base ↔ itemsize ∣ offset - base := by
  rw [← Nat.cast_sub h, Int.natCast_dvd_natCast]

theorem alignedToFirst_iff {ids : List Int}
    (hlayers : ∀ id ∈ ids, DescribedLayer bin sectionMeta id (off id) (pair id))
    (hcovers : CoversBlock off pair ids) : AlignedToFirst sectionMeta ids ↔
      ∀ first ∈ ids.head?, ∀ id ∈ ids, AlignedFrom (off first) (off id) (pair id) := by
  have hle : ∀ first ∈ ids.head?, ∀ id ∈ ids, off first ≤ off id := by
    intro first hfirst id hid
    obtain ⟨last, hlast⟩ : ∃ last, ids.getLast? = some last :=
      ⟨_, List.getLast?_eq_some_getLast (List.ne_nil_of_mem hid)⟩
    exact (hcovers first hfirst last hlast id hid).1
  constructor
  · intro h first hfirst id hid
    have hfirstK := (hlayers first (List.mem_of_head? hfirst)).k.tensorMeta
    have hk := h first hfirst _ hfirstK id hid "k" (by simp) _ (hlayers id hid).k.tensorMeta
    have hv := h first hfirst _ hfirstK id hid "v" (by simp) _ (hlayers id hid).v.tensorMeta
    have := hle first hfirst id hid
    exact ⟨(dvd_offset_iff (by omega)).mp hk, (dvd_offset_iff (by omega)).mp hv⟩
  · intro h first hfirst firstK hfirstK id hid name hname item hitem
    obtain ⟨hk, hv⟩ := h first hfirst id hid
    have := hle first hfirst id hid
    obtain rfl := Except.ok.inj ((hlayers first (List.mem_of_head? hfirst)).k.tensorMeta.symm.trans hfirstK)
    rcases List.mem_pair.mp hname with rfl | rfl
    · obtain rfl := Except.ok.inj ((hlayers id hid).k.tensorMeta.symm.trans hitem)
      exact (dvd_offset_iff (by omega)).mpr hk
    · obtain rfl := Except.ok.inj ((hlayers id hid).v.tensorMeta.symm.trans hitem)
      exact (dvd_offset_iff (by omega)).mpr hv

theorem alignedToOwn_iff {ids : List Int}
    (hlayers : ∀ id ∈ ids, DescribedLayer bin sectionMeta id (off id) (pair id)) :
    AlignedToOwn sectionMeta ids ↔ ∀ id ∈ ids, AlignedFrom (off id) (off id) (pair id) := by
  constructor
  · intro h id hid
    have hv := h id hid _ _ (hlayers id hid).k.tensorMeta (hlayers id hid).v.tensorMeta
    refine ⟨?_, (dvd_offset_iff (by omega)).mp hv⟩
    rw [Nat.sub_self]
    exact Nat.dvd_zero _
  · intro h id hid k v hk hv
    obtain rfl := Except.ok.inj ((hlayers id hid).k.tensorMeta.symm.trans hk)
    obtain rfl := Except.ok.inj ((hlayers id hid).v.tensorMeta.symm.trans hv)
    exact (dvd_offset_iff (by omega)).mpr (h id hid).2

theorem delivers_map (pair : Int → KvPair) {ids : List Int} {id : Int} (hid : id ∈ ids) :
    Delivers (ids.map fun id => (id, pair id)) id (pair id) := by
  refine ⟨List.mem_map_of_mem hid, fun other hother => ?_⟩
  obtain ⟨_, -, hsame⟩ := List.mem_map.mp hother
  obtain ⟨rfl, rfl⟩ := Prod.mk.inj hsame
  rfl

/-- The block read and the reads layer by layer agree exactly if the requested tensors are aligned. -/
theorem readPaths_agree_iff (haccepted : readQueryMeta files = .ok queryMeta) (s : QuerySection)
    (hsection : queryMeta.item s.name = .ok sectionMeta) {stored : List Int}
    (hstored : s.storedIds queryMeta = .ok stored) {ids : List Int} (hids : ∀ id ∈ ids, id ∈ stored)
    (reads : List (Option Nat)) (layerReads : Int → List (Option Nat)) (slot layerSlot : Slot) :
    PathsAgree stored ids (loadQueryLayersToGpu memory reads files queryMeta s.name ids slot)
        (loadQueryLayersProgressively memory layerReads files queryMeta s.name ids layerSlot) ↔
      ReadsAligned sectionMeta stored ids := by
  obtain ⟨bin, found, listed, base, pairs, hbin, hfound, hlisted, hlaid⟩ := readQueryMeta_laidOut haccepted s
  obtain rfl := Except.ok.inj (hsection.symm.trans hfound)
  obtain rfl := Except.ok.inj (hstored.symm.trans hlisted)
  obtain ⟨off, pair, hall, hoff⟩ := hlaid.byId
  have hlayers := fun id hid => hall id (hids id hid)
  have hprogressive := loadQueryLayersProgressively_eq memory layerReads layerSlot ids hbin hsection hlayers
  cases hfirst : ids.head? with
  | none =>
    obtain rfl := List.head?_eq_none_iff.mp hfirst
    have hnone : ReadsAligned sectionMeta stored [] :=
      ⟨fun _ _ hmem => (Option.not_mem_none _ hmem).elim, fun _ _ id hid => absurd hid List.not_mem_nil⟩
    refine ⟨fun _ => hnone, fun _ => ⟨fun _ _ => ⟨[], rfl, fun id hid => ?_⟩, fun _ => ⟨[], rfl⟩⟩⟩
    exact absurd hid List.not_mem_nil
  | some first =>
    have hblock := loadQueryLayersToGpu_ok memory reads slot hbin hsection hlayers hfirst
    have hfirstOnly : ∀ other ∈ ids.head?, other = first := fun other hother =>
      Option.some.inj (hother.symm.trans hfirst)
    constructor
    · rintro ⟨hagree, hrun⟩
      refine ⟨fun hinfix => ?_, fun hinside haligned => ?_⟩
      · obtain ⟨loaded, hload⟩ := hrun hinfix
        obtain ⟨⟨hcovers, haligned⟩, -⟩ := (hblock loaded).mp hload
        refine (alignedToFirst_iff hlayers hcovers).mpr fun other hother => ?_
        rw [hfirstOnly other hother]
        exact haligned
      · have hcovers := (insideFirstLast_iff hlayers).mp hinside
        have hblockAligned := (alignedToFirst_iff hlayers hcovers).mp haligned first hfirst
        obtain ⟨calls, hcalls, -⟩ := hagree _ ((hblock _).mpr ⟨⟨hcovers, hblockAligned⟩, rfl⟩)
        rw [alignedToOwn_iff hlayers]
        by_contra hown
        rw [hprogressive, if_neg hown] at hcalls
        cases hcalls
    · rintro ⟨hrun, hown⟩
      refine ⟨fun loaded hload => ?_, fun hinfix => ?_⟩
      · obtain ⟨⟨hcovers, haligned⟩, rfl⟩ := (hblock loaded).mp hload
        have hinside := (insideFirstLast_iff hlayers).mpr hcovers
        have hownAligned := hown hinside ((alignedToFirst_iff hlayers hcovers).mpr fun other hother => by
          rw [hfirstOnly other hother]
          exact haligned)
        rw [hprogressive, if_pos ((alignedToOwn_iff hlayers).mp hownAligned)]
        exact ⟨_, rfl, fun id hid => ⟨pair id, delivers_map pair hid, delivers_map pair hid⟩⟩
      · have hcovers := covers_of_infix hlaid.length_eq hoff hinfix
        have haligned := (alignedToFirst_iff hlayers hcovers).mp (hrun hinfix) first hfirst
        exact ⟨_, (hblock _).mpr ⟨⟨hcovers, haligned⟩, rfl⟩⟩

/-- Two digest layers in five bytes: one byte of K alone, then K and V of two bytes each. -/
def mixedMeta : Json :=
  .obj [("format", .str queryCacheFormat),
    ("digest", .obj [("num_layers", .int 2), ("layers", .obj
      [("0", .obj [("k", tensorEntry 0 1 [1] "U8"), ("v", tensorEntry 1 0 [0] "U8")]),
        ("1", .obj [("k", tensorEntry 1 2 [1] "F16"), ("v", tensorEntry 3 2 [1] "F16")])])]),
    ("critical", .obj [("layer_ids", .arr []), ("layers", .obj [])])]

def mixedFiles : CacheFiles := ⟨some mixedMeta, some [7, 1, 2, 3, 4]⟩

/-- A slot whose pinned buffer has room for the five bytes. -/
def smallSlot : Slot := ⟨some ⟨[0, 0, 0, 0, 0], 5, rfl⟩, none⟩

/-- The block read of both layers raises where the reads layer by layer return. -/
theorem mixed_paths_differ : ∃ sectionMeta, readQueryMeta mixedFiles = .ok mixedMeta ∧
    mixedMeta.item QuerySection.digest.name = .ok sectionMeta ∧
    QuerySection.digest.storedIds mixedMeta = .ok [0, 1] ∧
    (loadQueryLayersProgressively (fun _ => 0) (fun _ => []) mixedFiles mixedMeta
      QuerySection.digest.name [0, 1] smallSlot).isOk = true ∧
    ¬ PathsAgree [0, 1] [0, 1]
      (loadQueryLayersToGpu (fun _ => 0) [] mixedFiles mixedMeta QuerySection.digest.name [0, 1] smallSlot)
      (loadQueryLayersProgressively (fun _ => 0) (fun _ => []) mixedFiles mixedMeta
        QuerySection.digest.name [0, 1] smallSlot) := by
  refine ⟨_, rfl, rfl, rfl, rfl, fun h => ?_⟩
  obtain ⟨loaded, hload⟩ := h.2 (List.infix_refl _)
  have herror : loadQueryLayersToGpu (fun _ => 0) [] mixedFiles mixedMeta QuerySection.digest.name [0, 1]
      smallSlot = .error misaligned := rfl
  rw [herror] at hload
  cases hload

/-- On the second layer alone, asked for twice, the paths agree exactly if it is aligned. -/
theorem readPaths_agree_iff_mixed : ∃ sectionMeta, mixedMeta.item QuerySection.digest.name = .ok sectionMeta ∧
    (PathsAgree [0, 1] [1, 1]
      (loadQueryLayersToGpu (fun _ => 0) [] mixedFiles mixedMeta QuerySection.digest.name [1, 1] smallSlot)
      (loadQueryLayersProgressively (fun _ => 0) (fun _ => []) mixedFiles mixedMeta
        QuerySection.digest.name [1, 1] smallSlot) ↔ ReadsAligned sectionMeta [0, 1] [1, 1]) :=
  ⟨_, rfl, readPaths_agree_iff (fun _ => 0) rfl .digest rfl rfl (by simp) [] (fun _ => []) smallSlot
    smallSlot⟩

end QCFuse.Guarantees
