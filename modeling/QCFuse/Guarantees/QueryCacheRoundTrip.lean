import QCFuse.Guarantees.ChunkCacheRoundTrip
import QCFuse.Source.QueryCache

/-!
# Query-cache round trip

The writer writes a repeated critical layer again, but keeps one metadata entry for it, that
of the last write. The loader expects each entry at the running offset, so a repeated layer
is accepted only when nothing was written between its first and its last occurrence.
-/

set_option autoImplicit false

namespace QCFuse.Guarantees

open QCFuse.Library QCFuse.Source

/-- The bytes a selection of `t` holds. -/
def selectedNbytes (t : Tensor) : Option (List Int) → Nat
  | none => t.nbytes
  | some idx => idx.length * t.rowBytes

theorem selectRows_nbytes {t s : Tensor} {idx : Option (List Int)}
    (h : selectRows t idx = .ok s) : s.nbytes = selectedNbytes t idx := by
  cases idx with
  | none => cases h; rfl
  | some idx =>
    cases hshape : t.shape with
    | cons n rest =>
      obtain ⟨-, hs, hd, -⟩ := Tensor.indexSelect_spec hshape h
      rw [selectedNbytes, Tensor.nbytes, Tensor.rowBytes, hs, hd, hshape, List.prod_cons,
        List.tail_cons, Nat.mul_assoc]
    | nil =>
      simp only [selectRows, Tensor.indexSelect] at h
      split at h
      next hnil =>
        split at h
        next hidx =>
          cases h
          rw [hidx, selectedNbytes, Tensor.nbytes, Tensor.rowBytes, hshape]
          simp
        next => cases h
      next hcons => simp [hshape] at hcons

/-- Between two occurrences of a critical layer id, no layer has a byte to write. -/
def RepeatsOnlyEmpty (getKv : LayerSource) (criticalLayers : List Int)
    (criticalTokenIndices : Option (List Int)) : Prop :=
  ∀ (p q : Nat) (hpq : p < q) (hq : q < criticalLayers.length),
    criticalLayers[p] = criticalLayers[q] →
      ∀ (r : Nat) (_ : p ≤ r) (hrq : r < q), ∀ k v, getKv criticalLayers[r] = .ok (some k, some v) →
        selectedNbytes k criticalTokenIndices + selectedNbytes v criticalTokenIndices = 0

/-- The loader accepts the files; the progressive path gives back any digest layers, and the
block path the critical layers in the stored order, as selected from the pool. -/
def QueryRoundTrip (files : CacheFiles) (getKv : LayerSource) (numDigestLayers : Nat)
    (digestTokenIndicesByLayer : List (List Int)) (criticalLayers : List Int)
    (criticalTokenIndices : Option (List Int)) : Prop :=
  ∃ info, (∀ sampleDir, loadQueryMeta none sampleDir files = .ok (info, some (sampleDir, info))) ∧
    (∀ layerIds : List Int, (∀ id ∈ layerIds, 0 ≤ id ∧ id < numDigestLayers) →
      ∀ memory reads slot, ∃ calls,
        loadQueryLayersProgressively memory reads files info "digest" layerIds slot = .ok calls ∧
        calls.map Prod.fst = layerIds ∧
        ∀ call ∈ calls, SelectedFrom getKv
          (fun id => (pyIndex digestTokenIndicesByLayer id).map some) call.1 call.2) ∧
    ∀ memory reads slot, ∃ loaded,
      loadQueryLayersToGpu memory reads files info "critical" criticalLayers slot = .ok loaded ∧
      loaded.map Prod.fst = criticalLayers ∧
      ∀ entry ∈ loaded, SelectedFrom getKv (fun _ => .ok criticalTokenIndices) entry.1 entry.2

/-- Reading one layer of a section gives what the section stores for it. -/
private theorem readQueryLayer_copy (memory : Nat → UInt8) (reads : List (Option Nat))
    {bin : Bytes} {info packedMeta : Json} {sectionName : String} {id : Int} {off : Nat}
    {p : KvPair} {d : Dtype} (slot : Slot)
    (hpacked : querySectionLayersAsPackedMeta info sectionName [id] = .ok packedMeta)
    (hstored : Stored bin packedMeta id off p) (hdtype : p.OfDtype d) :
    ∃ slot', readQueryLayerFromOpenFile memory reads bin info sectionName id slot = .ok slot' ∧
      copyPackedLayerFromBlockToGpu slot' id = .ok p := by
  obtain ⟨hk, hv⟩ := packedTensorMeta_of_entry hstored.entry
  obtain ⟨slot', hfill, hcopy⟩ := fillSlot_copy memory reads packedMeta [id] off p.nbytes slot d
    hstored.inside
  have hdiff : ((off + p.nbytes : Nat) : Int) - off = p.nbytes := by omega
  refine ⟨slot', ?_, hcopy id off p hstored hdtype (Nat.le_refl _) (Nat.le_refl _) ?_⟩
  · simp only [readQueryLayerFromOpenFile, hpacked, hk, hv, bind, Except.bind, hdiff]
    exact hfill
  · rw [Nat.sub_self]
    exact Nat.dvd_zero _

/-- Each id has a last occurrence. -/
theorem exists_last (ids : List Int) {p : Nat} (hp : p < ids.length) :
    ∃ (q : Nat) (hq : q < ids.length), p ≤ q ∧ ids[q] = ids[p] ∧
      ∀ j (hj : j < ids.length), q < j → ids[j] ≠ ids[q] := by
  induction hn : ids.length - p using Nat.strong_induction_on generalizing p with
  | _ n ih =>
    by_cases hlast : ∀ j (hj : j < ids.length), p < j → ids[j] ≠ ids[p]
    · exact ⟨p, hp, Nat.le_refl _, rfl, hlast⟩
    · push Not at hlast
      obtain ⟨j, hj, hpj, heq⟩ := hlast
      obtain ⟨q, hq, hjq, heq', hlast'⟩ := ih (ids.length - j) (by omega) hj rfl
      exact ⟨q, hq, by omega, heq'.trans heq, hlast'⟩

private theorem progressive_ok (memory : Nat → UInt8) (reads : Int → List (Option Nat))
    {files : CacheFiles} {bin : Bytes} (hbin : files.binFile = some bin) {info : Json}
    {sectionName : String} {ids : List Int} (pair : Int → KvPair) (d : Dtype)
    (h : ∀ id ∈ ids, ∃ packedMeta off, querySectionLayersAsPackedMeta info sectionName [id] =
      .ok packedMeta ∧ Stored bin packedMeta id off (pair id) ∧ (pair id).OfDtype d)
    (slot : Slot) :
    loadQueryLayersProgressively memory reads files info sectionName ids slot =
      .ok (ids.map fun id => (id, pair id)) := by
  induction ids generalizing slot with
  | nil => rfl
  | cons id ids ih =>
    obtain ⟨packedMeta, off, hpacked, hstored, hdtype⟩ := h id List.mem_cons_self
    obtain ⟨slot', hread, hcopy⟩ := readQueryLayer_copy memory (reads id) ⟨slot.pinBuf, none⟩
      hpacked hstored hdtype
    have hrest := ih (fun other hother => h other (List.mem_cons_of_mem _ hother)) slot'
    simp only [loadQueryLayersProgressively, hbin, hread, hcopy, hrest, bind, Except.bind, pure,
      Except.pure, List.map_cons]

private theorem mapM_copy_ok {slot : Slot} {ids : List Int} (pair : Int → KvPair)
    (h : ∀ id ∈ ids, copyPackedLayerFromBlockToGpu slot id = .ok (pair id)) :
    (ids.mapM fun layerId => do
      return (layerId, ← copyPackedLayerFromBlockToGpu slot layerId) : Py (List (Int × KvPair))) =
      .ok (ids.map fun id => (id, pair id)) := by
  induction ids with
  | nil => rfl
  | cons id ids ih =>
    have hrest := ih fun other hother => h other (List.mem_cons_of_mem _ hother)
    rw [List.mapM_cons, h id List.mem_cons_self, hrest]
    rfl

section Saved

variable {getKv : LayerSource} {digestTokenIndicesByLayer : List (List Int)}
  {criticalLayers : List Int} {criticalTokenIndices : Option (List Int)} {numDigestLayers : Nat}
  {digestPairs criticalPairs : List KvPair} {digestLayers criticalLayerMetas : List (String × Json)}

/-- The bytes of both sections. -/
private abbrev sectionBytes (digestPairs criticalPairs : List KvPair) : Bytes :=
  digestPairs.flatMap KvPair.bytes ++ criticalPairs.flatMap KvPair.bytes

private abbrev DigestWritten (getKv : LayerSource) (digestTokenIndicesByLayer : List (List Int))
    (numDigestLayers : Nat) (digestLayers : List (String × Json)) (digestPairs : List KvPair) :
    Prop :=
  LayersWritten (digestLayerKv getKv digestTokenIndicesByLayer) (layerRange numDigestLayers) []
    digestLayers ⟨[], 0⟩
    ⟨digestPairs.flatMap KvPair.bytes, (digestPairs.map KvPair.nbytes).sum⟩ digestPairs

private abbrev CriticalWritten (getKv : LayerSource) (criticalTokenIndices : Option (List Int))
    (criticalLayers : List Int) (criticalLayerMetas : List (String × Json))
    (digestPairs criticalPairs : List KvPair) : Prop :=
  LayersWritten (criticalLayerKv getKv criticalTokenIndices) criticalLayers [] criticalLayerMetas
    ⟨digestPairs.flatMap KvPair.bytes, (digestPairs.map KvPair.nbytes).sum⟩
    ⟨sectionBytes digestPairs criticalPairs,
      (digestPairs.map KvPair.nbytes).sum + (criticalPairs.map KvPair.nbytes).sum⟩ criticalPairs

private theorem length_section (pairs : List KvPair) :
    (pairs.flatMap KvPair.bytes).length = (pairs.map KvPair.nbytes).sum :=
  length_flatMap_size _ _ KvPair.length_bytes pairs

/-- A digest layer is stored at its start, and is what was selected for it. -/
private theorem digest_stored (criticalPairs : List KvPair)
    (written : DigestWritten getKv digestTokenIndicesByLayer numDigestLayers digestLayers
      digestPairs) {l : Nat} (hl : l < numDigestLayers) :
    ∃ layer, Json.lookup? (toString (l : Int)) digestLayers = some layer ∧
      LayerEntry (start KvPair.nbytes digestPairs l) (digestPairs[l]?.getD default) layer ∧
      start KvPair.nbytes digestPairs l + (digestPairs[l]?.getD default).nbytes ≤
        (sectionBytes digestPairs criticalPairs).length ∧
      slice (sectionBytes digestPairs criticalPairs) (start KvPair.nbytes digestPairs l)
        (digestPairs[l]?.getD default).nbytes = (digestPairs[l]?.getD default).bytes ∧
      SelectedFrom getKv (fun id => (pyIndex digestTokenIndicesByLayer id).map some) l
        (digestPairs[l]?.getD default) := by
  have hl' : l < (layerRange numDigestLayers).length := by simpa using hl
  have hlp : l < digestPairs.length := by rw [written.length_eq]; exact hl'
  obtain ⟨layer, hlook, hentry⟩ := written.entry l hl' hlp fun j hj hij =>
    layerRange_distinct hl' hj hij
  obtain ⟨hinside, hbytes⟩ := written.bytes_at rfl hlp (criticalPairs.flatMap KvPair.bytes)
  have hsel := written.selected l hl' hlp
  rw [getElem_layerRange] at hlook hsel
  rw [Nat.zero_add] at hinside hbytes hentry
  rw [List.getElem?_eq_getElem hlp, Option.getD_some]
  refine ⟨layer, hlook, hentry, hinside, hbytes, ?_⟩
  obtain ⟨idx, hidx, hsel⟩ := bind_ok hsel
  obtain ⟨kv, hkv, hsel⟩ := bind_ok hsel
  obtain ⟨fullK, fullV, idx', rfl, hidx', hk, hv⟩ := selectKv_ok hsel
  cases hidx'
  exact ⟨fullK, fullV, some idx, hkv, by simp only [hidx]; rfl, hk, hv⟩

private theorem critical_selected
    (written : CriticalWritten getKv criticalTokenIndices criticalLayers criticalLayerMetas
      digestPairs criticalPairs) {i : Nat} (hi : i < criticalLayers.length)
    (hi' : i < criticalPairs.length) :
    SelectedFrom getKv (fun _ => .ok criticalTokenIndices) criticalLayers[i] criticalPairs[i] := by
  have hsel := written.selected i hi hi'
  obtain ⟨kv, hkv, hsel⟩ := bind_ok hsel
  obtain ⟨fullK, fullV, idx, rfl, hidx, hk, hv⟩ := selectKv_ok hsel
  exact ⟨fullK, fullV, idx, hkv, hidx, hk, hv⟩

/-- Occurrences of one id were written from the same pair. -/
private theorem critical_pair_eq
    (written : CriticalWritten getKv criticalTokenIndices criticalLayers criticalLayerMetas
      digestPairs criticalPairs) {i j : Nat} (hi : i < criticalLayers.length)
    (hj : j < criticalLayers.length) (hi' : i < criticalPairs.length)
    (hj' : j < criticalPairs.length) (heq : criticalLayers[i] = criticalLayers[j]) :
    criticalPairs[i] = criticalPairs[j] := by
  have hseli := written.selected i hi hi'
  have hselj := written.selected j hj hj'
  rw [heq, hselj] at hseli
  exact (Except.ok.inj hseli).symm

/-- The condition speaks of the starts at which the layers were written. -/
private theorem repeatsOnlyEmpty_iff_starts
    (written : CriticalWritten getKv criticalTokenIndices criticalLayers criticalLayerMetas
      digestPairs criticalPairs) :
    RepeatsOnlyEmpty getKv criticalLayers criticalTokenIndices ↔
      ∀ (p q : Nat) (_ : p < q) (hq : q < criticalLayers.length),
        criticalLayers[p] = criticalLayers[q] →
        start KvPair.nbytes criticalPairs p = start KvPair.nbytes criticalPairs q := by
  have hlen := written.length_eq
  have hsize : ∀ (r : Nat) (hr : r < criticalLayers.length) (hr' : r < criticalPairs.length)
      (k v : Tensor), getKv criticalLayers[r] = .ok (some k, some v) →
      criticalPairs[r].nbytes =
        selectedNbytes k criticalTokenIndices + selectedNbytes v criticalTokenIndices := by
    intro r hr hr' k v hkv
    obtain ⟨fullK, fullV, idx, hkv', hidx, hk, hv⟩ := critical_selected written hr hr'
    rw [hkv] at hkv'
    cases hkv'
    cases hidx
    rw [KvPair.nbytes, selectRows_nbytes hk, selectRows_nbytes hv]
  constructor
  · intro hempty p q hpq hq heq
    refine (start_eq_start_iff _ _ hpq.le (by omega)).mpr fun r hr hpr hrq => ?_
    obtain ⟨fullK, fullV, idx, hkv, -, -, -⟩ := critical_selected written (by omega : r < _) hr
    rw [hsize r (by omega) hr fullK fullV hkv]
    exact hempty p q hpq hq heq r hpr hrq fullK fullV hkv
  · intro hstarts p q hpq hq heq r hpr hrq k v hkv
    have hr : r < criticalPairs.length := by omega
    rw [← hsize r (by omega) hr k v hkv]
    exact (start_eq_start_iff _ _ hpq.le (by omega)).mp (hstarts p q hpq hq heq) r hr hpr hrq

/-- The entry of a critical id is the one of its last occurrence. -/
private theorem critical_entry
    (written : CriticalWritten getKv criticalTokenIndices criticalLayers criticalLayerMetas
      digestPairs criticalPairs) {i : Nat} (hi : i < criticalLayers.length)
    (hi' : i < criticalPairs.length) :
    ∃ (q : Nat) (hq : q < criticalLayers.length), i ≤ q ∧ criticalLayers[q] = criticalLayers[i] ∧
      (∀ j (hj : j < criticalLayers.length), q < j → criticalLayers[j] ≠ criticalLayers[q]) ∧
      ∃ layer, Json.lookup? (toString criticalLayers[i]) criticalLayerMetas = some layer ∧
        LayerEntry ((digestPairs.map KvPair.nbytes).sum + start KvPair.nbytes criticalPairs q)
          criticalPairs[i] layer ∧
        (digestPairs.map KvPair.nbytes).sum + start KvPair.nbytes criticalPairs q +
          criticalPairs[i].nbytes ≤ (sectionBytes digestPairs criticalPairs).length := by
  obtain ⟨q, hq, hiq, heq, hlast⟩ := exists_last criticalLayers hi
  have hq' : q < criticalPairs.length := by rw [written.length_eq]; exact hq
  have hpair : criticalPairs[q] = criticalPairs[i] := critical_pair_eq written hq hi hq' hi' heq
  obtain ⟨layer, hlook, hentry⟩ := written.entry q hq hq' hlast
  obtain ⟨hinside, -⟩ := written.bytes_at (length_section digestPairs).symm hq' []
  rw [List.append_nil, hpair] at hinside
  rw [heq] at hlook
  rw [hpair] at hentry
  exact ⟨q, hq, hiq, heq, hlast, layer, hlook, hentry, hinside⟩

/-- After the digest section, the loader's answer is that of the critical section's checks. -/
private theorem readQueryMeta_eq (digestMeta indicesByMethod : List (String × Json))
    (method : String)
    (written : DigestWritten getKv digestTokenIndicesByLayer numDigestLayers digestLayers
      digestPairs) :
    readQueryMeta ⟨some (queryMetadata digestMeta indicesByMethod method numDigestLayers
        criticalLayers digestLayers criticalLayerMetas),
        some (sectionBytes digestPairs criticalPairs)⟩ =
      (validateLayers "query cache" criticalLayerMetas (sectionBytes digestPairs criticalPairs).length
        criticalLayers ((digestPairs.map KvPair.nbytes).sum : Nat) >>= fun stop =>
        if stop ≠ (sectionBytes digestPairs criticalPairs).length then
          .error (.valueError "Query cache size mismatch")
        else .ok (queryMetadata digestMeta indicesByMethod method numDigestLayers criticalLayers
          digestLayers criticalLayerMetas)) := by
  have hvalid := validateLayers_ok "query cache" (sectionBytes digestPairs criticalPairs).length 0
    written.length_eq
    (fun i hi hi' => written.entry i hi hi' fun j hj hij => layerRange_distinct hi hj hij)
    (by rw [List.length_append, length_section]; omega)
  rw [Nat.zero_add, Nat.cast_zero] at hvalid
  have hdigest : validateQueryLayers (.obj [("num_layers", .int numDigestLayers),
      ("layers", .obj digestLayers)]) (sectionBytes digestPairs criticalPairs).length
      ((layerRange numDigestLayers).map .int) 0 = .ok ((digestPairs.map KvPair.nbytes).sum : Nat) := by
    rw [← hvalid]
    exact validateQueryLayers_eq (by simp [Json.lookup?]) _ _ _
  have hcritical : validateQueryLayers (.obj [("layer_ids", .ofInts criticalLayers),
      ("layers", .obj criticalLayerMetas)]) (sectionBytes digestPairs criticalPairs).length
      (criticalLayers.map .int) ((digestPairs.map KvPair.nbytes).sum : Nat) =
      validateLayers "query cache" criticalLayerMetas (sectionBytes digestPairs criticalPairs).length
        criticalLayers ((digestPairs.map KvPair.nbytes).sum : Nat) :=
    validateQueryLayers_eq (by simp [Json.lookup?]) _ _ _
  obtain ⟨hformat, hdigestGet, hcriticalGet⟩ := queryMetadata_get digestMeta indicesByMethod method
    numDigestLayers criticalLayers digestLayers criticalLayerMetas
  have hlayers : Json.get (.obj [("num_layers", .int numDigestLayers),
      ("layers", .obj digestLayers)]) "num_layers" = .ok (.int numDigestLayers) := by
    simp [Json.get, Json.lookup?]
  have hids : Json.getD (.obj [("layer_ids", .ofInts criticalLayers),
      ("layers", .obj criticalLayerMetas)]) "layer_ids" (.arr []) =
      .ok (.arr (criticalLayers.map .int)) := by
    simp [Json.getD, Json.lookup?, Json.ofInts]
  have hneg : ¬ ((numDigestLayers : Int) < 0) := by omega
  rw [← hcritical]
  simp only [readQueryMeta, hformat, hdigestGet, hcriticalGet, bind, Except.bind]
  simp only [ne_eq, not_true_eq_false, if_false, Json.isDict, Bool.true_eq_false, or_self, hlayers,
    Json.asInt?, hneg, hids, Int.toNat_natCast, hdigest]
  rfl

/-- Accepted critical entries lie at the starts of all their occurrences. -/
private theorem repeatsOnlyEmpty_of_accepted
    (written : CriticalWritten getKv criticalTokenIndices criticalLayers criticalLayerMetas
      digestPairs criticalPairs) {stop : Int}
    (h : validateLayers "query cache" criticalLayerMetas
      (sectionBytes digestPairs criticalPairs).length criticalLayers
      ((digestPairs.map KvPair.nbytes).sum : Nat) = .ok stop) :
    RepeatsOnlyEmpty getKv criticalLayers criticalTokenIndices := by
  have hlen := written.length_eq
  rw [repeatsOnlyEmpty_iff_starts written]
  have hentries : ∀ i : Nat, ∃ q : Nat, ∀ (hi : i < criticalLayers.length)
      (hi' : i < criticalPairs.length),
      (∀ j (hj : j < criticalLayers.length), criticalLayers[j] = criticalLayers[i] → j ≤ q) ∧
      ∃ layer, Json.lookup? (toString criticalLayers[i]) criticalLayerMetas = some layer ∧
        LayerEntry ((digestPairs.map KvPair.nbytes).sum + start KvPair.nbytes criticalPairs q)
          criticalPairs[i] layer ∧
        (digestPairs.map KvPair.nbytes).sum + start KvPair.nbytes criticalPairs q +
          criticalPairs[i].nbytes ≤ (sectionBytes digestPairs criticalPairs).length := by
    intro i
    by_cases hi : i < criticalLayers.length
    · obtain ⟨q, hq, -, heq, hlast, hentry⟩ := critical_entry written hi (by omega)
      refine ⟨q, fun _ _ => ⟨fun j hj hji => ?_, hentry⟩⟩
      by_contra hjq
      exact hlast j hj (by omega) (hji.trans heq.symm)
    · exact ⟨0, fun hi' => absurd hi' hi⟩
  choose last hentries using hentries
  have hat := validateLayers_accepted "query cache"
    (fun i => (digestPairs.map KvPair.nbytes).sum + start KvPair.nbytes criticalPairs (last i)) hlen
    (fun i hi hi' => (hentries i hi hi').2) h
  intro p q hpq hq heq
  have hp := hat p (by omega)
  have hqLast : q ≤ last p := (hentries p (by omega) (by omega)).1 q hq heq.symm
  have hpqStart := start_mono KvPair.nbytes criticalPairs hpq.le
  have hqlStart := start_mono KvPair.nbytes criticalPairs hqLast
  omega

/-- When the condition holds, every critical id is stored at the start of each of its
occurrences. -/
private theorem critical_stored
    (written : CriticalWritten getKv criticalTokenIndices criticalLayers criticalLayerMetas
      digestPairs criticalPairs)
    (hempty : RepeatsOnlyEmpty getKv criticalLayers criticalTokenIndices) {i : Nat}
    (hi : i < criticalLayers.length) (hi' : i < criticalPairs.length) :
    ∃ layer, Json.lookup? (toString criticalLayers[i]) criticalLayerMetas = some layer ∧
      LayerEntry ((digestPairs.map KvPair.nbytes).sum + start KvPair.nbytes criticalPairs i)
        criticalPairs[i] layer ∧
      (digestPairs.map KvPair.nbytes).sum + start KvPair.nbytes criticalPairs i +
        criticalPairs[i].nbytes ≤ (sectionBytes digestPairs criticalPairs).length ∧
      slice (sectionBytes digestPairs criticalPairs)
        ((digestPairs.map KvPair.nbytes).sum + start KvPair.nbytes criticalPairs i)
        criticalPairs[i].nbytes = criticalPairs[i].bytes := by
  obtain ⟨q, hq, hiq, heq, -, layer, hlook, hentry, -⟩ := critical_entry written hi hi'
  have hstart : start KvPair.nbytes criticalPairs q = start KvPair.nbytes criticalPairs i := by
    rcases Nat.eq_or_lt_of_le hiq with rfl | hlt
    · rfl
    · exact ((repeatsOnlyEmpty_iff_starts written).mp hempty i q hlt hq heq.symm).symm
  obtain ⟨hinside, hbytes⟩ := written.bytes_at (length_section digestPairs).symm hi' []
  rw [List.append_nil] at hinside hbytes
  rw [hstart] at hentry
  exact ⟨layer, hlook, hentry, hinside, hbytes⟩

/-- The digest section reads back layer by layer, in any order. -/
private theorem digest_readback {digestMeta indicesByMethod : List (String × Json)}
    {method : String} {d : Dtype}
    (written : DigestWritten getKv digestTokenIndicesByLayer numDigestLayers digestLayers
      digestPairs)
    (oneDtype : ∀ (l : Int) k v, getKv l = .ok (some k, some v) → k.dtype = d ∧ v.dtype = d)
    {layerIds : List Int} (hrange : ∀ id ∈ layerIds, 0 ≤ id ∧ id < numDigestLayers)
    (memory : Nat → UInt8) (reads : Int → List (Option Nat)) (slot : Slot) :
    ∃ calls, loadQueryLayersProgressively memory reads
        ⟨some (queryMetadata digestMeta indicesByMethod method numDigestLayers criticalLayers
          digestLayers criticalLayerMetas), some (sectionBytes digestPairs criticalPairs)⟩
        (queryMetadata digestMeta indicesByMethod method numDigestLayers criticalLayers
          digestLayers criticalLayerMetas) "digest" layerIds slot = .ok calls ∧
      calls.map Prod.fst = layerIds ∧
      ∀ call ∈ calls, SelectedFrom getKv
        (fun id => (pyIndex digestTokenIndicesByLayer id).map some) call.1 call.2 := by
  have hitem := (queryMetadata_item digestMeta indicesByMethod method numDigestLayers
    criticalLayers digestLayers criticalLayerMetas).1
  let pair : Int → KvPair := fun id => digestPairs[id.toNat]?.getD default
  have hselected : ∀ id ∈ layerIds, SelectedFrom getKv
      (fun id => (pyIndex digestTokenIndicesByLayer id).map some) id (pair id) := by
    intro id hid
    obtain ⟨l, rfl⟩ := Int.eq_ofNat_of_zero_le (hrange id hid).1
    have hl : l < numDigestLayers := by have := (hrange l hid).2; omega
    obtain ⟨_, -, -, -, -, hsel⟩ := digest_stored [] written hl
    exact hsel
  have hlayers : Json.lookup? "layers" [("num_layers", .int numDigestLayers),
      ("layers", .obj digestLayers)] = some (.obj digestLayers) := by simp [Json.lookup?]
  refine ⟨_, progressive_ok memory reads rfl pair d (fun id hid => ?_) slot, ?_, ?_⟩
  · obtain ⟨l, rfl⟩ := Int.eq_ofNat_of_zero_le (hrange id hid).1
    have hl : l < numDigestLayers := by have := (hrange l hid).2; omega
    obtain ⟨layer, hlook, hentry, hinside, hbytes, -⟩ := digest_stored criticalPairs written hl
    obtain ⟨packedMeta, hpacked, hstored⟩ := querySection_stored
      (sectionBytes digestPairs criticalPairs) hitem hlayers [(l : Int)]
      (fun id => start KvPair.nbytes digestPairs id.toNat) pair (fun other hother => by
        obtain rfl := List.mem_singleton.mp hother
        exact ⟨layer, hlook, hentry, hinside, hbytes⟩)
    exact ⟨packedMeta, _, hpacked, hstored l (List.mem_singleton.mpr rfl),
      (hselected l hid).ofDtype (oneDtype l)⟩
  · rw [List.map_map]
    exact List.map_id _
  · intro call hcall
    obtain ⟨id, hid, rfl⟩ := List.mem_map.mp hcall
    exact hselected id hid

/-- The critical section reads back as one block. -/
private theorem critical_readback {digestMeta indicesByMethod : List (String × Json)}
    {method : String} {d : Dtype}
    (written : CriticalWritten getKv criticalTokenIndices criticalLayers criticalLayerMetas
      digestPairs criticalPairs)
    (oneDtype : ∀ (l : Int) k v, getKv l = .ok (some k, some v) → k.dtype = d ∧ v.dtype = d)
    (hempty : RepeatsOnlyEmpty getKv criticalLayers criticalTokenIndices)
    (memory : Nat → UInt8) (reads : List (Option Nat)) (slot : Slot) :
    ∃ loaded, loadQueryLayersToGpu memory reads
        ⟨some (queryMetadata digestMeta indicesByMethod method numDigestLayers criticalLayers
          digestLayers criticalLayerMetas), some (sectionBytes digestPairs criticalPairs)⟩
        (queryMetadata digestMeta indicesByMethod method numDigestLayers criticalLayers
          digestLayers criticalLayerMetas) "critical" criticalLayers slot = .ok loaded ∧
      loaded.map Prod.fst = criticalLayers ∧
      ∀ entry ∈ loaded, SelectedFrom getKv (fun _ => .ok criticalTokenIndices) entry.1 entry.2 := by
  have hitem := (queryMetadata_item digestMeta indicesByMethod method numDigestLayers
    criticalLayers digestLayers criticalLayerMetas).2
  have hlen := written.length_eq
  let pair : Int → KvPair := fun id => criticalPairs[criticalLayers.idxOf id]?.getD default
  let off : Int → Nat := fun id => (digestPairs.map KvPair.nbytes).sum +
    start KvPair.nbytes criticalPairs (criticalLayers.idxOf id)
  have hidx : ∀ id ∈ criticalLayers, criticalLayers.idxOf id < criticalPairs.length := by
    intro id hid
    rw [hlen]
    exact List.idxOf_lt_length_of_mem hid
  have hpair : ∀ id (h : criticalLayers.idxOf id < criticalPairs.length),
      pair id = criticalPairs[criticalLayers.idxOf id] := by
    intro id h
    simp only [pair, List.getElem?_eq_getElem h, Option.getD_some]
  have hselected : ∀ id ∈ criticalLayers,
      SelectedFrom getKv (fun _ => .ok criticalTokenIndices) id (pair id) := by
    intro id hid
    have hsel := critical_selected written (List.idxOf_lt_length_of_mem hid) (hidx id hid)
    rwa [List.getElem_idxOf, ← hpair id] at hsel
  have hdtype : ∀ id ∈ criticalLayers, (pair id).OfDtype d := fun id hid =>
    (hselected id hid).ofDtype (oneDtype id)
  have hlayers : Json.lookup? "layers" [("layer_ids", .ofInts criticalLayers),
      ("layers", .obj criticalLayerMetas)] = some (.obj criticalLayerMetas) := by
    simp [Json.lookup?]
  obtain ⟨packedMeta, hpacked, hstored⟩ := querySection_stored
    (sectionBytes digestPairs criticalPairs) hitem hlayers criticalLayers off pair (fun id hid => by
      obtain ⟨layer, hlook, hentry, hinside, hbytes⟩ :=
        critical_stored written hempty (List.idxOf_lt_length_of_mem hid) (hidx id hid)
      rw [List.getElem_idxOf] at hlook
      rw [hpair id (hidx id hid)]
      exact ⟨layer, hlook, hentry, hinside, hbytes⟩)
  refine ⟨criticalLayers.map fun id => (id, pair id), ?_, ?_, ?_⟩
  · by_cases hne : criticalLayers = []
    · simp only [hne, loadQueryLayersToGpu, List.map_nil]
    · -- a repeated layer's first occurrence ends where its last one does
      have hend : ∀ i (hi : i < criticalLayers.length), off criticalLayers[i] +
          (pair criticalLayers[i]).nbytes = (digestPairs.map KvPair.nbytes).sum +
            start KvPair.nbytes criticalPairs (i + 1) := by
        intro i hi
        have hi' : i < criticalPairs.length := by omega
        have hmem : criticalLayers[i] ∈ criticalLayers := List.getElem_mem hi
        have hfirst : criticalLayers.idxOf criticalLayers[i] ≤ i := by
          by_contra hlt
          have hbefore := List.not_of_lt_findIdx (Nat.lt_of_not_le hlt)
          simp at hbefore
        have hfirst' : criticalLayers.idxOf criticalLayers[i] < criticalLayers.length := by omega
        have heq : criticalLayers[criticalLayers.idxOf criticalLayers[i]] = criticalLayers[i] :=
          List.getElem_idxOf _
        have hstart : start KvPair.nbytes criticalPairs (criticalLayers.idxOf criticalLayers[i]) =
            start KvPair.nbytes criticalPairs i := by
          rcases Nat.eq_or_lt_of_le hfirst with hsame | hlt
          · rw [hsame]
          · exact (repeatsOnlyEmpty_iff_starts written).mp hempty _ i hlt hi heq
        rw [hpair _ (hidx _ hmem), critical_pair_eq written (by omega) hi (by omega) hi' heq,
          start_succ _ _ hi']
        simp only [off, hstart]
        omega
      have hall : ∀ p ∈ criticalPairs, KvPair.OfDtype d p := by
        intro p hp
        obtain ⟨i, hi, rfl⟩ := List.getElem_of_mem hp
        exact (critical_selected written (by omega) hi).ofDtype (oneDtype _)
      have hhead : off (criticalLayers.head hne) = (digestPairs.map KvPair.nbytes).sum := by
        obtain ⟨first, rest, hcons⟩ := List.exists_cons_of_ne_nil hne
        simp [off, hcons]
      obtain ⟨slot', hread, hcopy⟩ := readBlockToSlot_copy "query cache" "Query cache" memory reads
        ⟨slot.pinBuf, none⟩ d off pair hne hstored hdtype
        (fun id hid => by
          rw [hhead]
          exact Nat.le_add_right _ _)
        (fun id hid => by
          have hlastEnd := hend (criticalLayers.length - 1)
            (by have := List.length_pos_iff.mpr hne; omega)
          have hidEnd := hend (criticalLayers.idxOf id) (List.idxOf_lt_length_of_mem hid)
          have hlt := List.idxOf_lt_length_of_mem hid
          rw [List.getElem_idxOf] at hidEnd
          rw [← List.getLast_eq_getElem hne] at hlastEnd
          rw [hlastEnd, hidEnd]
          exact Nat.add_le_add_left (start_mono _ _ (by omega)) _)
        (fun id hid => by
          rw [hhead]
          simp only [off, Nat.add_sub_cancel_left]
          exact KvPair.itemsize_dvd_start criticalPairs hall _)
      obtain ⟨first, rest, hcons⟩ := List.exists_cons_of_ne_nil hne
      have hslot : readQueryLayersToSlot memory reads
          ⟨some (queryMetadata digestMeta indicesByMethod method numDigestLayers criticalLayers
            digestLayers criticalLayerMetas), some (sectionBytes digestPairs criticalPairs)⟩
          (queryMetadata digestMeta indicesByMethod method numDigestLayers criticalLayers
            digestLayers criticalLayerMetas) "critical" criticalLayers ⟨slot.pinBuf, none⟩ =
          .ok slot' := by
        rw [hcons] at hpacked hread ⊢
        simp only [readQueryLayersToSlot, hpacked, bind, Except.bind]
        exact hread
      have hcopied := mapM_copy_ok pair hcopy
      rw [hcons] at hslot hcopied ⊢
      simp only [loadQueryLayersToGpu, hslot, bind, Except.bind]
      exact hcopied
  · rw [List.map_map]
    exact List.map_id _
  · intro entry hentry
    obtain ⟨id, hid, rfl⟩ := List.mem_map.mp hentry
    exact hselected id hid

end Saved

/-- The loader accepts files in which no critical layer id is repeated around bytes only. -/
private theorem repeatsOnlyEmpty_of_roundTrip {index : DigestIndex} {getKv : LayerSource}
    {numDigestLayers : Nat} {digestTokenIndicesByLayer : List (List Int)}
    {criticalLayers : List Int} {criticalTokenIndices : Option (List Int)} {files : CacheFiles}
    (saved : saveAllQueryCache index getKv numDigestLayers digestTokenIndicesByLayer criticalLayers
      criticalTokenIndices = .ok files)
    (roundTrip : QueryRoundTrip files getKv numDigestLayers digestTokenIndicesByLayer criticalLayers
      criticalTokenIndices) :
    RepeatsOnlyEmpty getKv criticalLayers criticalTokenIndices := by
  obtain ⟨digestMeta, indicesByMethod, method, digestPairs, criticalPairs, digestLayers,
    criticalLayerMetas, -, rfl, writtenD, writtenC⟩ := saveAllQueryCache_spec saved
  rw [Int.toNat_natCast] at writtenD
  obtain ⟨info, hload, -, -⟩ := roundTrip
  obtain ⟨info', hinfo, -⟩ := bind_ok (hload "")
  rw [readQueryMeta_eq digestMeta indicesByMethod method writtenD] at hinfo
  obtain ⟨stop, hstop, -⟩ := bind_ok hinfo
  exact repeatsOnlyEmpty_of_accepted writtenC hstop

/-- Without repeats around bytes the loader accepts the files. -/
theorem readQueryMeta_accepts {index : DigestIndex} {getKv : LayerSource}
    {numDigestLayers : Nat} {digestTokenIndicesByLayer : List (List Int)}
    {criticalLayers : List Int} {criticalTokenIndices : Option (List Int)} {files : CacheFiles}
    (saved : saveAllQueryCache index getKv numDigestLayers digestTokenIndicesByLayer criticalLayers
      criticalTokenIndices = .ok files)
    (hempty : RepeatsOnlyEmpty getKv criticalLayers criticalTokenIndices) :
    ∃ info, readQueryMeta files = .ok info := by
  obtain ⟨digestMeta, indicesByMethod, method, digestPairs, criticalPairs, digestLayers,
    criticalLayerMetas, -, rfl, writtenD, writtenC⟩ := saveAllQueryCache_spec saved
  rw [Int.toNat_natCast] at writtenD
  have hvalid := validateLayers_ok "query cache" (sectionBytes digestPairs criticalPairs).length
    (digestPairs.map KvPair.nbytes).sum writtenC.length_eq
    (fun i hi hi' => by
      obtain ⟨layer, hlook, hentry, -, -⟩ := critical_stored writtenC hempty hi hi'
      exact ⟨layer, hlook, hentry⟩)
    (by rw [List.length_append, length_section, length_section])
  rw [readQueryMeta_eq digestMeta indicesByMethod method writtenD, hvalid]
  simp only [bind, Except.bind]
  rw [if_neg]
  · exact ⟨_, rfl⟩
  · rw [List.length_append, length_section, length_section]
    exact not_not.mpr rfl

theorem repeatsOnlyEmpty_of_nodup (getKv : LayerSource) {criticalLayers : List Int}
    (criticalTokenIndices : Option (List Int)) (h : criticalLayers.Nodup) :
    RepeatsOnlyEmpty getKv criticalLayers criticalTokenIndices := by
  intro p q hpq hq heq
  exact absurd (h.getElem_inj_iff.mp heq) hpq.ne

private theorem roundTrip_of_repeatsOnlyEmpty {index : DigestIndex} {getKv : LayerSource}
    {numDigestLayers : Nat} {digestTokenIndicesByLayer : List (List Int)}
    {criticalLayers : List Int} {criticalTokenIndices : Option (List Int)} {files : CacheFiles}
    {d : Dtype}
    (saved : saveAllQueryCache index getKv numDigestLayers digestTokenIndicesByLayer criticalLayers
      criticalTokenIndices = .ok files)
    (oneDtype : ∀ (l : Int) k v, getKv l = .ok (some k, some v) → k.dtype = d ∧ v.dtype = d)
    (hempty : RepeatsOnlyEmpty getKv criticalLayers criticalTokenIndices) :
    QueryRoundTrip files getKv numDigestLayers digestTokenIndicesByLayer criticalLayers
      criticalTokenIndices := by
  obtain ⟨info, hinfo⟩ := readQueryMeta_accepts saved hempty
  obtain ⟨digestMeta, indicesByMethod, method, digestPairs, criticalPairs, digestLayers,
    criticalLayerMetas, -, rfl, writtenD, writtenC⟩ := saveAllQueryCache_spec saved
  rw [Int.toNat_natCast] at writtenD
  obtain rfl := readQueryMeta_info hinfo
  refine ⟨queryMetadata digestMeta indicesByMethod method numDigestLayers criticalLayers
    digestLayers criticalLayerMetas, fun sampleDir => ?_,
    fun layerIds hrange memory reads slot => ?_, fun memory reads slot => ?_⟩
  · simp only [loadQueryMeta, hinfo, bind, Except.bind, pure, Except.pure]
  · exact digest_readback writtenD oneDtype hrange memory reads slot
  · exact critical_readback writtenC oneDtype hempty memory reads slot

/-- After a save of tensors of one dtype, the query cache round-trips exactly when no critical
layer id is repeated around bytes: otherwise `_load_query_meta` rejects the files. -/
theorem queryCache_roundtrip_iff (index : DigestIndex) (getKv : LayerSource)
    (numDigestLayers : Nat) (digestTokenIndicesByLayer : List (List Int))
    (criticalLayers : List Int) (criticalTokenIndices : Option (List Int)) (files : CacheFiles)
    (d : Dtype)
    (saved : saveAllQueryCache index getKv numDigestLayers digestTokenIndicesByLayer criticalLayers
      criticalTokenIndices = .ok files)
    (oneDtype : ∀ (l : Int) k v, getKv l = .ok (some k, some v) → k.dtype = d ∧ v.dtype = d) :
    QueryRoundTrip files getKv numDigestLayers digestTokenIndicesByLayer criticalLayers
        criticalTokenIndices ↔
      RepeatsOnlyEmpty getKv criticalLayers criticalTokenIndices :=
  ⟨repeatsOnlyEmpty_of_roundTrip saved, roundTrip_of_repeatsOnlyEmpty saved oneDtype⟩

/-- Every layer of the pool holds three rows, K filled with the layer id. -/
def threeRowLayers : LayerSource := fun l =>
  .ok (some (threeRows l.toNat.toUInt8), some (threeRows (l.toNat + 7).toUInt8))

/-- The least index `export_payload` accepts. -/
def kvzipIndex : DigestIndex :=
  ⟨[("digest_index_method", .str digestIndexMethod)], [(digestIndexMethod, .obj [])]⟩

theorem threeRowLayers_dtype (l : Int) (k v : Tensor)
    (h : threeRowLayers l = .ok (some k, some v)) : k.dtype = .float16 ∧ v.dtype = .float16 := by
  cases h
  exact ⟨rfl, rfl⟩

/-- One digest layer of rows 2 and 0, then the critical layers whole. -/
theorem threeRowLayers_saved (criticalLayers : List Int) :
    ∃ files, saveAllQueryCache kvzipIndex threeRowLayers (1 : Nat) [[2, 0]] criticalLayers none =
      .ok files := by
  have hpack : ∀ fill, (threeRows fill).Selectable none := fun fill =>
    ⟨(threeRows_selectable fill).1, fun xs hxs => by cases hxs⟩
  refine saveAllQueryCache_ok rfl rfl (fun l hl => ⟨[2, 0], _, _, ?_, rfl, threeRows_selectable _,
    threeRows_selectable _⟩) fun id _ => ⟨_, _, rfl, hpack _, hpack _⟩
  obtain rfl : l = 0 := by omega
  rfl

/-- Critical layers 1 and 0, stored in that order. -/
theorem queryCache_roundtrip_iff_twoCritical :
    ∃ files, saveAllQueryCache kvzipIndex threeRowLayers (1 : Nat) [[2, 0]] [1, 0] none = .ok files ∧
      (QueryRoundTrip files threeRowLayers 1 [[2, 0]] [1, 0] none ↔
        RepeatsOnlyEmpty threeRowLayers [1, 0] none) := by
  obtain ⟨files, hsaved⟩ := threeRowLayers_saved [1, 0]
  exact ⟨files, hsaved, queryCache_roundtrip_iff kvzipIndex threeRowLayers 1 [[2, 0]] [1, 0] none
    files .float16 hsaved threeRowLayers_dtype⟩

/-- Critical layers `[0, 0]` are saved and cannot be loaded. -/
theorem repeatedCriticalLayer_rejected :
    ∃ files, saveAllQueryCache kvzipIndex threeRowLayers (1 : Nat) [[2, 0]] [0, 0] none = .ok files ∧
      ¬ QueryRoundTrip files threeRowLayers 1 [[2, 0]] [0, 0] none := by
  obtain ⟨files, hsaved⟩ := threeRowLayers_saved [0, 0]
  refine ⟨files, hsaved, fun hroundTrip => ?_⟩
  have hbytes := repeatsOnlyEmpty_of_roundTrip hsaved hroundTrip 0 1 (by decide) (by decide) rfl 0
    (by decide) (by decide) _ _ rfl
  exact absurd hbytes (by decide)

end QCFuse.Guarantees
