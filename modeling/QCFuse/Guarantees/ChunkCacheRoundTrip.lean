import QCFuse.Source.PackedKv

/-!
# Chunk-cache round trip

What `_save_packed_kv` writes, `_load_packed_meta` accepts, and every layer reads back as it
was selected, alone or in a block of consecutive layers.
-/

set_option autoImplicit false

namespace QCFuse.Guarantees

open QCFuse.Library QCFuse.Source

theorem packedLayerKv_selected {getLayerKv : LayerSource} {tokenIndices : Option (List Int)}
    {tokenIndicesByLayer : Option (List (Option (List Int)))} {l : Nat} {p : KvPair}
    (h : packedLayerKv getLayerKv tokenIndices tokenIndicesByLayer l = .ok p) :
    SelectedFrom getLayerKv (layerTokenIndices tokenIndices tokenIndicesByLayer) l p := by
  obtain ⟨kv, hkv, h⟩ := bind_ok h
  obtain ⟨fullK, fullV, idx, rfl, hidx, hk, hv⟩ := selectKv_ok h
  exact ⟨fullK, fullV, idx, hkv, hidx, hk, hv⟩

/-- Layer `l` of a saved chunk cache is stored at its start. -/
private theorem stored_of_written {numLayers : Nat} {select : Int → Py KvPair}
    {pairs : List KvPair} {layers fields : List (String × Json)}
    (written : LayersWritten select (layerRange numLayers) [] layers ⟨[], 0⟩
      ⟨pairs.flatMap KvPair.bytes, (pairs.map KvPair.nbytes).sum⟩ pairs)
    (hfields : Json.lookup? "layers" fields = some (.obj layers)) {l : Nat} (hl : l < numLayers) :
    Stored (pairs.flatMap KvPair.bytes) (.obj fields) l (start KvPair.nbytes pairs l)
      (pairs[l]?.getD default) := by
  have hl' : l < (layerRange numLayers).length := by simpa using hl
  have hlp : l < pairs.length := by rw [written.length_eq]; exact hl'
  obtain ⟨layer, hlook, hentry⟩ := written.entry l hl' hlp fun j hj hij =>
    layerRange_distinct hl' hj hij
  obtain ⟨hinside, hbytes⟩ := written.bytes_at rfl hlp []
  rw [getElem_layerRange] at hlook
  rw [List.append_nil] at hinside hbytes
  rw [List.getElem?_eq_getElem hlp, Option.getD_some, ← Nat.zero_add (start _ _ _)]
  exact ⟨⟨fields, layers, layer, rfl, hfields, hlook, hentry⟩, hinside, hbytes⟩

/-- Files written by `_save_packed_kv` from tensors of one dtype are accepted with the same
layer count, with or without an expected one; and whatever the transfer slot held, whatever
uninitialised memory contains and however the raw reads are split, a block of consecutive
layers gives back each layer's selected K and V. A single layer is a block of one. -/
theorem chunkCache_roundtrip (numLayers : Nat) (getLayerKv : LayerSource)
    (tokenIndices : Option (List Int)) (tokenIndicesByLayer : Option (List (Option (List Int))))
    (files : CacheFiles) (d : Dtype)
    (saved : savePackedKv numLayers getLayerKv tokenIndices tokenIndicesByLayer = .ok files)
    (oneDtype : ∀ l < numLayers, ∀ k v, getLayerKv (l : Int) = .ok (some k, some v) →
      k.dtype = d ∧ v.dtype = d) :
    ∃ info, (∀ expected : Option Int, expected = none ∨ expected = some (numLayers : Int) →
        loadPackedMeta files expected = .ok info) ∧
      info.get "num_layers" = .ok (.int numLayers) ∧
      ∀ (first count : Nat), 0 < count → first + count ≤ numLayers →
        ∀ (memory : Nat → UInt8) (reads : List (Option Nat)) (slot : Slot), ∃ slot',
          readPackedBlockToSlot memory reads files info
            ((layerRange count).map fun l => first + l) slot = .ok slot' ∧
          ∀ l : Nat, first ≤ l → l < first + count → ∃ p,
            SelectedFrom getLayerKv (layerTokenIndices tokenIndices tokenIndicesByLayer) l p ∧
            copyPackedLayerFromBlockToGpu slot' l = .ok p := by
  obtain ⟨pairs, layers, rfl, written⟩ := savePackedKv_spec saved
  have hlen : pairs.length = numLayers := by rw [written.length_eq, length_layerRange]
  have hselected : ∀ l : Nat, l < numLayers → SelectedFrom getLayerKv
      (layerTokenIndices tokenIndices tokenIndicesByLayer) l (pairs[l]?.getD default) := by
    intro l hl
    have hl' : l < pairs.length := by omega
    have := written.selected l (by simpa using hl) hl'
    rw [getElem_layerRange] at this
    rw [List.getElem?_eq_getElem hl', Option.getD_some]
    exact packedLayerKv_selected this
  have hdtype : ∀ l : Nat, l < numLayers → KvPair.OfDtype d (pairs[l]?.getD default) := by
    intro l hl
    exact (hselected l hl).ofDtype (oneDtype l hl)
  have hall : ∀ p ∈ pairs, KvPair.OfDtype d p := by
    intro p hp
    obtain ⟨l, hl, rfl⟩ := List.getElem_of_mem hp
    have := hdtype l (by omega)
    rwa [List.getElem?_eq_getElem hl, Option.getD_some] at this
  have hfields : Json.lookup? "layers" [("format", .str packedFormat),
      ("num_layers", .int numLayers), ("layers", .obj layers)] = some (.obj layers) := by
    simp [Json.lookup?]
  refine ⟨_, fun expected hexpected => loadPackedMeta_saved written ?_, rfl, ?_⟩
  · rcases hexpected with rfl | rfl <;> rfl
  · intro first count hcount hfit memory reads slot
    -- the block starts at its first layer's start and ends at its last layer's end
    let ids : List Int := (layerRange count).map fun l => first + l
    have hids : ∀ id ∈ ids, ∃ l : Nat, first ≤ l ∧ l < first + count ∧ id = l := by
      intro id hid
      obtain ⟨l', hl', rfl⟩ := List.mem_map.mp hid
      obtain ⟨l, hl, rfl⟩ := mem_layerRange.mp hl'
      exact ⟨first + l, by omega, by omega, by push_cast; rfl⟩
    have hne : ids ≠ [] := by
      intro hnil
      have hlen0 := congrArg List.length hnil
      simp only [ids, List.length_map, length_layerRange, List.length_nil] at hlen0
      omega
    have hhead : ids.head hne = first := by
      rw [List.head_eq_getElem]
      simp [ids]
    have hlast : ids.getLast hne = (first + count - 1 : Nat) := by
      rw [List.getLast_eq_getElem]
      simp [ids]
      omega
    obtain ⟨slot', hread, hcopy⟩ := readBlockToSlot_copy "packed KV" "Packed KV" memory reads slot
      d (fun id => start KvPair.nbytes pairs id.toNat)
      (fun id => pairs[id.toNat]?.getD default) hne
      (fun id hid => by
        obtain ⟨l, -, hl, rfl⟩ := hids id hid
        exact stored_of_written written hfields (by omega))
      (fun id hid => by
        obtain ⟨l, -, hl, rfl⟩ := hids id hid
        exact hdtype l (by omega))
      (fun id hid => by
        obtain ⟨l, hl, -, rfl⟩ := hids id hid
        rw [hhead]
        exact start_mono _ _ hl)
      (fun id hid => by
        obtain ⟨l, -, hl, rfl⟩ := hids id hid
        have hstep : ∀ m : Nat, m < pairs.length → start KvPair.nbytes pairs m +
            (pairs[m]?.getD default).nbytes = start KvPair.nbytes pairs (m + 1) := by
          intro m hm
          rw [start_succ _ _ hm, List.getElem?_eq_getElem hm, Option.getD_some]
        rw [hlast]
        simp only [Int.toNat_natCast]
        rw [hstep l (by omega), hstep _ (by omega)]
        exact start_mono _ _ (by omega))
      fun id hid => by
        obtain ⟨l, hl, -, rfl⟩ := hids id hid
        rw [hhead]
        exact Nat.dvd_sub (KvPair.itemsize_dvd_start pairs hall _)
          (KvPair.itemsize_dvd_start pairs hall _)
    refine ⟨slot', hread, fun l hge hlt => ⟨_, hselected l (by omega), hcopy l ?_⟩⟩
    exact List.mem_map.mpr ⟨((l - first : Nat) : Int), mem_layerRange.mpr ⟨l - first, by omega, rfl⟩,
      by omega⟩

/-- Three rows of two half-precision numbers, filled with one byte. -/
def threeRows (fill : UInt8) : Tensor := ⟨[3, 2], .float16, List.replicate 12 fill, rfl⟩

theorem threeRows_selectable (fill : UInt8) : (threeRows fill).Selectable (some [2, 0]) := by
  refine ⟨⟨⟨"F16", rfl⟩, Or.inl (List.cons_ne_nil _ _)⟩, fun xs hxs => ?_⟩
  obtain rfl := Option.some.inj hxs
  exact ⟨List.cons_ne_nil _ _, by simp [threeRows, Tensor.rows]⟩

/-- Two layers saved with rows 2 and 0 of each. -/
theorem chunkCache_roundtrip_twoLayers :
    let getLayerKv : LayerSource := fun l =>
      .ok (some (threeRows l.toNat.toUInt8), some (threeRows (l.toNat + 7).toUInt8))
    ∃ files, savePackedKv 2 getLayerKv (some [2, 0]) none = .ok files ∧
      ∃ info, (∀ expected : Option Int, expected = none ∨ expected = some ((2 : Nat) : Int) →
          loadPackedMeta files expected = .ok info) ∧
        info.get "num_layers" = .ok (.int (2 : Nat)) ∧
        ∀ (first count : Nat), 0 < count → first + count ≤ 2 →
          ∀ (memory : Nat → UInt8) (reads : List (Option Nat)) (slot : Slot), ∃ slot',
            readPackedBlockToSlot memory reads files info
              ((layerRange count).map fun l => first + l) slot = .ok slot' ∧
            ∀ l : Nat, first ≤ l → l < first + count → ∃ p,
              SelectedFrom getLayerKv (layerTokenIndices (some [2, 0]) none) l p ∧
              copyPackedLayerFromBlockToGpu slot' l = .ok p := by
  intro getLayerKv
  have hfiles : ∃ files, savePackedKv 2 getLayerKv (some [2, 0]) none = .ok files :=
    savePackedKv_ok fun l _ => ⟨_, _, some [2, 0], rfl, rfl, threeRows_selectable _,
      threeRows_selectable _⟩
  obtain ⟨files, hsave⟩ := hfiles
  refine ⟨files, hsave, chunkCache_roundtrip 2 getLayerKv (some [2, 0]) none files .float16 hsave ?_⟩
  intro l _ k v hkv
  cases hkv
  exact ⟨rfl, rfl⟩

end QCFuse.Guarantees
