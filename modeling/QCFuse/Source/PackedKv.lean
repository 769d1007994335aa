import QCFuse.Source.TransferSlot

/-!
# The chunk cache: `_save_packed_kv`, `_load_packed_meta`, `_read_packed_block_to_slot`
-/

set_option autoImplicit false

namespace QCFuse.Source

open QCFuse.Library

/-- The two files of one cache directory. -/
structure CacheFiles where
  metaFile : Option Json
  binFile : Option Bytes

def packedFormat : String := "sgblend_kv_packed_v1"

/-- `range(n)` as layer ids. -/
def layerRange (n : Nat) : List Int := (List.range n).map fun i : Nat => (i : Int)

@[simp] theorem length_layerRange (n : Nat) : (layerRange n).length = n := by
  simp [layerRange]

@[simp] theorem getElem_layerRange {n i : Nat} (h : i < (layerRange n).length) :
    (layerRange n)[i] = i := by
  simp [layerRange]

theorem mem_layerRange {n : Nat} {id : Int} : id ∈ layerRange n ↔ ∃ i < n, (i : Int) = id := by
  simp [layerRange]

/-- `HackBlendKVPool.get_kv`, or whatever the caller passes for it. -/
abbrev LayerSource := Int → Py (Option Tensor × Option Tensor)

/-- The index list of a layer: its own when there is one list per layer, else the shared one. -/
def layerTokenIndices (tokenIndices : Option (List Int))
    (tokenIndicesByLayer : Option (List (Option (List Int)))) (layerId : Int) :
    Py (Option (List Int)) :=
  match tokenIndicesByLayer with
  | some perLayer => pyIndex perLayer layerId
  | none => .ok tokenIndices

/-- The K and V that `_save_packed_kv` writes for a layer. -/
def packedLayerKv (getLayerKv : LayerSource) (tokenIndices : Option (List Int))
    (tokenIndicesByLayer : Option (List (Option (List Int)))) (layerId : Int) : Py KvPair := do
  let kv ← getLayerKv layerId
  selectKv s!"Missing KV tensor for layer {layerId}" kv
    (layerTokenIndices tokenIndices tokenIndicesByLayer layerId)

/-- `_save_packed_kv`: the files it leaves in the sample directory. -/
def savePackedKv (numLayers : Nat) (getLayerKv : LayerSource)
    (tokenIndices : Option (List Int)) (tokenIndicesByLayer : Option (List (Option (List Int)))) :
    Py CacheFiles := do
  let (layers, w) ← writeLayers (packedLayerKv getLayerKv tokenIndices tokenIndicesByLayer)
    (layerRange numLayers) [] ⟨[], 0⟩
  return ⟨some (.obj [("format", .str packedFormat), ("num_layers", .int numLayers),
    ("layers", .obj layers)]), some w.bin⟩

/-- `save_all_chunk_cache`. -/
def saveAllChunkCache (numLayers : Nat) (getKv : LayerSource)
    (tokenIndices : Option (List Int)) : Py CacheFiles :=
  savePackedKv numLayers getKv tokenIndices none

/-- `_load_packed_meta(sample_dir, expected_num_layers)`. -/
def loadPackedMeta (files : CacheFiles) (expectedNumLayers : Option Int) : Py Json :=
  match files.metaFile, files.binFile with
  | none, _ => .error (.fileNotFound "Missing packed KV metadata")
  | some _, none => .error (.fileNotFound "Missing packed KV data")
  | some info, some bin => do
    match ← info.get "format" with
    | .str name =>
      if name ≠ packedFormat then .error (.valueError "Unsupported packed KV format")
      else
        match (← info.get "num_layers").asInt? with
        | none => .error (.valueError "Bad packed KV num_layers")
        | some numLayers =>
          if numLayers < 0 then .error (.valueError "Bad packed KV num_layers")
          else if expectedNumLayers.getD numLayers ≠ numLayers then
            .error (.valueError "Packed KV num_layers mismatch")
          else
            match ← info.get "layers" with
            | .obj layers =>
              let written ← validateLayers "packed KV" layers bin.length
                (layerRange numLayers.toNat) 0
              if written ≠ bin.length then .error (.valueError "Packed KV size mismatch")
              else return info
            | _ => .error (.valueError "Bad packed KV layers metadata")
    | _ => .error (.valueError "Unsupported packed KV format")

/-- `_read_packed_block_to_slot(sample_dir, meta, layer_ids, slot)`. -/
def readPackedBlockToSlot (memory : Nat → UInt8) (reads : List (Option Nat)) (files : CacheFiles)
    (info : Json) (layerIds : List Int) (slot : Slot) : Py Slot :=
  match files.binFile with
  | some bin => readBlockToSlot "packed KV" "Packed KV" memory reads bin info layerIds slot
  | none => .error (.fileNotFound "No such file or directory")

/-- `_read_packed_layer_to_slot`: a block of one layer. -/
def readPackedLayerToSlot (memory : Nat → UInt8) (reads : List (Option Nat)) (files : CacheFiles)
    (info : Json) (layerId : Int) (slot : Slot) : Py Slot :=
  readPackedBlockToSlot memory reads files info [layerId] slot

/-- `_load_packed_layer_to_gpu`, with the pool's slot. -/
def loadPackedLayerToGpu (memory : Nat → UInt8) (reads : List (Option Nat)) (files : CacheFiles)
    (info : Json) (layerId : Int) (slot : Slot) : Py (KvPair × Slot) := do
  let slot ← readPackedLayerToSlot memory reads files info layerId ⟨slot.pinBuf, none⟩
  return (← copyPackedLayerFromBlockToGpu slot layerId, slot)

/-- `p` is layer `l`'s K and V, each index-selected by the layer's token indices. -/
def SelectedFrom (getLayerKv : LayerSource) (indices : Int → Py (Option (List Int))) (l : Int)
    (p : KvPair) : Prop :=
  ∃ fullK fullV idx, getLayerKv l = .ok (some fullK, some fullV) ∧ indices l = .ok idx ∧
    selectRows fullK idx = .ok p.1 ∧ selectRows fullV idx = .ok p.2

theorem SelectedFrom.ofDtype {getLayerKv : LayerSource} {indices : Int → Py (Option (List Int))}
    {l : Int} {p : KvPair} {d : Dtype} (h : SelectedFrom getLayerKv indices l p)
    (oneDtype : ∀ k v, getLayerKv l = .ok (some k, some v) → k.dtype = d ∧ v.dtype = d) :
    p.OfDtype d := by
  obtain ⟨fullK, fullV, idx, hkv, -, hk, hv⟩ := h
  obtain ⟨hkd, hvd⟩ := oneDtype fullK fullV hkv
  exact ⟨(selectRows_dtype hk).trans hkd, (selectRows_dtype hv).trans hvd⟩

/-- What `_save_packed_kv` writes: the layers one after the other. -/
theorem savePackedKv_spec {numLayers : Nat} {getLayerKv : LayerSource}
    {tokenIndices : Option (List Int)} {tokenIndicesByLayer : Option (List (Option (List Int)))}
    {files : CacheFiles}
    (h : savePackedKv numLayers getLayerKv tokenIndices tokenIndicesByLayer = .ok files) :
    ∃ pairs layers, files = ⟨some (.obj [("format", .str packedFormat),
        ("num_layers", .int numLayers), ("layers", .obj layers)]),
        some (pairs.flatMap KvPair.bytes)⟩ ∧
      LayersWritten (packedLayerKv getLayerKv tokenIndices tokenIndicesByLayer)
        (layerRange numLayers) [] layers ⟨[], 0⟩
        ⟨pairs.flatMap KvPair.bytes, (pairs.map KvPair.nbytes).sum⟩ pairs := by
  obtain ⟨⟨layers, w⟩, hwrite, hret⟩ := bind_ok h
  obtain ⟨pairs, written⟩ := writeLayers_spec hwrite
  have hbin : w.bin = pairs.flatMap KvPair.bytes := by simpa using written.bin_eq
  have hoff : w.offset = (pairs.map KvPair.nbytes).sum := by simpa using written.offset_eq
  obtain ⟨bin, offset⟩ := w
  subst hbin hoff
  cases hret
  exact ⟨pairs, layers, rfl, written⟩

/-- The file holds each written layer's bytes at the layer's start. -/
theorem LayersWritten.bytes_at {select : Int → Py KvPair} {ids : List Int}
    {layers layers' : List (String × Json)} {w w' : Writer} {pairs : List KvPair}
    (written : LayersWritten select ids layers layers' w w' pairs)
    (hw : w.offset = w.bin.length) {i : Nat} (h : i < pairs.length) (rest : Bytes) :
    w.offset + start KvPair.nbytes pairs i + pairs[i].nbytes ≤ (w'.bin ++ rest).length ∧
      slice (w'.bin ++ rest) (w.offset + start KvPair.nbytes pairs i) pairs[i].nbytes =
        pairs[i].bytes := by
  have hend : start KvPair.nbytes pairs (i + 1) ≤ (pairs.map KvPair.nbytes).sum := by
    rw [← start_length]
    exact start_mono _ _ h
  rw [start_succ _ _ h] at hend
  have hlen : (pairs.flatMap KvPair.bytes).length = (pairs.map KvPair.nbytes).sum :=
    length_flatMap_size _ _ KvPair.length_bytes pairs
  constructor
  · rw [written.bin_eq, List.length_append, List.length_append, hlen, hw]
    omega
  · rw [written.bin_eq, List.append_assoc, hw, slice_append_right,
      slice_append_left _ (by rw [hlen]; exact hend)]
    exact slice_laid KvPair.nbytes KvPair.bytes KvPair.length_bytes pairs h

theorem layerRange_distinct {n i j : Nat} (hi : i < (layerRange n).length)
    (hj : j < (layerRange n).length) (hij : i < j) : (layerRange n)[j] ≠ (layerRange n)[i] := by
  rw [getElem_layerRange, getElem_layerRange]
  omega

/-- The loader accepts what the writer wrote. -/
theorem loadPackedMeta_saved {numLayers : Nat} {select : Int → Py KvPair}
    {pairs : List KvPair} {layers : List (String × Json)}
    (written : LayersWritten select (layerRange numLayers) [] layers ⟨[], 0⟩
      ⟨pairs.flatMap KvPair.bytes, (pairs.map KvPair.nbytes).sum⟩ pairs)
    {expected : Option Int} (hexpected : expected.getD numLayers = numLayers) :
    loadPackedMeta ⟨some (.obj [("format", .str packedFormat), ("num_layers", .int numLayers),
        ("layers", .obj layers)]), some (pairs.flatMap KvPair.bytes)⟩ expected =
      .ok (.obj [("format", .str packedFormat), ("num_layers", .int numLayers),
        ("layers", .obj layers)]) := by
  have hsize : (pairs.flatMap KvPair.bytes).length = (pairs.map KvPair.nbytes).sum :=
    length_flatMap_size _ _ KvPair.length_bytes pairs
  have hvalid := validateLayers_ok "packed KV" (pairs.flatMap KvPair.bytes).length 0
    written.length_eq
    (fun i hi hi' => written.entry i hi hi' fun j hj hij => layerRange_distinct hi hj hij)
    (by omega)
  rw [Nat.zero_add, Nat.cast_zero] at hvalid
  have hlen : ¬ ((pairs.map KvPair.nbytes).sum : Int) ≠ (pairs.flatMap KvPair.bytes).length := by
    omega
  simp only [loadPackedMeta, Json.get, Json.lookup?, if_true, Option.getD_some, bind, Except.bind,
    if_neg (show "format" ≠ "num_layers" by decide), if_neg (show "format" ≠ "layers" by decide),
    if_neg (show "num_layers" ≠ "layers" by decide), Json.asInt?, ne_eq, not_true_eq_false,
    if_false, hexpected, Int.toNat_natCast, hvalid]
  rw [if_neg (by omega), if_neg hlen]
  rfl

/-- In-range selections of tensors the format knows are written. -/
theorem savePackedKv_ok {numLayers : Nat} {getLayerKv : LayerSource}
    {tokenIndices : Option (List Int)} {tokenIndicesByLayer : Option (List (Option (List Int)))}
    (h : ∀ l < numLayers, ∃ fullK fullV idx, getLayerKv (l : Int) = .ok (some fullK, some fullV) ∧
      layerTokenIndices tokenIndices tokenIndicesByLayer l = .ok idx ∧ fullK.Selectable idx ∧
      fullV.Selectable idx) :
    ∃ files, savePackedKv numLayers getLayerKv tokenIndices tokenIndicesByLayer = .ok files := by
  have hlayers : ∀ id ∈ layerRange numLayers, ∃ p,
      packedLayerKv getLayerKv tokenIndices tokenIndicesByLayer id = .ok p ∧ p.1.Packable ∧
        p.2.Packable := by
    intro id hid
    obtain ⟨l, hl, rfl⟩ := mem_layerRange.mp hid
    obtain ⟨fullK, fullV, idx, hkv, hidx, hk, hv⟩ := h l hl
    obtain ⟨p, hp, hpack⟩ := selectKv_packable s!"Missing KV tensor for layer {(l : Int)}" hk hv
    refine ⟨p, ?_, hpack⟩
    simp only [packedLayerKv, hkv, hidx, bind, Except.bind]
    exact hp
  obtain ⟨layers, w, hwrite⟩ := writeLayers_ok (layerRange numLayers) hlayers [] ⟨[], 0⟩
  exact ⟨_, by rw [savePackedKv, hwrite]; rfl⟩

end QCFuse.Source
