import QCFuse.Source.DigestIndex
import QCFuse.Source.PackedKv

/-!
# The query cache: digest and critical sections in one packed file
-/

set_option autoImplicit false

namespace QCFuse.Source

open QCFuse.Library

def queryCacheFormat : String := "sgblend_query_cache_v1"

/-- The digest K and V that `save_all_query_cache` writes for a layer. -/
def digestLayerKv (getKv : LayerSource) (digestTokenIndicesByLayer : List (List Int))
    (layerId : Int) : Py KvPair := do
  let tokenIndices ← pyIndex digestTokenIndicesByLayer layerId
  let kv ← getKv layerId
  selectKv s!"Missing KV tensor for query cache layer {layerId}" kv (.ok (some tokenIndices))

/-- The critical K and V that `save_all_query_cache` writes for a layer. -/
def criticalLayerKv (getKv : LayerSource) (criticalTokenIndices : Option (List Int))
    (layerId : Int) : Py KvPair := do
  let kv ← getKv layerId
  selectKv s!"Missing KV tensor for query cache layer {layerId}" kv (.ok criticalTokenIndices)

/-- The query metadata, given the metadata of the written layers of both sections. -/
def queryMetadata (digestMeta indicesByMethod : List (String × Json)) (method : String)
    (numDigestLayers : Int) (criticalLayers : List Int)
    (digestLayers criticalLayerMetas : List (String × Json)) : Json :=
  let get := fun key => (Json.lookup? key digestMeta).getD .null
  .obj [("format", .str queryCacheFormat), ("digest_index_version", get "digest_index_version"),
    ("available_methods",
      (Json.lookup? "available_methods" digestMeta).getD (.arr [.str method])),
    ("num_layers", .int numDigestLayers), ("digest_ratio", get "digest_ratio"),
    ("digest_index_method", .str method), ("critical_layers", .ofInts criticalLayers),
    ("qcompute_end", .int numDigestLayers), ("materialized_digest", .bool true),
    ("metadata", .obj digestMeta), ("indices_by_method", .obj indicesByMethod),
    ("digest", .obj [("num_layers", .int numDigestLayers), ("layers", .obj digestLayers)]),
    ("critical", .obj [("layer_ids", .ofInts criticalLayers),
      ("layers", .obj criticalLayerMetas)])]

/-- What the loaders read of the query metadata. -/
theorem queryMetadata_get (digestMeta indicesByMethod : List (String × Json)) (method : String)
    (numDigestLayers : Int) (criticalLayers : List Int)
    (digestLayers criticalLayerMetas : List (String × Json)) :
    let info := queryMetadata digestMeta indicesByMethod method numDigestLayers criticalLayers
      digestLayers criticalLayerMetas
    info.get "format" = .ok (.str queryCacheFormat) ∧
      info.get "digest" = .ok (.obj [("num_layers", .int numDigestLayers),
        ("layers", .obj digestLayers)]) ∧
      info.get "critical" = .ok (.obj [("layer_ids", .ofInts criticalLayers),
        ("layers", .obj criticalLayerMetas)]) := by
  simp only [queryMetadata, Json.get]
  refine ⟨?_, ?_, ?_⟩ <;> simp [Json.lookup?]

theorem queryMetadata_item (digestMeta indicesByMethod : List (String × Json)) (method : String)
    (numDigestLayers : Int) (criticalLayers : List Int)
    (digestLayers criticalLayerMetas : List (String × Json)) :
    let info := queryMetadata digestMeta indicesByMethod method numDigestLayers criticalLayers
      digestLayers criticalLayerMetas
    info.item "digest" = .ok (.obj [("num_layers", .int numDigestLayers),
        ("layers", .obj digestLayers)]) ∧
      info.item "critical" = .ok (.obj [("layer_ids", .ofInts criticalLayers),
        ("layers", .obj criticalLayerMetas)]) := by
  simp only [queryMetadata, Json.item]
  refine ⟨?_, ?_⟩ <;> simp [Json.lookup?]

/-- What the context restore reads of the query metadata. -/
theorem queryMetadata_getD (digestMeta indicesByMethod : List (String × Json)) (method : String)
    (numDigestLayers : Int) (criticalLayers : List Int)
    (digestLayers criticalLayerMetas : List (String × Json)) :
    let info := queryMetadata digestMeta indicesByMethod method numDigestLayers criticalLayers
      digestLayers criticalLayerMetas
    info.getD "metadata" (.obj []) = .ok (.obj digestMeta) ∧
      info.getD "indices_by_method" (.obj []) = .ok (.obj indicesByMethod) := by
  simp only [queryMetadata, Json.getD]
  refine ⟨?_, ?_⟩ <;> simp [Json.lookup?]

/-- `save_all_query_cache`: the files it leaves in the sample directory. -/
def saveAllQueryCache (index : DigestIndex) (getKv : LayerSource) (numDigestLayers : Int)
    (digestTokenIndicesByLayer : List (List Int)) (criticalLayers : List Int)
    (criticalTokenIndices : Option (List Int)) : Py CacheFiles := do
  let (digestMeta, indicesByMethod) ← exportPayload index .null
  let method ← normalizeMethod ((Json.lookup? "digest_index_method" digestMeta).getD .null)
  let (digestLayers, w) ← writeLayers (digestLayerKv getKv digestTokenIndicesByLayer)
    (layerRange numDigestLayers.toNat) [] ⟨[], 0⟩
  let (criticalLayerMetas, w) ← writeLayers (criticalLayerKv getKv criticalTokenIndices)
    criticalLayers [] w
  return ⟨some (queryMetadata digestMeta indicesByMethod method numDigestLayers criticalLayers
    digestLayers criticalLayerMetas), some w.bin⟩

/-- `_validate_query_layer(section, layer_id, ..)`. -/
def validateQueryLayer (sectionMeta : Json) (fileSize : Nat) (layerId expectedOffset : Int) :
    Py Int := do
  match ← sectionMeta.get "layers" with
  | .obj layers => validateLayer "query cache" layers fileSize layerId expectedOffset
  | _ => .error (.valueError "Bad query cache layers metadata")

/-- The validation loop over one section, with `int(layer_id)` at each turn. -/
def validateQueryLayers (sectionMeta : Json) (fileSize : Nat) : List Json → Int → Py Int
  | [], expectedOffset => .ok expectedOffset
  | layerId :: layerIds, expectedOffset => do
    let id ← layerId.toInt
    let afterLayer ← validateQueryLayer sectionMeta fileSize id expectedOffset
    validateQueryLayers sectionMeta fileSize layerIds afterLayer

/-- `_load_query_meta` behind its cache: the files are read and checked. -/
def readQueryMeta (files : CacheFiles) : Py Json :=
  match files.metaFile, files.binFile with
  | none, _ => .error (.fileNotFound "Missing query cache metadata")
  | some _, none => .error (.fileNotFound "Missing query cache data")
  | some info, some bin => do
    match ← info.get "format" with
    | .str name =>
      if name ≠ queryCacheFormat then .error (.valueError "Unsupported query cache format")
      else
        let digest ← info.get "digest"
        let critical ← info.get "critical"
        if digest.isDict = false ∨ critical.isDict = false then
          .error (.valueError "Bad query cache sections")
        else
          match (← digest.get "num_layers").asInt? with
          | none => .error (.valueError "Bad query cache digest num_layers")
          | some numDigestLayers =>
            if numDigestLayers < 0 then .error (.valueError "Bad query cache digest num_layers")
            else
              match ← critical.getD "layer_ids" (.arr []) with
              | .arr criticalIds =>
                let afterDigest ← validateQueryLayers digest bin.length
                  ((layerRange numDigestLayers.toNat).map .int) 0
                let written ← validateQueryLayers critical bin.length criticalIds afterDigest
                if written ≠ bin.length then .error (.valueError "Query cache size mismatch")
                else return info
              | _ => .error (.valueError "Bad query cache critical layer_ids")
    | _ => .error (.valueError "Unsupported query cache format")

/-- What the checks of `_load_query_meta` establish. -/
structure QueryMetaChecked (files : CacheFiles) (queryMeta : Json) (bin : Bytes) (digest critical : Json)
    (numDigestLayers : Int) (criticalIds : List Json) (afterDigest : Int) : Prop where
  metaFile : files.metaFile = some queryMeta
  binFile : files.binFile = some bin
  digestSection : queryMeta.get "digest" = .ok digest
  criticalSection : queryMeta.get "critical" = .ok critical
  dicts : digest.isDict = true ∧ critical.isDict = true
  numLayers : ∃ value, digest.get "num_layers" = .ok value ∧ value.asInt? = some numDigestLayers
  nonneg : 0 ≤ numDigestLayers
  layerIds : critical.getD "layer_ids" (.arr []) = .ok (.arr criticalIds)
  digestLayers : validateQueryLayers digest bin.length
    ((layerRange numDigestLayers.toNat).map .int) 0 = .ok afterDigest
  criticalLayers : validateQueryLayers critical bin.length criticalIds afterDigest = .ok bin.length

theorem readQueryMeta_checked {files : CacheFiles} {queryMeta : Json}
    (h : readQueryMeta files = .ok queryMeta) :
    ∃ bin digest critical numDigestLayers criticalIds afterDigest,
      QueryMetaChecked files queryMeta bin digest critical numDigestLayers criticalIds afterDigest := by
  unfold readQueryMeta at h
  split at h
  next => cases h
  next => cases h
  next info bin hmeta hbin =>
    obtain ⟨format, -, h⟩ := bind_ok h
    cases format with
    | str name =>
      simp only at h
      split at h
      next => cases h
      next =>
        obtain ⟨digest, hdigest, h⟩ := bind_ok h
        obtain ⟨critical, hcritical, h⟩ := bind_ok h
        split at h
        next => cases h
        next hdicts =>
          rw [not_or, Bool.not_eq_false, Bool.not_eq_false] at hdicts
          obtain ⟨numLayers, hnum, h⟩ := bind_ok h
          split at h
          next => cases h
          next numDigestLayers hint =>
            split at h
            next => cases h
            next hnonneg =>
              obtain ⟨ids, hids, h⟩ := bind_ok h
              split at h
              next criticalIds =>
                obtain ⟨afterDigest, hdigestLayers, h⟩ := bind_ok h
                obtain ⟨written, hcriticalLayers, h⟩ := bind_ok h
                split at h
                next => cases h
                next hsize =>
                  cases h
                  rw [of_not_not hsize] at hcriticalLayers
                  exact ⟨bin, digest, critical, numDigestLayers, criticalIds, afterDigest, hmeta, hbin,
                    hdigest, hcritical, hdicts, ⟨numLayers, hnum, hint⟩, not_lt.mp hnonneg, hids,
                    hdigestLayers, hcriticalLayers⟩
              next => cases h
    | _ => cases h

/-- An accepted metadata file is returned as it is. -/
theorem readQueryMeta_info {info loaded : Json} {bin : Option Bytes}
    (h : readQueryMeta ⟨some info, bin⟩ = .ok loaded) : loaded = info := by
  obtain ⟨_, _, _, _, _, _, hchecked⟩ := readQueryMeta_checked h
  exact (Option.some.inj hchecked.metaFile).symm

/-- `_load_query_meta(sample_dir)` with `_query_meta_cache` and its directory. -/
def loadQueryMeta (cache : Option (String × Json)) (sampleDir : String) (files : CacheFiles) :
    Py (Json × Option (String × Json)) :=
  match cache with
  | some (dir, info) =>
    if dir = sampleDir then .ok (info, cache)
    else do
      let info ← readQueryMeta files
      return (info, some (sampleDir, info))
  | none => do
    let info ← readQueryMeta files
    return (info, some (sampleDir, info))

theorem validateQueryLayers_eq {fields layers : List (String × Json)}
    (hlayers : Json.lookup? "layers" fields = some (.obj layers)) (fileSize : Nat) (ids : List Int)
    (expectedOffset : Int) :
    validateQueryLayers (.obj fields) fileSize (ids.map .int) expectedOffset =
      validateLayers "query cache" layers fileSize ids expectedOffset := by
  induction ids generalizing expectedOffset with
  | nil => rfl
  | cons id ids ih =>
    have hhead : validateQueryLayer (.obj fields) fileSize id expectedOffset =
        validateLayer "query cache" layers fileSize id expectedOffset := by
      simp only [validateQueryLayer, Json.get, hlayers, Option.getD_some, bind, Except.bind]
    simp only [List.map_cons, validateQueryLayers, validateLayers, Json.toInt, hhead, bind,
      Except.bind]
    cases validateLayer "query cache" layers fileSize id expectedOffset with
    | error e => rfl
    | ok afterLayer => exact ih afterLayer

/-- What `save_all_query_cache` writes: the digest layers, then the critical layers. -/
theorem saveAllQueryCache_spec {index : DigestIndex} {getKv : LayerSource} {numDigestLayers : Int}
    {digestTokenIndicesByLayer : List (List Int)} {criticalLayers : List Int}
    {criticalTokenIndices : Option (List Int)} {files : CacheFiles}
    (h : saveAllQueryCache index getKv numDigestLayers digestTokenIndicesByLayer criticalLayers
      criticalTokenIndices = .ok files) :
    ∃ digestMeta indicesByMethod method digestPairs criticalPairs digestLayers criticalLayerMetas,
      exportPayload index .null = .ok (digestMeta, indicesByMethod) ∧
      files = ⟨some (queryMetadata digestMeta indicesByMethod method numDigestLayers criticalLayers
          digestLayers criticalLayerMetas),
        some (digestPairs.flatMap KvPair.bytes ++ criticalPairs.flatMap KvPair.bytes)⟩ ∧
      LayersWritten (digestLayerKv getKv digestTokenIndicesByLayer)
        (layerRange numDigestLayers.toNat) [] digestLayers ⟨[], 0⟩
        ⟨digestPairs.flatMap KvPair.bytes, (digestPairs.map KvPair.nbytes).sum⟩ digestPairs ∧
      LayersWritten (criticalLayerKv getKv criticalTokenIndices) criticalLayers []
        criticalLayerMetas
        ⟨digestPairs.flatMap KvPair.bytes, (digestPairs.map KvPair.nbytes).sum⟩
        ⟨digestPairs.flatMap KvPair.bytes ++ criticalPairs.flatMap KvPair.bytes,
          (digestPairs.map KvPair.nbytes).sum + (criticalPairs.map KvPair.nbytes).sum⟩
        criticalPairs := by
  obtain ⟨⟨digestMeta, indicesByMethod⟩, hpayload, h⟩ := bind_ok h
  obtain ⟨method, -, h⟩ := bind_ok h
  obtain ⟨⟨digestLayers, w₁⟩, hdigest, h⟩ := bind_ok h
  obtain ⟨⟨criticalLayerMetas, w₂⟩, hcritical, h⟩ := bind_ok h
  obtain ⟨digestPairs, writtenD⟩ := writeLayers_spec hdigest
  obtain ⟨criticalPairs, writtenC⟩ := writeLayers_spec hcritical
  have hbin₁ : w₁.bin = digestPairs.flatMap KvPair.bytes := by simpa using writtenD.bin_eq
  have hoff₁ : w₁.offset = (digestPairs.map KvPair.nbytes).sum := by simpa using writtenD.offset_eq
  obtain ⟨bin₁, offset₁⟩ := w₁
  subst hbin₁ hoff₁
  have hbin₂ := writtenC.bin_eq
  have hoff₂ := writtenC.offset_eq
  obtain ⟨bin₂, offset₂⟩ := w₂
  subst hbin₂ hoff₂
  cases h
  exact ⟨digestMeta, indicesByMethod, method, digestPairs, criticalPairs, digestLayers,
    criticalLayerMetas, hpayload, rfl, writtenD, writtenC⟩

/-- In-range selections of tensors the format knows are written. -/
theorem saveAllQueryCache_ok {index : DigestIndex} {getKv : LayerSource} {numDigestLayers : Int}
    {digestTokenIndicesByLayer : List (List Int)} {criticalLayers : List Int}
    {criticalTokenIndices : Option (List Int)} {digestMeta indicesByMethod : List (String × Json)}
    {method : String} (hpayload : exportPayload index .null = .ok (digestMeta, indicesByMethod))
    (hmethod : normalizeMethod ((Json.lookup? "digest_index_method" digestMeta).getD .null) =
      .ok method)
    (hdigest : ∀ l < numDigestLayers.toNat, ∃ idx fullK fullV,
      pyIndex digestTokenIndicesByLayer l = .ok idx ∧ getKv (l : Int) = .ok (some fullK, some fullV) ∧
        fullK.Selectable (some idx) ∧ fullV.Selectable (some idx))
    (hcritical : ∀ id ∈ criticalLayers, ∃ fullK fullV, getKv id = .ok (some fullK, some fullV) ∧
      fullK.Selectable criticalTokenIndices ∧ fullV.Selectable criticalTokenIndices) :
    ∃ files, saveAllQueryCache index getKv numDigestLayers digestTokenIndicesByLayer criticalLayers
      criticalTokenIndices = .ok files := by
  have hdigestLayers : ∀ id ∈ layerRange numDigestLayers.toNat, ∃ p,
      digestLayerKv getKv digestTokenIndicesByLayer id = .ok p ∧ p.1.Packable ∧ p.2.Packable := by
    intro id hid
    obtain ⟨l, hl, rfl⟩ := mem_layerRange.mp hid
    obtain ⟨idx, fullK, fullV, hidx, hkv, hk, hv⟩ := hdigest l hl
    obtain ⟨p, hp, hpack⟩ := selectKv_packable
      s!"Missing KV tensor for query cache layer {(l : Int)}" hk hv
    refine ⟨p, ?_, hpack⟩
    simp only [digestLayerKv, hidx, hkv, bind, Except.bind]
    exact hp
  have hcriticalLayers : ∀ id ∈ criticalLayers, ∃ p,
      criticalLayerKv getKv criticalTokenIndices id = .ok p ∧ p.1.Packable ∧ p.2.Packable := by
    intro id hid
    obtain ⟨fullK, fullV, hkv, hk, hv⟩ := hcritical id hid
    obtain ⟨p, hp, hpack⟩ := selectKv_packable s!"Missing KV tensor for query cache layer {id}" hk hv
    refine ⟨p, ?_, hpack⟩
    simp only [criticalLayerKv, hkv, bind, Except.bind]
    exact hp
  obtain ⟨digestLayers, w₁, hwrite₁⟩ := writeLayers_ok _ hdigestLayers [] ⟨[], 0⟩
  obtain ⟨criticalLayerMetas, w₂, hwrite₂⟩ := writeLayers_ok _ hcriticalLayers [] w₁
  simp only [saveAllQueryCache, hpayload, hmethod, hwrite₁, hwrite₂, bind, Except.bind, pure,
    Except.pure]
  exact ⟨_, rfl⟩

/-- The dictionary of `_query_section_layers_as_packed_meta`. -/
def collectLayers (sectionMeta : Json) : List Int → List (String × Json) → Py (List (String × Json))
  | [], layers => .ok layers
  | id :: ids, layers => do
    let layer ← (← sectionMeta.item "layers").item (toString id)
    collectLayers sectionMeta ids (Json.setItem (toString id) layer layers)

/-- `_query_section_layers_as_packed_meta(query_meta, section_name, layer_ids)`. -/
def querySectionLayersAsPackedMeta (queryMeta : Json) (sectionName : String)
    (layerIds : List Int) : Py Json := do
  let sectionMeta ← queryMeta.item sectionName
  let layers ← collectLayers sectionMeta layerIds []
  return .obj [("layers", .obj layers)]

theorem collectLayers_ok {fields layers : List (String × Json)}
    (hlayers : Json.lookup? "layers" fields = some (.obj layers)) (ids : List Int)
    (hids : ∀ id ∈ ids, ∃ layer, Json.lookup? (toString id) layers = some layer)
    (acc : List (String × Json)) :
    ∃ collected, collectLayers (.obj fields) ids acc = .ok collected ∧
      (∀ id ∈ ids, Json.lookup? (toString id) collected = Json.lookup? (toString id) layers) ∧
      ∀ key, (∀ id ∈ ids, toString id ≠ key) →
        Json.lookup? key collected = Json.lookup? key acc := by
  induction ids generalizing acc with
  | nil => exact ⟨acc, rfl, fun id hid => absurd hid List.not_mem_nil, fun _ _ => rfl⟩
  | cons id ids ih =>
    obtain ⟨layer, hlayer⟩ := hids id List.mem_cons_self
    obtain ⟨collected, hrun, hin, hout⟩ := ih
      (fun other hother => hids other (List.mem_cons_of_mem _ hother))
      (Json.setItem (toString id) layer acc)
    refine ⟨collected, ?_, ?_, ?_⟩
    · simp only [collectLayers, Json.item, hlayers, hlayer, bind, Except.bind]
      exact hrun
    · intro other hother
      rcases List.mem_cons.mp hother with rfl | hother
      · by_cases hmem : other ∈ ids
        · exact hin other hmem
        · have hne : ∀ x ∈ ids, toString x ≠ toString other := fun x hx heq =>
            hmem ((layerKey_injective heq : x = other) ▸ hx)
          rw [hout _ hne, Json.lookup?_setItem_self, hlayer]
      · exact hin other hother
    · intro key hkey
      rw [hout key fun other hother => hkey other (List.mem_cons_of_mem _ hother)]
      exact Json.lookup?_setItem_ne (Ne.symm (hkey id List.mem_cons_self)) _ _

/-- A section's layers, packed for reading, are stored where the section says. -/
theorem querySection_stored {queryMeta : Json} {fields layers : List (String × Json)}
    {sectionName : String} (bin : Bytes) (hsection : queryMeta.item sectionName = .ok (.obj fields))
    (hlayers : Json.lookup? "layers" fields = some (.obj layers)) (ids : List Int)
    (off : Int → Nat) (pair : Int → KvPair)
    (hstored : ∀ id ∈ ids, ∃ layer, Json.lookup? (toString id) layers = some layer ∧
      LayerEntry (off id) (pair id) layer ∧ off id + (pair id).nbytes ≤ bin.length ∧
      slice bin (off id) (pair id).nbytes = (pair id).bytes) :
    ∃ packedMeta, querySectionLayersAsPackedMeta queryMeta sectionName ids =
        .ok packedMeta ∧
      ∀ id ∈ ids, Stored bin packedMeta id (off id) (pair id) := by
  obtain ⟨collected, hrun, hin, -⟩ := collectLayers_ok hlayers ids (fun id hid => by
    obtain ⟨layer, hlook, -⟩ := hstored id hid
    exact ⟨layer, hlook⟩) []
  refine ⟨.obj [("layers", .obj collected)], ?_, fun id hid => ?_⟩
  · simp only [querySectionLayersAsPackedMeta, hsection, hrun, bind, Except.bind, pure,
      Except.pure]
  · obtain ⟨layer, hlook, hentry, hinside, hbytes⟩ := hstored id hid
    refine ⟨⟨_, collected, layer, rfl, rfl, ?_, hentry⟩, hinside, hbytes⟩
    rw [hin id hid, hlook]

/-- `_read_query_layers_to_slot`. -/
def readQueryLayersToSlot (memory : Nat → UInt8) (reads : List (Option Nat)) (files : CacheFiles)
    (queryMeta : Json) (sectionName : String) (layerIds : List Int) (slot : Slot) : Py Slot :=
  match layerIds, files.binFile with
  | [], _ => .error (.valueError "Cannot read empty query cache layer block")
  | _, none => .error (.fileNotFound "No such file or directory")
  | layerIds, some bin => do
    let packedMeta ← querySectionLayersAsPackedMeta queryMeta sectionName layerIds
    readBlockToSlot "query cache" "Query cache" memory reads bin packedMeta layerIds slot

/-- `_read_query_layer_from_open_file`: one layer, without the block checks. -/
def readQueryLayerFromOpenFile (memory : Nat → UInt8) (reads : List (Option Nat)) (bin : Bytes)
    (queryMeta : Json) (sectionName : String) (layerId : Int) (slot : Slot) : Py Slot := do
  let packedMeta ← querySectionLayersAsPackedMeta queryMeta sectionName [layerId]
  let firstK ← packedTensorMeta packedMeta layerId "k"
  let lastV ← packedTensorMeta packedMeta layerId "v"
  fillSlot memory reads bin packedMeta [layerId] firstK.offset (lastV.end_ - firstK.offset) slot

/-- `_load_query_layers_progressively`: the `on_layer` calls in order. `reads layerId` are the
outcomes of the raw reads for that layer. -/
def loadQueryLayersProgressively (memory : Nat → UInt8) (reads : Int → List (Option Nat))
    (files : CacheFiles) (queryMeta : Json) (sectionName : String) :
    List Int → Slot → Py (List (Int × KvPair))
  | [], _ => .ok []
  | layerId :: layerIds, slot =>
    match files.binFile with
    | none => .error (.fileNotFound "No such file or directory")
    | some bin => do
      let slot ← readQueryLayerFromOpenFile memory (reads layerId) bin queryMeta sectionName layerId
        ⟨slot.pinBuf, none⟩
      let kv ← copyPackedLayerFromBlockToGpu slot layerId
      let calls ← loadQueryLayersProgressively memory reads files queryMeta sectionName layerIds slot
      return (layerId, kv) :: calls

/-- `_load_query_layers_to_gpu`: the dictionary of the loaded layers, one entry a layer id; a
repeated id is the same entry again. -/
def loadQueryLayersToGpu (memory : Nat → UInt8) (reads : List (Option Nat)) (files : CacheFiles)
    (queryMeta : Json) (sectionName : String) (layerIds : List Int) (slot : Slot) :
    Py (List (Int × KvPair)) :=
  match layerIds with
  | [] => .ok []
  | layerIds => do
    let slot ← readQueryLayersToSlot memory reads files queryMeta sectionName layerIds
      ⟨slot.pinBuf, none⟩
    layerIds.mapM fun layerId => do return (layerId, ← copyPackedLayerFromBlockToGpu slot layerId)

/-! ## Restoring the context metadata -/

/-- `[int(x) for x in value]`. -/
def Json.intList (value : Json) : Py (List Int) := do (← value.iter).mapM Json.toInt

/-- `[[int(x) for x in chunk] for chunk in value]`. -/
def Json.intLists (value : Json) : Py (List (List Int)) := do (← value.iter).mapM Json.intList

theorem Json.intList_ofInts (xs : List Int) : (Json.ofInts xs).intList = .ok xs := by
  have hmap : (xs.map Json.int).mapM Json.toInt = .ok (xs.map id) := mapM_map_ok fun _ _ => rfl
  rw [List.map_id] at hmap
  exact hmap

theorem Json.intLists_ofIntLists (xss : List (List Int)) :
    (Json.ofIntLists xss).intLists = .ok xss := by
  have hmap : (xss.map Json.ofInts).mapM Json.intList = .ok (xss.map id) :=
    mapM_map_ok fun xs _ => Json.intList_ofInts xs
  rw [List.map_id] at hmap
  exact hmap

/-- An original chunk range is kept when it starts before the query and ends within it. -/
def keptPair (totalTokens : Int) (a b : Json) : Py (Option (Int × Int)) := do
  let start ← a.toInt
  if start < totalTokens then
    let stop ← b.toInt
    return if stop ≤ totalTokens then some (start, stop) else none
  else return none

/-- `len(r) == 2 and int(r[0]) < total_tokens and int(r[1]) <= total_tokens`, and the range. -/
def keptRange (totalTokens : Int) (range : Json) : Py (Option (Int × Int)) :=
  match range with
  | .arr [a, b] => keptPair totalTokens a b
  | .arr _ => .ok none
  | .str s =>
    match s.toList with
    | [a, b] => keptPair totalTokens (.str (String.singleton a)) (.str (String.singleton b))
    | _ => .ok none
  | .obj fields => if fields.length = 2 then .error (.keyError "0") else .ok none
  | _ => .error (.typeError "object has no len()")

/-- `_restore_context_pool_metadata(meta, index, digest_ratio)`; `managerLayers` is
`cls._num_layers`. -/
def restoreContextPoolMetadata (managerLayers : Nat) (info index : Json)
    (digestRatio : Option Rat) (pool : ContextPool) : Py ContextPool := do
  let rankedByChunk ← (← index.getD "ranked_indices_by_chunk" (.arr [])).intLists
  let rankedByLayerChunk ← (← (← index.getD "ranked_indices_by_layer_chunk" (.arr [])).iter).mapM
    Json.intLists
  let totalTokens ← (← info.getD "total_tokens" (.int 0)).toInt
  let storedLayers ← info.getD "num_layers" (.int managerLayers)
  let numLayers ← if storedLayers.truthy then storedLayers.toInt else .ok 0
  let ranges ← (← (← info.getD "orig_chunk_ranges" (.arr [])).iter).mapM (keptRange totalTokens)
  let pool := pool.setIndexMetadata rankedByChunk rankedByLayerChunk (ranges.filterMap id)
    totalTokens numLayers
  let materialized ← info.get "materialized_digest"
  let positions ← info.get "context_positions_by_layer"
  if materialized.truthy ∧ positions.truthy then
    return pool.setMaterializedPositions (← positions.intLists)
  else return pool.buildContextPositions (digestRatio.getD defaultDigestRatio)

/-- Restoring the positions leaves the loaded tensors alone. -/
theorem restoreContextPoolMetadata_buffers {managerLayers : Nat} {info index : Json}
    {digestRatio : Option Rat} {pool pool' : ContextPool}
    (h : restoreContextPoolMetadata managerLayers info index digestRatio pool = .ok pool') :
    pool'.kBuffer = pool.kBuffer ∧ pool'.vBuffer = pool.vBuffer := by
  unfold restoreContextPoolMetadata at h
  obtain ⟨byChunk, -, h⟩ := bind_ok h
  obtain ⟨rankedByChunk, -, h⟩ := bind_ok h
  obtain ⟨byLayer, -, h⟩ := bind_ok h
  obtain ⟨layers, -, h⟩ := bind_ok h
  obtain ⟨rankedByLayerChunk, -, h⟩ := bind_ok h
  obtain ⟨total, -, h⟩ := bind_ok h
  obtain ⟨totalTokens, -, h⟩ := bind_ok h
  obtain ⟨storedLayers, -, h⟩ := bind_ok h
  -- `or 0` is taken in both branches alike
  split at h <;>
  · obtain ⟨numLayers, -, h⟩ := bind_ok h
    obtain ⟨stored, -, h⟩ := bind_ok h
    obtain ⟨rangeItems, -, h⟩ := bind_ok h
    obtain ⟨ranges, -, h⟩ := bind_ok h
    obtain ⟨materialized, -, h⟩ := bind_ok h
    obtain ⟨positions, -, h⟩ := bind_ok h
    split at h
    next =>
      obtain ⟨positionsByLayer, -, h⟩ := bind_ok h
      cases h
      exact ⟨rfl, rfl⟩
    next =>
      cases h
      exact ⟨rfl, rfl⟩

/-- `restore_query_metadata(sample_dir, digest_index_method, digest_ratio)` on the metadata
`_load_query_meta` returns. -/
def restoreQueryMetadata (managerLayers : Nat) (queryMeta : Json) (digestIndexMethod : Json)
    (digestRatio : Option Rat) (pool : ContextPool) : Py ContextPool := do
  let method ← normalizeMethod digestIndexMethod
  let info ← queryMeta.getD "metadata" (.obj [])
  match ← queryMeta.getD "indices_by_method" (.obj []) with
  | .obj indices =>
    match Json.lookup? method indices with
    | some index => restoreContextPoolMetadata managerLayers info index digestRatio pool
    | none => .error (.valueError "Digest method is not available in query cache")
  | _ => .error (.typeError "argument is not iterable")

theorem restoreQueryMetadata_buffers {managerLayers : Nat} {queryMeta method : Json}
    {digestRatio : Option Rat} {pool pool' : ContextPool}
    (h : restoreQueryMetadata managerLayers queryMeta method digestRatio pool = .ok pool') :
    pool'.kBuffer = pool.kBuffer ∧ pool'.vBuffer = pool.vBuffer := by
  unfold restoreQueryMetadata at h
  obtain ⟨method, -, h⟩ := bind_ok h
  obtain ⟨info, -, h⟩ := bind_ok h
  obtain ⟨indices, -, h⟩ := bind_ok h
  split at h
  next =>
    split at h
    next => exact restoreContextPoolMetadata_buffers h
    next => cases h
  next => cases h

end QCFuse.Source
