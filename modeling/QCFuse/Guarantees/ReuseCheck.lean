import QCFuse.Guarantees.ValidatorSoundness
import QCFuse.Source.CacheReuse

/-!
# A cache that is reused can be loaded

`_has_cache` looks at the formats and at the recorded parameters, the loaders at every layer's entry and
at the size of the bin file. What acceptance by the loaders comes to is stated on the two directories;
under the check, the load succeeds and installs the recorded positions exactly where that holds.
-/

set_option autoImplicit false

namespace QCFuse.Guarantees

open QCFuse.Library QCFuse.Source

/-! ## Entries that tile a file are accepted -/

theorem asInt_ok {x : Json} {i : Int} (h : asInt x = .ok i) : x.asInt? = some i := by
  unfold asInt at h
  split at h
  next found hfound =>
    cases h
    exact hfound
  next => cases h

theorem getD_lookup {fields : List (String × Json)} {key : String} {value : Json}
    (h : (Json.obj fields).item key = .ok value) : (Json.lookup? key fields).getD .null = value := by
  obtain ⟨found, hobj, hlook⟩ := item_ok h
  cases hobj
  rw [hlook, Option.getD_some]

/-- What the readers find at an offset is accepted there. -/
theorem validateTensorItem_complete (kind label : String) {fileSize : Nat} {layer : List (String × Json)}
    {info layers : Json} {layerId : Int} {name : String} {found : TensorMeta}
    (hfound : packedTensorMeta info layerId name = .ok found) (hlayers : info.item "layers" = .ok layers)
    (hlayer : layers.item (toString layerId) = .ok (.obj layer)) (hoffset : 0 ≤ found.offset)
    (hend : found.end_ = found.offset + found.nbytes)
    (hnbytes : found.nbytes = ((found.shape.prod * found.dtype.itemsize : Nat) : Int))
    (hstop : found.end_ ≤ fileSize) :
    validateTensorItem kind label fileSize ((Json.lookup? name layer).getD .null) found.offset =
      .ok found.end_ := by
  obtain ⟨_, hlayers', hfound⟩ := bind_ok hfound
  obtain rfl := Except.ok.inj (hlayers.symm.trans hlayers')
  obtain ⟨_, hlayer', hfound⟩ := bind_ok hfound
  obtain rfl := Except.ok.inj (hlayer.symm.trans hlayer')
  obtain ⟨item, hitem, hfound⟩ := bind_ok hfound
  obtain ⟨offsetJson, hoffsetItem, hfound⟩ := bind_ok hfound
  obtain ⟨offset, hoffsetInt, hfound⟩ := bind_ok hfound
  obtain ⟨nbytesJson, hnbytesItem, hfound⟩ := bind_ok hfound
  obtain ⟨nbytes, hnbytesInt, hfound⟩ := bind_ok hfound
  obtain ⟨shape, hshapeItem, hfound⟩ := bind_ok hfound
  obtain ⟨dtypeJson, hdtypeItem, hfound⟩ := bind_ok hfound
  obtain ⟨dtype, hdtype, hfound⟩ := bind_ok hfound
  split at hfound
  next dims hdims =>
    cases hfound
    obtain ⟨fields, rfl, -⟩ := item_ok hoffsetItem
    simp only at hoffset hend hnbytes hstop ⊢
    have hrange : ¬ (offset < 0 ∨ nbytes < 0 ∨ (fileSize : Int) < offset + nbytes) := by omega
    rw [getD_lookup hitem]
    simp only [validateTensorItem, getD_lookup hoffsetItem, getD_lookup hnbytesItem, getD_lookup hshapeItem,
      getD_lookup hdtypeItem, asInt_ok hoffsetInt, asInt_ok hnbytesInt, if_neg hrange, hdims, hdtype, ne_eq,
      not_true_eq_false, if_false, bind, Except.bind, pure, Except.pure]
    rw [if_neg (not_not.mpr hnbytes)]
  next => cases hfound

theorem validateLayers_complete (kind : String) (fileSize : Nat) {layers : List (String × Json)}
    {info : Json} {ids : List Int} {items : List TensorMeta} {first stop : Int}
    (hlayers : info.item "layers" = .ok (.obj layers)) (hitems : layerItems info ids = .ok items)
    (htiles : Tiles items first stop) (hfirst : 0 ≤ first) (hstop : stop ≤ fileSize) :
    validateLayers kind layers fileSize ids first = .ok stop := by
  induction ids generalizing items first with
  | nil =>
    cases hitems
    obtain rfl : first = stop := htiles
    rfl
  | cons id ids ih =>
    obtain ⟨k, hk, hitems⟩ := bind_ok hitems
    obtain ⟨v, hv, hitems⟩ := bind_ok hitems
    obtain ⟨rest, hrest, hitems⟩ := bind_ok hitems
    cases hitems
    obtain ⟨hkOffset, hkEnd, hkNbytes, hvOffset, hvEnd, hvNbytes, htail⟩ := htiles
    have hle := htail.le
    obtain ⟨_, hlayersK, hkEntry⟩ := bind_ok hk
    obtain rfl := Except.ok.inj (hlayers.symm.trans hlayersK)
    obtain ⟨layer, hlayer, hkEntry⟩ := bind_ok hkEntry
    obtain ⟨_, hkItem, -⟩ := bind_ok hkEntry
    obtain ⟨layer, rfl, -⟩ := item_ok hkItem
    have hkAccept := validateTensorItem_complete kind s!"layer {id}.k" hk hlayers hlayer
      (by omega) hkEnd hkNbytes (by omega : k.end_ ≤ fileSize)
    have hvAccept := validateTensorItem_complete kind s!"layer {id}.v" hv hlayers hlayer
      (by omega) hvEnd hvNbytes (by omega : v.end_ ≤ fileSize)
    rw [hkOffset] at hkAccept
    rw [hvOffset] at hvAccept
    have hhead : validateLayer kind layers fileSize id first = .ok v.end_ := by
      simp only [validateLayer, getD_lookup hlayer, hkAccept, hvAccept, bind, Except.bind]
    have hrun := ih hrest htail (by omega)
    simp only [validateLayers, hhead, hrun, bind, Except.bind]

/-! ## What the loaders accept -/

/-- K and V of the layers `ids` lie one after the other from `first` to `stop`, each as long as its shape
and dtype say. -/
def SectionTiles (sectionMeta : Json) (ids : List Int) (first stop : Int) : Prop :=
  ∃ items, layerItems sectionMeta ids = .ok items ∧ Tiles items first stop

theorem validateQueryLayers_complete (fileSize : Nat) {sectionMeta : Json} {layerIds : List Json}
    {ids : List Int} {first stop : Int} (hids : layerIds.mapM Json.toInt = .ok ids)
    (htiles : SectionTiles sectionMeta ids first stop) (hfirst : 0 ≤ first) (hstop : stop ≤ fileSize) :
    validateQueryLayers sectionMeta fileSize layerIds first = .ok stop := by
  obtain ⟨items, hitems, htiles⟩ := htiles
  induction layerIds generalizing ids items first with
  | nil =>
    cases hids
    cases hitems
    obtain rfl : first = stop := htiles
    rfl
  | cons layerId layerIds ih =>
    rw [List.mapM_cons] at hids
    obtain ⟨id, hid, hids⟩ := bind_ok hids
    obtain ⟨ids, hrestIds, hids⟩ := bind_ok hids
    cases hids
    obtain ⟨k, hk, hitems⟩ := bind_ok hitems
    obtain ⟨v, hv, hitems⟩ := bind_ok hitems
    obtain ⟨rest, hrest, hitems⟩ := bind_ok hitems
    cases hitems
    obtain ⟨hkOffset, hkEnd, hkNbytes, hvOffset, hvEnd, hvNbytes, htail⟩ := htiles
    have hle := htail.le
    have hrun := ih hrestIds (by omega) rest hrest htail
    obtain ⟨fields, layers, layer, rfl, hlayers, -⟩ := packedTensorMeta_layer hk
    have hone : layerItems (.obj fields) [id] = .ok [k, v] := by
      simp only [layerItems, hk, hv, bind, Except.bind, pure, Except.pure]
    have hhead := validateLayers_complete "query cache" fileSize (item_of_lookup hlayers) hone
      ⟨hkOffset, hkEnd, hkNbytes, hvOffset, hvEnd, hvNbytes, rfl⟩ hfirst (by omega : v.end_ ≤ fileSize)
    obtain ⟨after, hlayer, hlast⟩ := bind_ok hhead
    obtain rfl : after = v.end_ := Except.ok.inj hlast
    simp only [validateQueryLayers, hid, validateQueryLayer, Json.get, hlayers, Option.getD_some, hlayer,
      hrun, bind, Except.bind]

/-- The chunk metadata describes `numLayers` layers that fill the bin file. -/
structure ChunkFits (numLayers : Nat) (info : Json) (bin : Bytes) : Prop where
  count : ∃ n, info.get "num_layers" = .ok n ∧ n.asInt? = some (numLayers : Int)
  dict : ∃ layers, info.get "layers" = .ok (.obj layers)
  tiles : SectionTiles info (layerRange numLayers) 0 bin.length

theorem item_of_get_obj {info : Json} {key : String} {fields : List (String × Json)}
    (h : info.get key = .ok (.obj fields)) : info.item key = .ok (.obj fields) :=
  item_of_get_dict h rfl

theorem loadPackedMeta_iff {numLayers : Nat} {info : Json} {bin : Bytes}
    (hformat : info.get "format" = .ok (.str packedFormat)) :
    (∃ loaded, loadPackedMeta ⟨some info, some bin⟩ (some numLayers) = .ok loaded) ↔
      ChunkFits numLayers info bin := by
  constructor
  · rintro ⟨loaded, h⟩
    obtain ⟨rfl, -⟩ := loadPackedMeta_sound h
    simp only [loadPackedMeta, hformat, bind, Except.bind, ne_eq, not_true_eq_false, if_false] at h
    obtain ⟨n, hn, h⟩ := bind_ok h
    split at h
    next => cases h
    next found hint =>
      split at h
      next => cases h
      next hnonneg =>
        split at h
        next => cases h
        next hexpected =>
          obtain rfl : (numLayers : Int) = found := not_not.mp hexpected
          obtain ⟨layersJson, hget, h⟩ := bind_ok h
          split at h
          next layers =>
            obtain ⟨written, hvalid, h⟩ := bind_ok h
            split at h
            next => cases h
            next hsize =>
              rw [not_not.mp hsize, Int.toNat_natCast] at hvalid
              obtain ⟨items, hitems, htiles⟩ := validateLayers_sound hvalid (item_of_get_obj hget)
              exact ⟨⟨n, hn, hint⟩, ⟨layers, hget⟩, ⟨items, hitems, htiles⟩⟩
          next => cases h
  · rintro ⟨⟨n, hn, hint⟩, ⟨layers, hget⟩, ⟨items, hitems, htiles⟩⟩
    have hvalid := validateLayers_complete "packed KV" bin.length
      (item_of_get_obj hget) hitems htiles (le_refl _) (le_refl _)
    refine ⟨info, ?_⟩
    simp only [loadPackedMeta, hformat, hn, hint, hget, hvalid, Option.getD_some, Int.toNat_natCast, ne_eq,
      not_true_eq_false, if_false, bind, Except.bind, pure, Except.pure]
    rw [if_neg (by omega)]

/-- The query metadata describes digest layers, then the layers of `layer_ids`, that fill the bin file. -/
def QueryFits (queryMeta : Json) (bin : Bytes) : Prop :=
  ∃ digest critical n numDigestLayers criticalJson criticalIds middle,
    queryMeta.get "digest" = .ok (.obj digest) ∧ queryMeta.get "critical" = .ok (.obj critical) ∧
    (Json.obj digest).get "num_layers" = .ok n ∧ n.asInt? = some ((numDigestLayers : Nat) : Int) ∧
    (Json.obj critical).getD "layer_ids" (.arr []) = .ok (.arr criticalJson) ∧
    criticalJson.mapM Json.toInt = .ok criticalIds ∧
    SectionTiles (.obj digest) (layerRange numDigestLayers) 0 middle ∧
    SectionTiles (.obj critical) criticalIds middle bin.length

theorem isDict_obj {x : Json} (h : x.isDict = true) : ∃ fields, x = .obj fields := by
  cases x with
  | obj fields => exact ⟨fields, rfl⟩
  | _ => cases h

theorem mapM_toInt_layerRange (n : Nat) :
    ((layerRange n).map Json.int).mapM Json.toInt = .ok (layerRange n) := by
  have hmap : ((layerRange n).map Json.int).mapM Json.toInt = .ok ((layerRange n).map id) :=
    mapM_map_ok fun _ _ => rfl
  rwa [List.map_id] at hmap

theorem readQueryMeta_iff {queryMeta : Json} {bin : Bytes}
    (hformat : queryMeta.get "format" = .ok (.str queryCacheFormat)) :
    (∃ loaded, readQueryMeta ⟨some queryMeta, some bin⟩ = .ok loaded) ↔ QueryFits queryMeta bin := by
  constructor
  · rintro ⟨loaded, h⟩
    obtain rfl := readQueryMeta_info h
    obtain ⟨found, digest, critical, numLayers, criticalJson, afterDigest, hchecked⟩ := readQueryMeta_checked h
    obtain rfl : bin = found := Option.some.inj hchecked.binFile
    obtain ⟨digestIds, digestItems, hdigestIds, hdigestTiles⟩ := validateQueryLayers_sound hchecked.digestLayers
    obtain ⟨criticalIds, criticalItems, hcriticalIds, hcriticalTiles⟩ :=
      validateQueryLayers_sound hchecked.criticalLayers
    rw [mapM_toInt_layerRange] at hdigestIds
    obtain rfl := Except.ok.inj hdigestIds
    obtain ⟨digest, rfl⟩ := isDict_obj hchecked.dicts.1
    obtain ⟨critical, rfl⟩ := isDict_obj hchecked.dicts.2
    obtain ⟨n, hn, hint⟩ := hchecked.numLayers
    refine ⟨digest, critical, n, numLayers.toNat, criticalJson, criticalIds, afterDigest,
      hchecked.digestSection, hchecked.criticalSection, hn, ?_, hchecked.layerIds, hcriticalIds,
      ⟨digestItems, hdigestTiles⟩, ⟨criticalItems, hcriticalTiles⟩⟩
    rw [hint, Int.toNat_of_nonneg hchecked.nonneg]
  · rintro ⟨digest, critical, n, numDigestLayers, criticalJson, criticalIds, middle, hdigest, hcritical, hn,
      hint, hids, hcriticalIds, hdigestTiles, hcriticalTiles⟩
    have hmiddle : (0 : Int) ≤ middle ∧ middle ≤ bin.length :=
      ⟨hdigestTiles.choose_spec.2.le, hcriticalTiles.choose_spec.2.le⟩
    have hdigestRun := validateQueryLayers_complete bin.length (mapM_toInt_layerRange _)
      hdigestTiles (le_refl _) hmiddle.2
    have hcriticalRun := validateQueryLayers_complete bin.length hcriticalIds hcriticalTiles
      hmiddle.1 (le_refl _)
    refine ⟨queryMeta, ?_⟩
    simp only [readQueryMeta, hformat, hdigest, hcritical, hn, hint, hids, hdigestRun, hcriticalRun,
      Json.isDict, Int.toNat_natCast, ne_eq, not_true_eq_false, if_false, bind, Except.bind, pure, Except.pure]
    simp

/-! ## The restore -/

/-- The metadata and the index have the types the restore converts, positions are stored, and the method
they were materialised with is `method`. -/
structure MetadataFits (managerLayers : Nat) (method : String) (info index : Json) : Prop where
  rankedByChunk : ∃ ranked lists, index.getD "ranked_indices_by_chunk" (.arr []) = .ok ranked ∧
    ranked.intLists = .ok lists
  rankedByLayer : ∃ ranked items lists, index.getD "ranked_indices_by_layer_chunk" (.arr []) = .ok ranked ∧
    ranked.iter = .ok items ∧ items.mapM Json.intLists = .ok lists
  ranges : ∃ total totalTokens ranges items kept, info.getD "total_tokens" (.int 0) = .ok total ∧
    total.toInt = .ok totalTokens ∧ info.getD "orig_chunk_ranges" (.arr []) = .ok ranges ∧
    ranges.iter = .ok items ∧ items.mapM (keptRange totalTokens) = .ok kept
  numLayers : ∃ stored, info.getD "num_layers" (.int managerLayers) = .ok stored ∧
    (stored.truthy = true → ∃ n, stored.toInt = .ok n)
  positions : ∃ stored lists, info.get "context_positions_by_layer" = .ok stored ∧ stored.truthy = true ∧
    stored.intLists = .ok lists
  method : info.get "digest_index_method" = .ok (.str method)

/-- The positions the metadata stores. -/
def StoredPositions (info : Json) (positions : List (List Int)) : Prop :=
  ∃ stored, info.get "context_positions_by_layer" = .ok stored ∧ stored.intLists = .ok positions

theorem intLists_of_not_truthy {value : Json} {lists : List (List Int)} (h : ¬ value.truthy = true)
    (hlists : value.intLists = .ok lists) : lists = [] := by
  cases value with
  | arr items =>
    cases items with
    | nil =>
      cases hlists
      rfl
    | cons item items => exact absurd rfl h
  | str s =>
    obtain rfl : s = "" := by simpa [Json.truthy] using h
    cases hlists
    rfl
  | obj fields =>
    cases fields with
    | nil =>
      cases hlists
      rfl
    | cons field fields => exact absurd rfl h
  | _ => cases hlists

theorem buildContextPositions_ne_nil (pool : ContextPool) (digestRatio : Rat) :
    (pool.buildContextPositions digestRatio).contextPositionsByLayer ≠ [] := by
  intro hnil
  have hlen := congrArg List.length hnil
  simp only [ContextPool.buildContextPositions, List.length_map, List.length_range, List.length_nil,
    ContextPool.numBuiltLayers] at hlen
  omega

/-- With materialised positions asked for, the restore ends with the stored ones exactly if it can
convert what it reads and some are stored. -/
theorem restoreContextPoolMetadata_iff {managerLayers : Nat} {info index materialized : Json}
    (digestRatio : Option Rat) (pool : ContextPool)
    (hmaterialized : info.get "materialized_digest" = .ok materialized) (htrue : materialized.truthy = true)
    {method : String} (hmethod : info.get "digest_index_method" = .ok (.str method)) :
    (∃ loaded, restoreContextPoolMetadata managerLayers info index digestRatio pool = .ok loaded ∧
        StoredPositions info loaded.contextPositionsByLayer) ↔
      MetadataFits managerLayers method info index := by
  constructor
  · rintro ⟨loaded, h, stored, hstored, hpositions⟩
    unfold restoreContextPoolMetadata at h
    obtain ⟨byChunk, hbyChunk, h⟩ := bind_ok h
    obtain ⟨rankedByChunk, hrankedByChunk, h⟩ := bind_ok h
    obtain ⟨byLayer, hbyLayer, h⟩ := bind_ok h
    obtain ⟨layers, hlayers, h⟩ := bind_ok h
    obtain ⟨rankedByLayerChunk, hrankedByLayerChunk, h⟩ := bind_ok h
    obtain ⟨total, htotal, h⟩ := bind_ok h
    obtain ⟨totalTokens, htotalTokens, h⟩ := bind_ok h
    obtain ⟨storedLayers, hstoredLayers, h⟩ := bind_ok h
    have hnumLayers : (storedLayers.truthy = true → ∃ n, storedLayers.toInt = .ok n) ∧ ∃ ranges items kept,
        info.getD "orig_chunk_ranges" (.arr []) = .ok ranges ∧ ranges.iter = .ok items ∧
        items.mapM (keptRange totalTokens) = .ok kept ∧ stored.truthy = true := by
      split at h
      all_goals
        obtain ⟨numLayers, hnum, h⟩ := bind_ok h
        obtain ⟨ranges, hranges, h⟩ := bind_ok h
        obtain ⟨items, hitems, h⟩ := bind_ok h
        obtain ⟨kept, hkept, h⟩ := bind_ok h
        obtain ⟨_, -, h⟩ := bind_ok h
        obtain ⟨found, hfound, h⟩ := bind_ok h
        obtain rfl : stored = found := Except.ok.inj (hstored.symm.trans hfound)
        refine ⟨fun htruthy => ?_, ranges, items, kept, hranges, hitems, hkept, ?_⟩
      · exact ⟨numLayers, hnum⟩
      · by_contra hempty
        rw [if_neg fun hboth => hempty hboth.2] at h
        cases h
        exact buildContextPositions_ne_nil _ _ (intLists_of_not_truthy hempty hpositions)
      · contradiction
      · by_contra hempty
        rw [if_neg fun hboth => hempty hboth.2] at h
        cases h
        exact buildContextPositions_ne_nil _ _ (intLists_of_not_truthy hempty hpositions)
    obtain ⟨hnum, ranges, items, kept, hranges, hitems, hkept, htruthy⟩ := hnumLayers
    exact ⟨⟨byChunk, _, hbyChunk, hrankedByChunk⟩,
      ⟨byLayer, layers, _, hbyLayer, hlayers, hrankedByLayerChunk⟩,
      ⟨total, totalTokens, ranges, items, kept, htotal, htotalTokens, hranges, hitems, hkept⟩,
      ⟨storedLayers, hstoredLayers, hnum⟩, ⟨stored, _, hstored, htruthy, hpositions⟩, hmethod⟩
  · rintro ⟨⟨byChunk, rankedByChunk, hbyChunk, hrankedByChunk⟩,
      ⟨byLayer, layers, rankedByLayerChunk, hbyLayer, hlayers, hrankedByLayer⟩,
      ⟨total, totalTokens, ranges, items, kept, htotal, htotalTokens, hranges, hitems, hkept⟩,
      ⟨storedLayers, hstoredLayers, hnum⟩, ⟨stored, lists, hstored, htruthy, hlists⟩, -⟩
    let restored (numLayers : Int) := (pool.setIndexMetadata rankedByChunk rankedByLayerChunk
      (kept.filterMap id) totalTokens numLayers).setMaterializedPositions lists
    by_cases hzero : storedLayers.truthy = true
    · obtain ⟨n, hn⟩ := hnum hzero
      refine ⟨restored n, ?_, stored, hstored, hlists⟩
      simp only [restoreContextPoolMetadata, hbyChunk, hrankedByChunk, hbyLayer, hlayers, hrankedByLayer,
        htotal, htotalTokens, hstoredLayers, hzero, hn, hranges, hitems, hkept, hmaterialized, hstored, htrue,
        htruthy, hlists, and_self, if_true, bind, Except.bind, pure, Except.pure, restored]
    · refine ⟨restored 0, ?_, stored, hstored, hlists⟩
      simp only [restoreContextPoolMetadata, hbyChunk, hrankedByChunk, hbyLayer, hlayers, hrankedByLayer,
        htotal, htotalTokens, hstoredLayers, hzero, hranges, hitems, hkept, hmaterialized, hstored, htrue,
        htruthy, hlists, and_self, if_true, bind, Except.bind, pure, Except.pure, restored]
      rfl

/-! ## What the check has seen -/

/-- What `_has_cache` knows of query metadata it accepts. -/
structure CheckPassed (engine : PipelineEngine) (criticalLayers : List Nat) (queryMeta : Json)
    (method : String) (info : Json) : Prop where
  normalized : normalizeMethod (.str engine.digestIndexMethod) = .ok method
  metadata : queryMeta.getD "metadata" (.obj []) = .ok info
  ratio : ∃ stored, info.get "digest_ratio" = .ok stored ∧ digestRatioMatches stored engine.digestRatio = true
  materialized : ∃ stored, info.get "materialized_digest" = .ok stored ∧ stored.isTrue = true
  sink : ∃ indices index stored, queryMeta.getD "indices_by_method" (.obj []) = .ok indices ∧
    indices.getD method (.obj []) = .ok index ∧ index.getD "context_n_sink" (.int (-1)) = .ok stored ∧
    contextNSinkMatches stored engine.contextNSink = true
  digest : ∃ digest stored, queryMeta.getD "digest" (.obj []) = .ok digest ∧
    digest.get "num_layers" = .ok stored ∧ stored.equalsInt (qcomputeEnd criticalLayers) = true
  critical : ∃ critical stored ids, queryMeta.getD "critical" (.obj []) = .ok critical ∧
    critical.getD "layer_ids" (.arr []) = .ok stored ∧ stored.intList = .ok ids ∧
    ∀ layer ∈ criticalLayers, (layer : Int) ∈ ids

theorem queryMetaMatches_true {engine : PipelineEngine} {criticalLayers : List Nat} {queryMeta : Json}
    (h : queryMetaMatches engine criticalLayers queryMeta = .ok true) :
    ∃ method info, CheckPassed engine criticalLayers queryMeta method info := by
  obtain ⟨info, hinfo, h⟩ := bind_ok h
  obtain ⟨method, hmethod, h⟩ := bind_ok h
  obtain ⟨digestRatio, hratio, h⟩ := bind_ok h
  obtain ⟨_, -, h⟩ := bind_ok h
  obtain ⟨_, -, h⟩ := bind_ok h
  obtain ⟨_, -, h⟩ := bind_ok h
  obtain ⟨indices, hindices, h⟩ := bind_ok h
  obtain ⟨index, hindex, h⟩ := bind_ok h
  obtain ⟨contextNSink, hsink, h⟩ := bind_ok h
  obtain ⟨_, -, h⟩ := bind_ok h
  obtain ⟨materialized, hmaterialized, h⟩ := bind_ok h
  split at h
  next hmatch =>
    simp only [Bool.and_eq_true] at hmatch
    obtain ⟨digest, hdigest, h⟩ := bind_ok h
    obtain ⟨numLayers, hnum, h⟩ := bind_ok h
    split at h
    next hcounts =>
      rw [Bool.and_eq_true] at hcounts
      obtain ⟨critical, hcritical, h⟩ := bind_ok h
      obtain ⟨layerIds, hlayerIds, h⟩ := bind_ok h
      obtain ⟨ids, hids, h⟩ := bind_ok h
      have hall := List.all_eq_true.mp (Except.ok.inj h)
      exact ⟨method, info, hmethod, hinfo, ⟨_, hratio, hmatch.1.1.2⟩, ⟨_, hmaterialized, hmatch.1.1.1.2⟩,
        ⟨_, _, _, hindices, hindex, hsink, hcounts.2⟩, ⟨_, _, hdigest, hnum, hcounts.1⟩,
        ⟨_, _, ids, hcritical, hlayerIds, hids, fun layer hlayer => of_decide_eq_true (hall layer hlayer)⟩⟩
    next => cases h
  next => cases h

theorem equalsStr_true {x : Json} {s : String} (h : x.equalsStr s = true) : x = .str s := by
  cases x with
  | str t =>
    rw [Json.equalsStr, decide_eq_true_eq] at h
    rw [h]
  | _ => cases h

theorem hasFormat_true {format : String} {files : CacheFiles} (h : hasFormat format files = .ok true) :
    ∃ info bin, files = ⟨some info, some bin⟩ ∧ info.get "format" = .ok (.str format) := by
  obtain ⟨metaFile, binFile⟩ := files
  unfold hasFormat at h
  split at h
  next bin info hbin hmeta =>
    obtain ⟨found, hfound, h⟩ := bind_ok h
    rw [equalsStr_true (Except.ok.inj h)] at hfound
    obtain rfl : binFile = some bin := hbin
    obtain rfl : metaFile = some info := hmeta
    exact ⟨info, bin, rfl, hfound⟩
  next => cases h

/-- Both directories have their two files in the right format, and the query metadata matches. -/
theorem hasCache_true {engine : PipelineEngine} {chunk query : CacheFiles} {criticalLayers : List Nat}
    (hcritical : criticalLayers ≠ [])
    (h : hasCache engine chunk query true (some criticalLayers) = .ok true) :
    ∃ chunkInfo chunkBin queryMeta queryBin method info, chunk = ⟨some chunkInfo, some chunkBin⟩ ∧
      query = ⟨some queryMeta, some queryBin⟩ ∧ chunkInfo.get "format" = .ok (.str packedFormat) ∧
      queryMeta.get "format" = .ok (.str queryCacheFormat) ∧
      CheckPassed engine criticalLayers queryMeta method info := by
  obtain ⟨packed, hpacked, hquery⟩ := bind_ok h
  cases packed with
  | false => cases hquery
  | true =>
    obtain ⟨chunkInfo, chunkBin, rfl, hchunkFormat⟩ := hasFormat_true hpacked
    simp only [Bool.not_true, Bool.false_eq_true, if_false, Option.getD_some, if_neg hcritical] at hquery
    obtain ⟨found, hfound, hmatches⟩ := bind_ok hquery
    cases found with
    | false => cases hmatches
    | true =>
      obtain ⟨queryMeta, queryBin, rfl, hqueryFormat⟩ := hasFormat_true hfound
      obtain ⟨method, info, hpassed⟩ := queryMetaMatches_true hmatches
      exact ⟨chunkInfo, chunkBin, queryMeta, queryBin, method, info, rfl, rfl, hchunkFormat, hqueryFormat,
        hpassed⟩

theorem equalsInt_toInt {x : Json} {n : Int} (h : x.equalsInt n = true) : x.toInt = .ok n := by
  cases x with
  | int i =>
    rw [Json.equalsInt, decide_eq_true_eq] at h
    rw [Json.toInt, h]
  | bool b =>
    rw [Json.equalsInt, decide_eq_true_eq] at h
    rw [Json.toInt, h]
  | float q =>
    rw [Json.equalsInt, decide_eq_true_eq] at h
    rw [Json.toInt, h, Rat.num_intCast, Rat.den_intCast, Nat.cast_one, Int.tdiv_one]
  | _ => cases h

theorem getD_of_get {x value default : Json} {key : String} (h : x.get key = .ok value) (hvalue : value ≠ .null) :
    x.getD key default = .ok value := by
  cases x with
  | obj fields =>
    rw [Json.getD, lookup_of_getD (Except.ok.inj h) hvalue, Option.getD_some]
  | _ => cases h

/-- The layers that are asked for are among those the check has seen. -/
theorem CheckPassed.layersFound {engine : PipelineEngine} {criticalLayers : List Nat} {queryMeta info : Json}
    {method : String} (h : CheckPassed engine criticalLayers queryMeta method info) :
    startQueryCacheCheck (qcomputeEnd criticalLayers) criticalLayers queryMeta = .ok () := by
  obtain ⟨digest, stored, hdigest, hnum, hequals⟩ := h.digest
  obtain ⟨critical, layerIds, ids, hcritical, hlayerIds, hids, hall⟩ := h.critical
  have hnumD : digest.getD "num_layers" (.int 0) = .ok stored := getD_of_get hnum (by
    rintro rfl
    cases hequals)
  have hfound : (criticalLayers.all fun layer => decide ((layer : Int) ∈ ids)) = true :=
    List.all_eq_true.mpr fun layer hlayer => decide_eq_true (hall layer hlayer)
  simp only [startQueryCacheCheck, hdigest, hcritical, hnumD, equalsInt_toInt hequals, lt_irrefl, if_false,
    hlayerIds, hids, hfound, if_true, bind, Except.bind, pure, Except.pure]

/-! ## The check and the load -/

/-- The query metadata records `positions` as materialised with the engine's ratio, method and number of
sink tokens. -/
def RecordedFor (engine : PipelineEngine) (queryMeta : Json) (positions : List (List Int)) : Prop :=
  ∃ method info indices index, normalizeMethod (.str engine.digestIndexMethod) = .ok method ∧
    queryMeta.getD "metadata" (.obj []) = .ok info ∧
    queryMeta.getD "indices_by_method" (.obj []) = .ok (.obj indices) ∧
    Json.lookup? method indices = some index ∧ info.get "digest_index_method" = .ok (.str method) ∧
    (∃ stored, info.get "digest_ratio" = .ok stored ∧ digestRatioMatches stored engine.digestRatio = true) ∧
    (∃ stored, index.getD "context_n_sink" (.int (-1)) = .ok stored ∧
      contextNSinkMatches stored engine.contextNSink = true) ∧
    StoredPositions info positions

/-- The online load succeeds and installs the positions recorded for the engine's parameters. -/
def LoadsRecorded (engine : PipelineEngine) (numLayers : Nat) (queryDir : String) (chunk query : CacheFiles)
    (pool : ContextPool) : Prop :=
  ∃ loaded queryMeta, onlineLoad engine numLayers queryDir chunk query pool = .ok loaded ∧
    query.metaFile = some queryMeta ∧ RecordedFor engine queryMeta loaded.contextPositionsByLayer

/-- The entries of both metadata files tile their bin files, the chunk cache has as many layers as the
model, and the index of the method and the stored positions can be restored. -/
def CacheFits (engine : PipelineEngine) (numLayers : Nat) (chunk query : CacheFiles) : Prop :=
  ∃ chunkInfo chunkBin queryMeta queryBin method info indices index,
    chunk = ⟨some chunkInfo, some chunkBin⟩ ∧ query = ⟨some queryMeta, some queryBin⟩ ∧
    ChunkFits numLayers chunkInfo chunkBin ∧ QueryFits queryMeta queryBin ∧
    normalizeMethod (.str engine.digestIndexMethod) = .ok method ∧
    queryMeta.getD "metadata" (.obj []) = .ok info ∧
    queryMeta.getD "indices_by_method" (.obj []) = .ok (.obj indices) ∧
    Json.lookup? method indices = some index ∧ MetadataFits numLayers method info index

theorem loadQueryMeta_fresh {queryDir : String} {query : CacheFiles} {queryMeta : Json} :
    (∃ cache, loadQueryMeta none queryDir query = .ok (queryMeta, cache)) ↔
      readQueryMeta query = .ok queryMeta := by
  constructor
  · rintro ⟨cache, h⟩
    obtain ⟨found, hfound, h⟩ := bind_ok h
    cases h
    exact hfound
  · intro h
    exact ⟨some (queryDir, queryMeta), by simp only [loadQueryMeta, h, bind, Except.bind, pure, Except.pure]⟩

/-- Where `_has_cache` says that the offline stage can be skipped, the online load succeeds with the
recorded positions exactly if the files fit. -/
theorem reused_cache_loads_iff (engine : PipelineEngine) (numLayers : Nat) (queryDir : String)
    (chunk query : CacheFiles) (pool : ContextPool) (hcritical : engine.criticalLayers ≠ [])
    (hreuse : hasCache engine chunk query true (some engine.criticalLayers) = .ok true) :
    LoadsRecorded engine numLayers queryDir chunk query pool ↔ CacheFits engine numLayers chunk query := by
  obtain ⟨chunkInfo, chunkBin, queryMeta, queryBin, method, info, rfl, rfl, hchunkFormat, hqueryFormat,
    hpassed⟩ := hasCache_true hcritical hreuse
  obtain ⟨materialized, hmaterialized, htrue⟩ := hpassed.materialized
  have htruthy : materialized.truthy = true := by
    cases materialized with
    | bool b => exact htrue
    | _ => cases htrue
  constructor
  · rintro ⟨loaded, found, hload, hfound, method', info', indices, index, hmethod, hinfo, hindices, hindex,
      hrecorded, -, -, hstored⟩
    obtain rfl := Option.some.inj hfound
    obtain rfl := Except.ok.inj (hpassed.normalized.symm.trans hmethod)
    obtain rfl := Except.ok.inj (hpassed.metadata.symm.trans hinfo)
    obtain ⟨⟨loadedMeta, cache⟩, hquery, hrestores⟩ := bind_ok hload
    have hread := loadQueryMeta_fresh.mp ⟨cache, hquery⟩
    obtain rfl := readQueryMeta_info hread
    obtain ⟨restored, hrestore, hstarts⟩ := bind_ok hrestores
    obtain ⟨_, -, hchunks⟩ := bind_ok hstarts
    obtain ⟨loadedChunk, hchunk, hreturn⟩ := bind_ok hchunks
    obtain rfl := Except.ok.inj hreturn
    simp only [restoreQueryMetadata, hmethod, hinfo, hindices, hindex, bind, Except.bind] at hrestore
    exact ⟨chunkInfo, chunkBin, _, queryBin, method, info, indices, index, rfl, rfl,
      (loadPackedMeta_iff hchunkFormat).mp ⟨_, hchunk⟩, (readQueryMeta_iff hqueryFormat).mp ⟨_, hread⟩,
      hmethod, hinfo, hindices, hindex,
      (restoreContextPoolMetadata_iff _ _ hmaterialized htruthy hrecorded).mp ⟨_, hrestore, hstored⟩⟩
  · rintro ⟨_, _, _, _, method', info', indices, index, hchunkEq, hqueryEq, hchunkFits, hqueryFits, hmethod, hinfo,
      hindices, hindex, hfits⟩
    cases hchunkEq
    cases hqueryEq
    obtain rfl := Except.ok.inj (hpassed.normalized.symm.trans hmethod)
    obtain rfl := Except.ok.inj (hpassed.metadata.symm.trans hinfo)
    obtain ⟨loadedMeta, hread⟩ := (readQueryMeta_iff hqueryFormat).mpr hqueryFits
    obtain rfl := readQueryMeta_info hread
    obtain ⟨cache, hquery⟩ : ∃ cache, loadQueryMeta none queryDir _ = .ok (_, cache) :=
      loadQueryMeta_fresh.mpr hread
    obtain ⟨loadedChunk, hchunk⟩ := (loadPackedMeta_iff hchunkFormat).mpr hchunkFits
    obtain ⟨loaded, hrestore, hstored⟩ :=
      (restoreContextPoolMetadata_iff (some engine.digestRatio) (pool.initBuffers numLayers) hmaterialized
        htruthy hfits.method).mpr hfits
    obtain ⟨indices', index', stored, hindices', hindex', hsink, hmatches⟩ := hpassed.sink
    obtain rfl := Except.ok.inj (hindices.symm.trans hindices')
    have hsame : index = index' := by
      rw [Json.getD, hindex, Option.getD_some] at hindex'
      exact Except.ok.inj hindex'
    rw [← hsame] at hsink
    refine ⟨loaded, _, ?_, rfl, method, info, indices, index, hmethod, hinfo, hindices, hindex, hfits.method,
      hpassed.ratio, ⟨stored, hsink, hmatches⟩, hstored⟩
    simp only [onlineLoad, hquery, restoreQueryMetadata, hmethod, hinfo, hindices, hindex, hrestore,
      hpassed.layersFound, hchunk, bind, Except.bind, pure, Except.pure]

/-- An engine with one critical layer. -/
def oneLayerEngine : PipelineEngine := ⟨"kvzip", 1 / 10, 4, [0]⟩

/-- The query cache of one layer with one document token. -/
def oneLayerQueryCache : Json :=
  .obj [("format", .str queryCacheFormat),
    ("metadata", .obj [("digest_index_version", .int 8), ("orig_chunk_ranges", .arr [.ofInts [0, 1]]),
      ("total_tokens", .int 1), ("num_layers", .int 1), ("digest_ratio", .float (1 / 10)),
      ("digest_index_method", .str "kvzip"), ("critical_layers", .ofInts [0]), ("qcompute_end", .int 1),
      ("materialized_digest", .bool true), ("context_positions_by_layer", .arr [.ofInts [0]])]),
    ("indices_by_method", .obj [("kvzip", .obj [("context_n_sink", .int 4)])]),
    ("digest", .obj [("num_layers", .int 1), ("layers", oneLayerEntries)]),
    ("critical", .obj [("layer_ids", .ofInts [0]), ("layers",
      .obj [("0", .obj [("k", tensorEntry 2 1 [1] "U8"), ("v", tensorEntry 3 1 [1] "U8")])])])]

def oneLayerQueryFiles : CacheFiles := ⟨some oneLayerQueryCache, some [1, 2, 3, 4]⟩

theorem reused_cache_loads_oneLayer :
    CacheFits oneLayerEngine 1 ⟨some oneLayerPackedMeta, some [3, 4]⟩ oneLayerQueryFiles :=
  (reused_cache_loads_iff oneLayerEngine 1 "q" ⟨some oneLayerPackedMeta, some [3, 4]⟩ oneLayerQueryFiles
    ContextPool.cleared (by decide) (by decide +kernel)).mp
    ⟨_, _, rfl, rfl, "kvzip", _, _, _, rfl, rfl, rfl, rfl, rfl, ⟨_, rfl, by decide +kernel⟩, ⟨_, rfl, rfl⟩,
      _, rfl, rfl⟩

/-- A bin file cut short passes the check, and the load fails on it. -/
theorem truncated_chunk_reused :
    hasCache oneLayerEngine ⟨some oneLayerPackedMeta, some [3]⟩ oneLayerQueryFiles true (some [0]) = .ok true ∧
      ¬ LoadsRecorded oneLayerEngine 1 "q" ⟨some oneLayerPackedMeta, some [3]⟩ oneLayerQueryFiles
        ContextPool.cleared := by
  refine ⟨by decide +kernel, ?_⟩
  rintro ⟨loaded, _, hload, -⟩
  have herror : onlineLoad oneLayerEngine 1 "q" ⟨some oneLayerPackedMeta, some [3]⟩ oneLayerQueryFiles
      ContextPool.cleared = .error (.valueError "Bad packed KV byte range for layer 0.v") := rfl
  rw [herror] at hload
  cases hload

end QCFuse.Guarantees
