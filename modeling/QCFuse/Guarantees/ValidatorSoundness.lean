import QCFuse.Source.QueryCache

/-!
# What acceptance of a cache file says, and that reading it is safe

The metadata is any JSON value and the bin file any bytes. Acceptance means that the byte
ranges of the validated layers tile the file; a block read of validated layers then stays in
the file and in the pinned block.
-/

set_option autoImplicit false

namespace QCFuse.Guarantees

open QCFuse.Library QCFuse.Source

/-! ## Tiling -/

/-- Byte ranges one after the other from `first` to `stop`, each as long as shape and dtype say. -/
def Tiles : List TensorMeta → Int → Int → Prop
  | [], first, stop => first = stop
  | item :: items, first, stop => item.offset = first ∧ item.end_ = item.offset + item.nbytes ∧
      item.nbytes = ((item.shape.prod * item.dtype.itemsize : Nat) : Int) ∧
      Tiles items item.end_ stop

theorem Tiles.le {items : List TensorMeta} {first stop : Int} (h : Tiles items first stop) :
    first ≤ stop := by
  induction items generalizing first with
  | nil => exact le_of_eq h
  | cons item items ih =>
    obtain ⟨hoffset, hend, hnbytes, hrest⟩ := h
    have := ih hrest
    omega

theorem Tiles.append {xs ys : List TensorMeta} {first middle stop : Int}
    (hxs : Tiles xs first middle) (hys : Tiles ys middle stop) : Tiles (xs ++ ys) first stop := by
  induction xs generalizing first with
  | nil =>
    obtain rfl : first = middle := hxs
    exact hys
  | cons item items ih =>
    obtain ⟨hoffset, hend, hnbytes, hrest⟩ := hxs
    exact ⟨hoffset, hend, hnbytes, ih hrest⟩

theorem Tiles.split {xs ys : List TensorMeta} {first stop : Int} (h : Tiles (xs ++ ys) first stop) :
    ∃ middle, Tiles xs first middle ∧ Tiles ys middle stop := by
  induction xs generalizing first with
  | nil => exact ⟨first, rfl, h⟩
  | cons item items ih =>
    obtain ⟨hoffset, hend, hnbytes, hrest⟩ := h
    obtain ⟨middle, hitems, hys⟩ := ih hrest
    exact ⟨middle, ⟨hoffset, hend, hnbytes, hitems⟩, hys⟩

/-- What the readers look up for the K and V of the layers, in order. -/
def layerItems (info : Json) : List Int → Py (List TensorMeta)
  | [] => .ok []
  | id :: ids => do
    let k ← packedTensorMeta info id "k"
    let v ← packedTensorMeta info id "v"
    let items ← layerItems info ids
    return k :: v :: items

/-- K and V of the layer lie one after the other inside `[first, stop)`. -/
def LayerInside (info : Json) (first stop : Int) (id : Int) : Prop :=
  ∃ k v, packedTensorMeta info id "k" = .ok k ∧ packedTensorMeta info id "v" = .ok v ∧
    first ≤ k.offset ∧ k.end_ = k.offset + k.nbytes ∧ 0 ≤ k.nbytes ∧ v.offset = k.end_ ∧
    v.end_ = v.offset + v.nbytes ∧ 0 ≤ v.nbytes ∧ v.end_ ≤ stop

theorem LayerInside.widen {info : Json} {first first' stop : Int} {id : Int}
    (h : LayerInside info first stop id) (hle : first' ≤ first) : LayerInside info first' stop id := by
  obtain ⟨k, v, hk, hv, hfirst, hrest⟩ := h
  exact ⟨k, v, hk, hv, hle.trans hfirst, hrest⟩

theorem layerInside_of_tiles {info : Json} {ids : List Int} {items : List TensorMeta}
    {first stop : Int} (hitems : layerItems info ids = .ok items) (htiles : Tiles items first stop) :
    ∀ id ∈ ids, LayerInside info first stop id := by
  induction ids generalizing items first with
  | nil => exact fun id hid => absurd hid List.not_mem_nil
  | cons id ids ih =>
    obtain ⟨k, hk, hitems⟩ := bind_ok hitems
    obtain ⟨v, hv, hitems⟩ := bind_ok hitems
    obtain ⟨rest, hrest, hitems⟩ := bind_ok hitems
    cases hitems
    obtain ⟨hkOffset, hkEnd, hkNbytes, hvOffset, hvEnd, hvNbytes, htail⟩ := htiles
    have hstop := htail.le
    intro other hother
    rcases List.mem_cons.mp hother with rfl | hother
    · exact ⟨k, v, hk, hv, by omega, hkEnd, by omega, hvOffset, hvEnd, by omega, hstop⟩
    · exact (ih hrest htail other hother).widen (by omega)

/-! ## The validators -/

theorem item_of_lookup {fields : List (String × Json)} {key : String} {value : Json}
    (h : Json.lookup? key fields = some value) : (Json.obj fields).item key = .ok value := by
  simp only [Json.item, h]

/-- A missing key reads as `None`, which none of the checks accepts. -/
theorem lookup_of_getD {fields : List (String × Json)} {key : String} {value : Json}
    (h : (Json.lookup? key fields).getD .null = value) (hvalue : value ≠ .null) :
    Json.lookup? key fields = some value := by
  cases hlook : Json.lookup? key fields with
  | none =>
    rw [hlook] at h
    exact absurd h.symm hvalue
  | some found =>
    rw [hlook] at h
    exact congrArg some h

/-- An accepted entry is what the readers find, at the expected offset. -/
theorem validateTensorItem_sound {kind label : String} {fileSize : Nat} {item : Json}
    {expected next : Int}
    (h : validateTensorItem kind label fileSize item expected = .ok next) {info layers layer : Json}
    {layerId : Int} {name : String} (hlayers : info.item "layers" = .ok layers)
    (hlayer : layers.item (toString layerId) = .ok layer) (hitem : layer.item name = .ok item) :
    ∃ found, packedTensorMeta info layerId name = .ok found ∧ found.offset = expected ∧
      found.end_ = found.offset + found.nbytes ∧
      found.nbytes = ((found.shape.prod * found.dtype.itemsize : Nat) : Int) ∧
      found.end_ = next := by
  unfold validateTensorItem at h
  split at h
  next fields =>
    simp only at h
    split at h
    next offset nbytes hoffset hnbytes =>
      split at h
      next => cases h
      next hrange =>
        split at h
        next => cases h
        next hexpected =>
          split at h
          next => cases h
          next dims hdims =>
            obtain ⟨dtype, hdtype, h⟩ := bind_ok h
            split at h
            next => cases h
            next hsize =>
              cases h
              have hfound : ∀ key value, (Json.lookup? key fields).getD .null = value →
                  value ≠ .null → (Json.obj fields).item key = .ok value :=
                fun key value hget hnull => item_of_lookup (lookup_of_getD hget hnull)
              have hoffsetItem := hfound "offset" _ rfl fun hnull => by
                rw [hnull] at hoffset
                cases hoffset
              have hnbytesItem := hfound "nbytes" _ rfl fun hnull => by
                rw [hnull] at hnbytes
                cases hnbytes
              have hshapeItem := hfound "shape" _ rfl fun hnull => by
                rw [hnull] at hdims
                cases hdims
              have hdtypeItem := hfound "dtype" _ rfl fun hnull => by
                rw [hnull] at hdtype
                cases hdtype
              refine ⟨⟨offset, offset + nbytes, nbytes, dims, dtype⟩, ?_, not_not.mp hexpected, rfl,
                not_not.mp hsize, ?_⟩
              · simp only [packedTensorMeta, hlayers, hlayer, hitem, hoffsetItem, hnbytesItem,
                  hshapeItem, hdtypeItem, hdtype, hdims, asInt, hoffset, hnbytes, bind, Except.bind,
                  pure, Except.pure]
              · rw [not_not.mp hexpected]
    next => cases h
  next => cases h

/-- Accepted layers tile the range from the first expected offset to the last. -/
theorem validateLayers_sound {kind : String} {layers : List (String × Json)} {fileSize : Nat}
    {ids : List Int} {expected next : Int}
    (h : validateLayers kind layers fileSize ids expected = .ok next) {info : Json}
    (hlayers : info.item "layers" = .ok (.obj layers)) :
    ∃ items, layerItems info ids = .ok items ∧ Tiles items expected next := by
  induction ids generalizing expected with
  | nil =>
    cases h
    exact ⟨[], rfl, rfl⟩
  | cons id ids ih =>
    obtain ⟨afterLayer, hhead, htail⟩ := bind_ok h
    obtain ⟨items, hitems, htiles⟩ := ih htail
    unfold validateLayer at hhead
    split at hhead
    next layer hlayer =>
      obtain ⟨afterK, hk, hv⟩ := bind_ok hhead
      have hlayerItem := item_of_lookup (lookup_of_getD hlayer Json.noConfusion)
      have hname : ∀ name label start stop, validateTensorItem kind label fileSize
          ((Json.lookup? name layer).getD .null) start = .ok stop →
          (Json.obj layer).item name = .ok ((Json.lookup? name layer).getD .null) := by
        intro name label start stop haccept
        refine item_of_lookup (lookup_of_getD rfl ?_)
        intro hnull
        rw [hnull] at haccept
        cases haccept
      obtain ⟨k, hkFound, hkOffset, hkEnd, hkNbytes, hkNext⟩ :=
        validateTensorItem_sound hk hlayers hlayerItem (hname _ _ _ _ hk)
      obtain ⟨v, hvFound, hvOffset, hvEnd, hvNbytes, hvNext⟩ :=
        validateTensorItem_sound hv hlayers hlayerItem (hname _ _ _ _ hv)
      refine ⟨k :: v :: items, ?_, hkOffset, hkEnd, hkNbytes, ?_, hvEnd, hvNbytes, ?_⟩
      · simp only [layerItems, hkFound, hvFound, hitems, bind, Except.bind, pure, Except.pure]
      · rw [hvOffset, hkNext]
      · rw [hvNext]
        exact htiles
    next => cases hhead

theorem validateQueryLayers_sound {sectionMeta : Json} {fileSize : Nat} {layerIds : List Json}
    {expected next : Int}
    (h : validateQueryLayers sectionMeta fileSize layerIds expected = .ok next) :
    ∃ ids items, layerIds.mapM Json.toInt = .ok ids ∧ layerItems sectionMeta ids = .ok items ∧
      Tiles items expected next := by
  induction layerIds generalizing expected with
  | nil =>
    cases h
    exact ⟨[], [], rfl, rfl, rfl⟩
  | cons layerId layerIds ih =>
    obtain ⟨id, hid, h⟩ := bind_ok h
    obtain ⟨afterLayer, hhead, htail⟩ := bind_ok h
    obtain ⟨ids, items, hids, hitems, htiles⟩ := ih htail
    obtain ⟨layersJson, hget, hhead⟩ := bind_ok hhead
    split at hhead
    next layers =>
      have hlayers : sectionMeta.item "layers" = .ok (.obj layers) := by
        cases sectionMeta with
        | obj fields =>
          exact item_of_lookup (lookup_of_getD (Except.ok.inj hget) Json.noConfusion)
        | _ => cases hget
      have hone : validateLayers "query cache" layers fileSize [id] expected = .ok afterLayer := by
        simp only [validateLayers, hhead, bind, Except.bind]
      obtain ⟨headItems, hheadItems, hheadTiles⟩ := validateLayers_sound hone hlayers
      obtain ⟨k, hk, hheadItems⟩ := bind_ok hheadItems
      obtain ⟨v, hv, hheadItems⟩ := bind_ok hheadItems
      cases hheadItems
      refine ⟨id :: ids, k :: v :: items, ?_, ?_, ?_⟩
      · rw [List.mapM_cons, hid, hids]
        rfl
      · simp only [layerItems, hk, hv, hitems, bind, Except.bind, pure, Except.pure]
      · exact hheadTiles.append htiles
    next => cases hhead

/-! ## The readers -/

/-- The outcome of a block read of `layerIds` from a file of `fileSize` bytes: the loop does not
meet the end of the file, the block lies in the file and in the pinned buffer, and so does the
slice each layer is copied from. -/
structure SafeRead (fileSize : Nat) (layerIds : List Int) (result : Py Slot) : Prop where
  noEof : result ≠ .error unexpectedEof
  inside : ∀ slot, result = .ok slot → ∃ buf block, slot.pinBuf = some buf ∧
    slot.block = some block ∧ 0 ≤ block.blockOffset ∧ 0 ≤ block.blockNbytes ∧
    block.blockOffset + block.blockNbytes ≤ fileSize ∧ block.blockNbytes ≤ buf.capacity ∧
    ∀ id ∈ layerIds, LayerInside block.info block.blockOffset
      (block.blockOffset + block.blockNbytes) id

/-- Reading a range of the file succeeds. -/
theorem fillSlot_inside (memory : Nat → UInt8) (reads : List (Option Nat)) (bin : Bytes)
    (info : Json) (layerIds : List Int) (blockOffset blockNbytes : Int) (slot : Slot)
    (hoffset : 0 ≤ blockOffset) (hnbytes : 0 ≤ blockNbytes)
    (hsize : blockOffset + blockNbytes ≤ bin.length) :
    ∃ buf : PinBuf, fillSlot memory reads bin info layerIds blockOffset blockNbytes slot =
      .ok ⟨some buf, some ⟨layerIds, blockOffset, blockNbytes, info⟩⟩ ∧
      blockNbytes ≤ buf.capacity := by
  have hcap := le_capacity_ensure memory slot.pinBuf blockNbytes.toNat
  have hsrc : blockNbytes.toNat ≤ (bin.drop blockOffset.toNat).length := by
    rw [List.length_drop]
    omega
  obtain ⟨buf, hread, hbuf⟩ := readExactInto_spec reads hcap hsrc
  refine ⟨buf, ?_, ?_⟩
  · simp only [fillSlot, hread, bind, Except.bind, pure, Except.pure]
  · have hlen := congrArg List.length hbuf
    rw [List.length_take, List.length_take, buf.sized] at hlen
    omega

theorem checkInsideBlock_inside {subject : String} {info : Json} {first stop fileSize : Int}
    {layerIds : List Int} (hinside : ∀ id ∈ layerIds, LayerInside info 0 fileSize id)
    (h : checkInsideBlock subject info first stop layerIds = .ok ()) :
    ∀ id ∈ layerIds, LayerInside info first stop id := by
  induction layerIds with
  | nil => exact fun id hid => absurd hid List.not_mem_nil
  | cons id ids ih =>
    obtain ⟨k, v, hk, hv, -, hrest⟩ := hinside id List.mem_cons_self
    obtain ⟨k', hk', h⟩ := bind_ok h
    obtain rfl : k = k' := Except.ok.inj (hk.symm.trans hk')
    split at h
    next => cases h
    next hkInside =>
      obtain ⟨v', hv', h⟩ := bind_ok h
      obtain rfl : v = v' := Except.ok.inj (hv.symm.trans hv')
      split at h
      next => cases h
      next hvInside =>
        obtain ⟨hkEnd, hkNbytes, hvOffset, hvEnd, hvNbytes, -⟩ := hrest
        intro other hother
        rcases List.mem_cons.mp hother with rfl | hother
        · exact ⟨k, v, hk, hv, by omega, hkEnd, hkNbytes, hvOffset, hvEnd, hvNbytes, by omega⟩
        · exact ih (fun other h => hinside other (List.mem_cons_of_mem _ h)) h other hother

theorem checkInsideBlock_noEof {subject : String} {info : Json} {first stop fileSize : Int}
    {layerIds : List Int} (hinside : ∀ id ∈ layerIds, LayerInside info 0 fileSize id) :
    checkInsideBlock subject info first stop layerIds ≠ .error unexpectedEof := by
  induction layerIds with
  | nil => rintro ⟨⟩
  | cons id ids ih =>
    obtain ⟨k, v, hk, hv, -⟩ := hinside id List.mem_cons_self
    simp only [checkInsideBlock, hk, hv, bind, Except.bind]
    split
    next => rintro ⟨⟩
    next =>
      split
      next => rintro ⟨⟩
      next => exact ih fun other h => hinside other (List.mem_cons_of_mem _ h)

/-- A block read of layers that lie in the file. -/
theorem safeRead_readBlockToSlot (kind subject : String) (memory : Nat → UInt8)
    (reads : List (Option Nat)) {bin : Bytes} {info : Json} {layerIds : List Int} (slot : Slot)
    (hinside : ∀ id ∈ layerIds, LayerInside info 0 bin.length id) :
    SafeRead bin.length layerIds
      (readBlockToSlot kind subject memory reads bin info layerIds slot) := by
  cases layerIds with
  | nil => exact ⟨by rintro ⟨⟩, fun slot' h => by cases h⟩
  | cons first rest =>
    obtain ⟨k, firstV, hk, -, hkFirst, -⟩ := hinside first List.mem_cons_self
    have hlastMem : (first :: rest).getLast (List.cons_ne_nil _ _) ∈ first :: rest :=
      List.getLast_mem _
    obtain ⟨lastK, v, -, hv, -, -, -, -, -, -, hvLast⟩ := hinside _ hlastMem
    simp only [readBlockToSlot, hk, hv, bind, Except.bind]
    split
    next => exact ⟨by rintro ⟨⟩, fun slot' h => by cases h⟩
    next hnbytes =>
      cases hcheck : checkInsideBlock subject info k.offset v.end_ (first :: rest) with
      | error e =>
        refine ⟨fun heof => ?_, fun slot' h => by cases h⟩
        simp only [Except.error.injEq] at heof
        subst heof
        exact checkInsideBlock_noEof hinside hcheck
      | ok _ =>
        obtain ⟨buf, hfill, hcap⟩ := fillSlot_inside memory reads bin info (first :: rest) k.offset
          (v.end_ - k.offset) slot hkFirst (by omega) (by omega)
        simp only [hfill]
        refine ⟨by rintro ⟨⟩, fun slot' h => ?_⟩
        cases h
        refine ⟨buf, _, rfl, rfl, hkFirst, by simp only; omega, by simp only; omega, hcap, ?_⟩
        intro id hid
        have := checkInsideBlock_inside hinside hcheck id hid
        simpa only [add_sub_cancel] using this

theorem item_ok {x value : Json} {key : String} (h : x.item key = .ok value) :
    ∃ fields, x = .obj fields ∧ Json.lookup? key fields = some value := by
  unfold Json.item at h
  split at h
  next fields =>
    split at h
    next found hfound =>
      cases h
      exact ⟨fields, rfl, hfound⟩
    next => cases h
  next => cases h

theorem packedTensorMeta_layer {info : Json} {layerId : Int} {name : String} {found : TensorMeta}
    (h : packedTensorMeta info layerId name = .ok found) :
    ∃ fields layers layer, info = .obj fields ∧ Json.lookup? "layers" fields = some (.obj layers) ∧
      Json.lookup? (toString layerId) layers = some layer := by
  obtain ⟨layersJson, hlayers, h⟩ := bind_ok h
  obtain ⟨layer, hlayer, -⟩ := bind_ok h
  obtain ⟨fields, rfl, hfields⟩ := item_ok hlayers
  obtain ⟨layers, rfl, hlook⟩ := item_ok hlayer
  exact ⟨fields, layers, layer, rfl, hfields, hlook⟩

theorem packedTensorMeta_congr {fields fields' layers layers' : List (String × Json)}
    (hlayers : Json.lookup? "layers" fields = some (.obj layers))
    (hlayers' : Json.lookup? "layers" fields' = some (.obj layers')) {layerId : Int}
    (hsame : Json.lookup? (toString layerId) layers' = Json.lookup? (toString layerId) layers)
    (name : String) :
    packedTensorMeta (.obj fields') layerId name = packedTensorMeta (.obj fields) layerId name := by
  simp only [packedTensorMeta, Json.item, hlayers, hlayers', hsame, bind, Except.bind]

/-- Packing a section's layers for reading keeps their entries. -/
theorem querySection_tensorMeta {queryMeta sectionMeta : Json} {sectionName : String}
    (hsection : queryMeta.item sectionName = .ok sectionMeta) (ids : List Int)
    (hlayers : ∀ id ∈ ids, ∃ k, packedTensorMeta sectionMeta id "k" = .ok k) :
    ∃ packedMeta, querySectionLayersAsPackedMeta queryMeta sectionName ids = .ok packedMeta ∧
      ∀ id ∈ ids, ∀ name, packedTensorMeta packedMeta id name = packedTensorMeta sectionMeta id name := by
  cases ids with
  | nil =>
    refine ⟨.obj [("layers", .obj [])], ?_, fun id hid => absurd hid List.not_mem_nil⟩
    simp only [querySectionLayersAsPackedMeta, hsection, collectLayers, bind, Except.bind, pure, Except.pure]
  | cons first rest =>
    obtain ⟨k, hk⟩ := hlayers first List.mem_cons_self
    obtain ⟨fields, layers, -, rfl, hfields, -⟩ := packedTensorMeta_layer hk
    have hlook : ∀ id ∈ first :: rest, ∃ layer, Json.lookup? (toString id) layers = some layer := by
      intro id hid
      obtain ⟨k, hk⟩ := hlayers id hid
      obtain ⟨fields', layers', layer, hfields', hlayers', hlayer⟩ := packedTensorMeta_layer hk
      cases hfields'
      obtain rfl : layers' = layers := by
        rw [hfields] at hlayers'
        cases hlayers'
        rfl
      exact ⟨layer, hlayer⟩
    obtain ⟨collected, hcollected, hsame, -⟩ := collectLayers_ok hfields (first :: rest) hlook []
    refine ⟨.obj [("layers", .obj collected)], ?_, fun id hid name => ?_⟩
    · simp only [querySectionLayersAsPackedMeta, hsection, hcollected, bind, Except.bind, pure,
        Except.pure]
    · exact packedTensorMeta_congr hfields
        (show Json.lookup? "layers" [("layers", .obj collected)] = some (.obj collected) from rfl)
        (hsame id hid) name

theorem querySection_inside {queryMeta sectionMeta : Json} {sectionName : String}
    (hsection : queryMeta.item sectionName = .ok sectionMeta) {first stop : Int} (ids : List Int)
    (hinside : ∀ id ∈ ids, LayerInside sectionMeta first stop id) :
    ∃ packedMeta, querySectionLayersAsPackedMeta queryMeta sectionName ids = .ok packedMeta ∧
      ∀ id ∈ ids, LayerInside packedMeta first stop id := by
  obtain ⟨packedMeta, hpacked, hsame⟩ := querySection_tensorMeta hsection ids fun id hid => by
    obtain ⟨k, -, hk, -⟩ := hinside id hid
    exact ⟨k, hk⟩
  refine ⟨packedMeta, hpacked, fun id hid => ?_⟩
  obtain ⟨k, v, hk, hv, hrest⟩ := hinside id hid
  exact ⟨k, v, (hsame id hid "k").trans hk, (hsame id hid "v").trans hv, hrest⟩

theorem safeRead_readQueryLayersToSlot (memory : Nat → UInt8) (reads : List (Option Nat))
    {metaFile : Option Json} {bin : Bytes} {queryMeta sectionMeta : Json} {sectionName : String}
    (hsection : queryMeta.item sectionName = .ok sectionMeta) {layerIds : List Int} (slot : Slot)
    (hinside : ∀ id ∈ layerIds, LayerInside sectionMeta 0 bin.length id) :
    SafeRead bin.length layerIds (readQueryLayersToSlot memory reads ⟨metaFile, some bin⟩ queryMeta
      sectionName layerIds slot) := by
  cases layerIds with
  | nil => exact ⟨nofun, fun slot' h => by cases h⟩
  | cons first rest =>
    obtain ⟨packedMeta, hpacked, hpackedInside⟩ :=
      querySection_inside hsection (first :: rest) hinside
    simp only [readQueryLayersToSlot, hpacked, bind, Except.bind]
    exact safeRead_readBlockToSlot _ _ memory reads slot hpackedInside

/-- The progressive read of one validated layer always succeeds. -/
theorem safeRead_readQueryLayerFromOpenFile (memory : Nat → UInt8) (reads : List (Option Nat))
    {bin : Bytes} {queryMeta sectionMeta : Json} {sectionName : String}
    (hsection : queryMeta.item sectionName = .ok sectionMeta) {layerId : Int} (slot : Slot)
    (hinside : LayerInside sectionMeta 0 bin.length layerId) :
    SafeRead bin.length [layerId]
      (readQueryLayerFromOpenFile memory reads bin queryMeta sectionName layerId slot) := by
  obtain ⟨packedMeta, hpacked, hpackedInside⟩ :=
    querySection_inside hsection [layerId] fun id hid => by
      rw [List.mem_singleton.mp hid]
      exact hinside
  obtain ⟨k, v, hk, hv, hfirst, hkEnd, hkNbytes, hvOffset, hvEnd, hvNbytes, hlast⟩ :=
    hpackedInside layerId (List.mem_singleton_self _)
  obtain ⟨buf, hfill, hcap⟩ := fillSlot_inside memory reads bin packedMeta [layerId] k.offset
    (v.end_ - k.offset) slot hfirst (by omega) (by omega)
  simp only [readQueryLayerFromOpenFile, hpacked, hk, hv, hfill, bind, Except.bind]
  refine ⟨nofun, fun slot' h => ?_⟩
  cases h
  refine ⟨buf, _, rfl, rfl, hfirst, by simp only; omega, by simp only; omega, hcap, ?_⟩
  intro id hid
  rw [List.mem_singleton.mp hid]
  exact ⟨k, v, hk, hv, le_refl _, hkEnd, hkNbytes, hvOffset, hvEnd, hvNbytes, by simp only; omega⟩

/-! ## Acceptance -/

/-- What `_load_packed_meta` promises of the metadata it returns. -/
structure PackedAccepted (bin : Bytes) (info : Json) : Prop where
  tiled : ∃ numLayers items, (∃ n, info.get "num_layers" = .ok n ∧ n.asInt? = some numLayers) ∧
    0 ≤ numLayers ∧ layerItems info (layerRange numLayers.toNat) = .ok items ∧
    Tiles items 0 bin.length ∧
    ∀ memory reads layerIds slot, (∀ id ∈ layerIds, id ∈ layerRange numLayers.toNat) →
      SafeRead bin.length layerIds
        (readPackedBlockToSlot memory reads ⟨some info, some bin⟩ info layerIds slot)

theorem loadPackedMeta_sound {bin : Bytes} {info loaded : Json} {expected : Option Int}
    (h : loadPackedMeta ⟨some info, some bin⟩ expected = .ok loaded) :
    loaded = info ∧ PackedAccepted bin info := by
  obtain ⟨format, -, h⟩ := bind_ok h
  cases format with
  | str name =>
    simp only at h
    split at h
    next => cases h
    next =>
      obtain ⟨numLayersJson, hnumLayers, h⟩ := bind_ok h
      split at h
      next => cases h
      next numLayers hint =>
        split at h
        next => cases h
        next hnonneg =>
          split at h
          next => cases h
          next =>
            obtain ⟨layersJson, hlayersGet, h⟩ := bind_ok h
            split at h
            next layers =>
              obtain ⟨written, hvalid, h⟩ := bind_ok h
              split at h
              next => cases h
              next hsize =>
                cases h
                have hlayers : info.item "layers" = .ok (.obj layers) := by
                  cases info with
                  | obj fields =>
                    exact item_of_lookup (lookup_of_getD (Except.ok.inj hlayersGet) Json.noConfusion)
                  | _ => cases hlayersGet
                obtain ⟨items, hitems, htiles⟩ := validateLayers_sound hvalid hlayers
                rw [not_not.mp hsize] at htiles
                refine ⟨rfl, ⟨numLayers, items, ⟨numLayersJson, hnumLayers, hint⟩, by omega, hitems,
                  htiles, fun memory reads layerIds slot hids => ?_⟩⟩
                exact safeRead_readBlockToSlot _ _ memory reads slot fun id hid =>
                  layerInside_of_tiles hitems htiles id (hids id hid)
            next => cases h
  | _ => cases h

/-- What `_load_query_meta` promises of the metadata it returns: the digest layers, then the
critical layers, tile the file. -/
structure QueryAccepted (bin : Bytes) (info : Json) : Prop where
  tiled : ∃ digest critical numLayers criticalJson criticalIds digestItems criticalItems,
    info.item "digest" = .ok digest ∧ info.item "critical" = .ok critical ∧
    (∃ n, digest.get "num_layers" = .ok n ∧ n.asInt? = some numLayers) ∧ 0 ≤ numLayers ∧
    critical.getD "layer_ids" (.arr []) = .ok (.arr criticalJson) ∧
    criticalJson.mapM Json.toInt = .ok criticalIds ∧
    layerItems digest (layerRange numLayers.toNat) = .ok digestItems ∧
    layerItems critical criticalIds = .ok criticalItems ∧
    Tiles (digestItems ++ criticalItems) 0 bin.length ∧
    ∀ memory reads layerIds slot,
      ((∀ id ∈ layerIds, id ∈ layerRange numLayers.toNat) → SafeRead bin.length layerIds
        (readQueryLayersToSlot memory reads ⟨some info, some bin⟩ info "digest" layerIds slot)) ∧
      ((∀ id ∈ layerIds, id ∈ criticalIds) → SafeRead bin.length layerIds
        (readQueryLayersToSlot memory reads ⟨some info, some bin⟩ info "critical" layerIds slot)) ∧
      ∀ layerId, (layerId ∈ layerRange numLayers.toNat → SafeRead bin.length [layerId]
          (readQueryLayerFromOpenFile memory reads bin info "digest" layerId slot)) ∧
        (layerId ∈ criticalIds → SafeRead bin.length [layerId]
          (readQueryLayerFromOpenFile memory reads bin info "critical" layerId slot))

theorem item_of_get_dict {info found : Json} {key : String} (h : info.get key = .ok found)
    (hdict : found.isDict = true) : info.item key = .ok found := by
  cases info with
  | obj fields =>
    refine item_of_lookup (lookup_of_getD (Except.ok.inj h) ?_)
    rintro rfl
    cases hdict
  | _ => cases h

theorem readQueryMeta_sound {bin : Bytes} {info loaded : Json}
    (h : readQueryMeta ⟨some info, some bin⟩ = .ok loaded) :
    loaded = info ∧ QueryAccepted bin info := by
  obtain rfl := readQueryMeta_info h
  obtain ⟨found, digest, critical, numLayers, criticalJson, afterDigest, hchecked⟩ :=
    readQueryMeta_checked h
  obtain rfl : bin = found := Option.some.inj hchecked.binFile
  obtain ⟨digestIds, digestItems, hdigestIds, hdigestItems, hdigestTiles⟩ :=
    validateQueryLayers_sound hchecked.digestLayers
  obtain ⟨criticalIds, criticalItems, hcriticalIds, hcriticalItems, hcriticalTiles⟩ :=
    validateQueryLayers_sound hchecked.criticalLayers
  have hrange : ((layerRange numLayers.toNat).map Json.int).mapM Json.toInt =
      .ok ((layerRange numLayers.toNat).map id) := mapM_map_ok fun _ _ => rfl
  rw [List.map_id, hdigestIds] at hrange
  obtain rfl := Except.ok.inj hrange
  have hdigestItem := item_of_get_dict hchecked.digestSection hchecked.dicts.1
  have hcriticalItem := item_of_get_dict hchecked.criticalSection hchecked.dicts.2
  have hdigestInside : ∀ id ∈ layerRange numLayers.toNat, LayerInside digest 0 bin.length id :=
    fun id hid => by
      obtain ⟨k, v, hk, hv, hfirst, hkEnd, hkN, hvOffset, hvEnd, hvN, hlast⟩ :=
        layerInside_of_tiles hdigestItems hdigestTiles id hid
      exact ⟨k, v, hk, hv, hfirst, hkEnd, hkN, hvOffset, hvEnd, hvN, hlast.trans hcriticalTiles.le⟩
  have hcriticalInside : ∀ id ∈ criticalIds, LayerInside critical 0 bin.length id := fun id hid =>
    (layerInside_of_tiles hcriticalItems hcriticalTiles id hid).widen hdigestTiles.le
  refine ⟨rfl, ⟨digest, critical, numLayers, criticalJson, criticalIds, digestItems, criticalItems,
    hdigestItem, hcriticalItem, hchecked.numLayers, hchecked.nonneg, hchecked.layerIds, hcriticalIds,
    hdigestItems, hcriticalItems, hdigestTiles.append hcriticalTiles,
    fun memory reads layerIds slot =>
      ⟨fun hin => ?_, fun hin => ?_, fun layerId => ⟨fun hin => ?_, fun hin => ?_⟩⟩⟩⟩
  · exact safeRead_readQueryLayersToSlot memory reads hdigestItem slot
      fun id hid => hdigestInside id (hin id hid)
  · exact safeRead_readQueryLayersToSlot memory reads hcriticalItem slot
      fun id hid => hcriticalInside id (hin id hid)
  · exact safeRead_readQueryLayerFromOpenFile memory reads hdigestItem slot (hdigestInside layerId hin)
  · exact safeRead_readQueryLayerFromOpenFile memory reads hcriticalItem slot
      (hcriticalInside layerId hin)

/-- A cache file that a loader accepts is tiled by the validated layers, and reading these
layers is safe. -/
theorem accepted_tiles_and_reads_safe (bin : Bytes) (info : Json) :
    (∀ expected loaded, loadPackedMeta ⟨some info, some bin⟩ expected = .ok loaded →
      loaded = info ∧ PackedAccepted bin info) ∧
    ∀ loaded, readQueryMeta ⟨some info, some bin⟩ = .ok loaded →
      loaded = info ∧ QueryAccepted bin info :=
  ⟨fun _ _ h => loadPackedMeta_sound h, fun _ h => readQueryMeta_sound h⟩

/-- One layer of one byte of K and one byte of V, for either cache. -/
def oneLayerEntries : Json :=
  .obj [("0", .obj [("k", tensorEntry 0 1 [1] "U8"), ("v", tensorEntry 1 1 [1] "U8")])]

def oneLayerPackedMeta : Json :=
  .obj [("format", .str packedFormat), ("num_layers", .int 1), ("layers", oneLayerEntries)]

def oneLayerQueryMeta : Json :=
  .obj [("format", .str queryCacheFormat),
    ("digest", .obj [("num_layers", .int 1), ("layers", oneLayerEntries)]),
    ("critical", .obj [("layer_ids", .arr []), ("layers", .obj [])])]

theorem accepted_tiles_and_reads_safe_oneLayer :
    PackedAccepted [3, 4] oneLayerPackedMeta ∧ QueryAccepted [3, 4] oneLayerQueryMeta :=
  ⟨((accepted_tiles_and_reads_safe [3, 4] oneLayerPackedMeta).1 (some 1) _ rfl).2,
    ((accepted_tiles_and_reads_safe [3, 4] oneLayerQueryMeta).2 _ rfl).2⟩

/-- One byte of K at offset 5 and no byte of V. -/
def strayEntry : Json :=
  .obj [("k", tensorEntry 5 1 [1] "U8"), ("v", tensorEntry 6 0 [0] "U8")]

/-- No layer is validated, but `layers` has an entry. -/
def strayPackedMeta : Json :=
  .obj [("format", .str packedFormat), ("num_layers", .int 0),
    ("layers", .obj [("0", strayEntry)])]

/-- An entry that no check looked at passes the checks of the reader and ends at end of file. -/
theorem strayEntry_reaches_eof :
    loadPackedMeta ⟨some strayPackedMeta, some []⟩ none = .ok strayPackedMeta ∧
      readPackedBlockToSlot (fun _ => 0) [] ⟨some strayPackedMeta, some []⟩ strayPackedMeta [0]
        ⟨none, none⟩ = .error unexpectedEof := by
  constructor
  · rfl
  · rfl

end QCFuse.Guarantees
