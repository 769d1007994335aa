import QCFuse.Library.Slices
import QCFuse.Source.Tensor

/-!
# Packed K/V files: writing layers, validating their metadata

The chunk cache and the query cache share one layout: the K and V bytes of the written
layers one after the other, and for each layer a metadata entry of offset, byte count,
shape and dtype name. The writers keep a running offset; the loaders recompute it.
-/

set_option autoImplicit false

namespace QCFuse.Source

open QCFuse.Library

abbrev KvPair := Tensor × Tensor

instance : Inhabited KvPair := ⟨(default, default)⟩

def KvPair.nbytes (p : KvPair) : Nat := p.1.nbytes + p.2.nbytes

def KvPair.bytes (p : KvPair) : Bytes := p.1.data ++ p.2.data

/-- Both tensors of the pair have dtype `d`. -/
def KvPair.OfDtype (d : Dtype) (p : KvPair) : Prop := p.1.dtype = d ∧ p.2.dtype = d

theorem KvPair.length_bytes (p : KvPair) : p.bytes.length = p.nbytes := by
  rw [bytes, nbytes, List.length_append, Tensor.length_data, Tensor.length_data]

theorem KvPair.nbytes_dvd {p : KvPair} {d : Dtype} (h : p.OfDtype d) : d.itemsize ∣ p.nbytes := by
  obtain ⟨hk, hv⟩ := h
  refine Nat.dvd_add ?_ ?_
  · rw [← hk]; exact p.1.nbytes_dvd
  · rw [← hv]; exact p.2.nbytes_dvd

/-- Starts of layers of one dtype are multiples of its item size. -/
theorem KvPair.itemsize_dvd_start {d : Dtype} (pairs : List KvPair)
    (h : ∀ p ∈ pairs, KvPair.OfDtype d p) (i : Nat) :
    d.itemsize ∣ start KvPair.nbytes pairs i := by
  refine List.dvd_sum fun n hn => ?_
  obtain ⟨p, hp, rfl⟩ := List.mem_map.mp hn
  exact KvPair.nbytes_dvd (h p (List.mem_of_mem_take hp))

/-! ## Writing -/

/-- The open bin file and the running `offset`. -/
structure Writer where
  bin : Bytes
  offset : Nat

/-- The metadata of one tensor. -/
def tensorEntry (offset nbytes : Nat) (shape : List Nat) (dtypeName : String) : Json :=
  .obj [("offset", .int offset), ("nbytes", .int nbytes), ("shape", .ofNats shape),
    ("dtype", .str dtypeName)]

/-- One turn of the loop over `("k", full_k), ("v", full_v)`. -/
def writeTensor (w : Writer) (t : Tensor) : Py (Json × Writer) := do
  let dtypeName ← dtypeToPackedName t.dtype
  let bytes ← t.byteView
  return (tensorEntry w.offset t.nbytes t.shape dtypeName, ⟨w.bin ++ bytes, w.offset + t.nbytes⟩)

def writePair (w : Writer) (p : KvPair) : Py (Json × Writer) := do
  let (kMeta, w) ← writeTensor w p.1
  let (vMeta, w) ← writeTensor w p.2
  return (.obj [("k", kMeta), ("v", vMeta)], w)

/-- `if token_indices is not None: t = t.index_select(0, token_indices)`. -/
def selectRows (t : Tensor) : Option (List Int) → Py Tensor
  | none => .ok t
  | some tokenIndices => t.indexSelect tokenIndices

/-- The K and V a layer is written from: both present, then both index-selected. -/
def selectKv (missing : String) (kv : Option Tensor × Option Tensor)
    (tokenIndices : Py (Option (List Int))) : Py KvPair :=
  match kv with
  | (some fullK, some fullV) => do
    let idx ← tokenIndices
    let k ← selectRows fullK idx
    let v ← selectRows fullV idx
    return (k, v)
  | _ => .error (.valueError missing)

/-- Writing the layers `ids` in order; an id written before is overwritten in the metadata
while its bytes stay in the file. -/
def writeLayers (select : Int → Py KvPair) :
    List Int → List (String × Json) → Writer → Py (List (String × Json) × Writer)
  | [], layers, w => .ok (layers, w)
  | id :: ids, layers, w => do
    let p ← select id
    let (layerMeta, w) ← writePair w p
    writeLayers select ids (Json.setItem (toString id) layerMeta layers) w

def TensorEntry (offset : Nat) (t : Tensor) (item : Json) : Prop :=
  ∃ name, dtypeToPackedName t.dtype = .ok name ∧ item = tensorEntry offset t.nbytes t.shape name

def LayerEntry (offset : Nat) (p : KvPair) (layer : Json) : Prop :=
  ∃ kMeta vMeta, TensorEntry offset p.1 kMeta ∧ TensorEntry (offset + p.1.nbytes) p.2 vMeta ∧
    layer = .obj [("k", kMeta), ("v", vMeta)]

theorem selectRows_dtype {t s : Tensor} {idx : Option (List Int)} (h : selectRows t idx = .ok s) :
    s.dtype = t.dtype := by
  cases idx with
  | none => cases h; rfl
  | some idx => exact Tensor.indexSelect_dtype h

/-- A selection has one row for each index, the row it names. -/
theorem selectRows_row {t s : Tensor} {idx : List Int} (h : selectRows t (some idx) = .ok s) :
    s.rows = idx.length ∧ ∀ j (hj : j < idx.length), s.row j = t.row idx[j].toNat := by
  cases hshape : t.shape with
  | cons n rest =>
    obtain ⟨-, hs, -, -⟩ := Tensor.indexSelect_spec hshape h
    exact ⟨by rw [Tensor.rows, hs, List.headD_cons], fun j hj => Tensor.indexSelect_row hshape h hj⟩
  | nil =>
    simp only [selectRows, Tensor.indexSelect] at h
    split at h
    next hnil =>
      split at h
      next hidx =>
        cases h
        subst hidx
        refine ⟨by rw [Tensor.rows, hshape]; rfl, fun j hj => ?_⟩
        obtain rfl : j = 0 := by simpa using hj
        rfl
      next => cases h
    next hcons => simp [hshape] at hcons

theorem selectKv_ok {missing : String} {kv : Option Tensor × Option Tensor}
    {tokenIndices : Py (Option (List Int))} {p : KvPair}
    (h : selectKv missing kv tokenIndices = .ok p) :
    ∃ fullK fullV idx, kv = (some fullK, some fullV) ∧ tokenIndices = .ok idx ∧
      selectRows fullK idx = .ok p.1 ∧ selectRows fullV idx = .ok p.2 := by
  obtain ⟨k?, v?⟩ := kv
  cases k? with
  | none => cases h
  | some fullK =>
    cases v? with
    | none => cases h
    | some fullV =>
      obtain ⟨idx, hidx, h⟩ := bind_ok h
      obtain ⟨k, hk, h⟩ := bind_ok h
      obtain ⟨v, hv, h⟩ := bind_ok h
      cases h
      exact ⟨fullK, fullV, idx, rfl, hidx, hk, hv⟩

theorem writeTensor_spec {w w' : Writer} {t : Tensor} {item : Json}
    (h : writeTensor w t = .ok (item, w')) :
    TensorEntry w.offset t item ∧ w'.bin = w.bin ++ t.data ∧ w'.offset = w.offset + t.nbytes := by
  obtain ⟨name, hname, h⟩ := bind_ok h
  obtain ⟨bytes, hbytes, h⟩ := bind_ok h
  have hdata : bytes = t.data := by
    unfold Tensor.byteView at hbytes
    split at hbytes <;> cases hbytes
    rfl
  cases h
  exact ⟨⟨name, hname, rfl⟩, by rw [hdata], rfl⟩

theorem writePair_spec {w w' : Writer} {p : KvPair} {layer : Json}
    (h : writePair w p = .ok (layer, w')) :
    LayerEntry w.offset p layer ∧ w'.bin = w.bin ++ p.bytes ∧
      w'.offset = w.offset + p.nbytes := by
  obtain ⟨⟨kMeta, w₁⟩, hk, h⟩ := bind_ok h
  obtain ⟨⟨vMeta, w₂⟩, hv, h⟩ := bind_ok h
  obtain ⟨hkEntry, hkBin, hkOff⟩ := writeTensor_spec hk
  obtain ⟨hvEntry, hvBin, hvOff⟩ := writeTensor_spec hv
  cases h
  rw [hkOff] at hvEntry hvOff
  refine ⟨⟨kMeta, vMeta, hkEntry, hvEntry, rfl⟩, ?_, ?_⟩
  · rw [hvBin, hkBin, List.append_assoc, KvPair.bytes]
  · rw [hvOff, KvPair.nbytes, Nat.add_assoc]

/-- What a run of `writeLayers` leaves behind: `pairs` is what it selected, in order. -/
structure LayersWritten (select : Int → Py KvPair) (ids : List Int)
    (layers layers' : List (String × Json)) (w w' : Writer) (pairs : List KvPair) : Prop where
  length_eq : pairs.length = ids.length
  selected : ∀ i (h : i < ids.length) (h' : i < pairs.length), select ids[i] = .ok pairs[i]
  bin_eq : w'.bin = w.bin ++ pairs.flatMap KvPair.bytes
  offset_eq : w'.offset = w.offset + (pairs.map KvPair.nbytes).sum
  /-- The entry of an id is the one of its last occurrence. -/
  entry : ∀ i (h : i < ids.length) (h' : i < pairs.length),
    (∀ j (hj : j < ids.length), i < j → ids[j] ≠ ids[i]) →
    ∃ layer, Json.lookup? (toString ids[i]) layers' = some layer ∧
      LayerEntry (w.offset + start KvPair.nbytes pairs i) pairs[i] layer
  untouched : ∀ key, (∀ id ∈ ids, toString id ≠ key) →
    Json.lookup? key layers' = Json.lookup? key layers

theorem writeLayers_spec {select : Int → Py KvPair} {ids : List Int}
    {layers layers' : List (String × Json)} {w w' : Writer}
    (h : writeLayers select ids layers w = .ok (layers', w')) :
    ∃ pairs, LayersWritten select ids layers layers' w w' pairs := by
  induction ids generalizing layers w with
  | nil =>
    cases h
    exact ⟨[], rfl, fun i hi => absurd hi (Nat.not_lt_zero i), by simp, by simp,
      fun i hi => absurd hi (Nat.not_lt_zero i), fun key _ => rfl⟩
  | cons id ids ih =>
    obtain ⟨p, hp, h⟩ := bind_ok h
    obtain ⟨⟨layerMeta, w₁⟩, hwrite, h⟩ := bind_ok h
    obtain ⟨hEntry, hBin, hOff⟩ := writePair_spec hwrite
    obtain ⟨pairs, rest⟩ := ih h
    refine ⟨p :: pairs, by simp [rest.length_eq], ?_, ?_, ?_, ?_, ?_⟩
    · intro i hi hi'
      cases i with
      | zero => exact hp
      | succ i => exact rest.selected i (by simpa using hi) (by simpa using hi')
    · rw [rest.bin_eq, hBin, List.append_assoc, List.flatMap_cons]
    · rw [rest.offset_eq, hOff, List.map_cons, List.sum_cons, Nat.add_assoc]
    · intro i hi hi' hlast
      cases i with
      | zero =>
        refine ⟨layerMeta, ?_, by simpa using hEntry⟩
        have hnot : ∀ other ∈ ids, toString other ≠ toString id := by
          intro other hother heq
          obtain ⟨j, hj, rfl⟩ := List.getElem_of_mem hother
          exact hlast (j + 1) (by simpa using hj) (by omega) (layerKey_injective heq)
        rw [List.getElem_cons_zero, rest.untouched _ hnot, Json.lookup?_setItem_self]
      | succ i =>
        have hi₀ : i < ids.length := by simpa using hi
        have hi₁ : i < pairs.length := by simpa using hi'
        obtain ⟨layer, hlook, hlayer⟩ := rest.entry i hi₀ hi₁ fun j hj hij =>
          hlast (j + 1) (by simpa using hj) (by omega)
        refine ⟨layer, hlook, ?_⟩
        rw [hOff, Nat.add_assoc] at hlayer
        simpa [start] using hlayer
    · intro key hkey
      rw [rest.untouched key fun other hother => hkey other (List.mem_cons_of_mem _ hother)]
      exact Json.lookup?_setItem_ne (Ne.symm (hkey id List.mem_cons_self)) _ _

/-- What can be written: a dtype of the map, and at least one dimension unless it is one byte
wide. -/
def Tensor.Packable (t : Tensor) : Prop :=
  (∃ name, dtypeToPackedName t.dtype = .ok name) ∧ (t.shape ≠ [] ∨ t.dtype.itemsize = 1)

/-- `t` can be index-selected by `tokenIndices` and then written. -/
def Tensor.Selectable (t : Tensor) (tokenIndices : Option (List Int)) : Prop :=
  t.Packable ∧ ∀ xs, tokenIndices = some xs → t.shape ≠ [] ∧ ∀ i ∈ xs, 0 ≤ i ∧ i < t.rows

theorem selectRows_packable {t : Tensor} {tokenIndices : Option (List Int)}
    (h : t.Selectable tokenIndices) : ∃ s, selectRows t tokenIndices = .ok s ∧ s.Packable := by
  obtain ⟨hpack, hrange⟩ := h
  cases tokenIndices with
  | none => exact ⟨t, rfl, hpack⟩
  | some xs =>
    obtain ⟨hne, hin⟩ := hrange xs rfl
    obtain ⟨n, rest, hshape⟩ := List.exists_cons_of_ne_nil hne
    have hin' : ∀ i ∈ xs, 0 ≤ i ∧ i < (n : Int) := by
      intro i hi
      have hrow := hin i hi
      rwa [Tensor.rows, hshape, List.headD_cons] at hrow
    obtain ⟨s, hs⟩ := Tensor.indexSelect_ok hshape hin'
    obtain ⟨-, hsShape, hsDtype, -⟩ := Tensor.indexSelect_spec hshape hs
    refine ⟨s, hs, ?_, Or.inl ?_⟩
    · rw [hsDtype]
      exact hpack.1
    · rw [hsShape]
      exact List.cons_ne_nil _ _

theorem selectKv_packable (missing : String) {fullK fullV : Tensor} {idx : Option (List Int)}
    (hk : fullK.Selectable idx) (hv : fullV.Selectable idx) :
    ∃ p, selectKv missing (some fullK, some fullV) (.ok idx) = .ok p ∧ p.1.Packable ∧
      p.2.Packable := by
  obtain ⟨k, hkSel, hkPack⟩ := selectRows_packable hk
  obtain ⟨v, hvSel, hvPack⟩ := selectRows_packable hv
  refine ⟨(k, v), ?_, hkPack, hvPack⟩
  simp only [selectKv, hkSel, hvSel, bind, Except.bind, pure, Except.pure]

theorem writeTensor_ok {t : Tensor} (h : t.Packable) (w : Writer) :
    ∃ item w', writeTensor w t = .ok (item, w') := by
  obtain ⟨⟨name, hname⟩, hview⟩ := h
  have hbytes : t.byteView = .ok t.data := by
    rw [Tensor.byteView, if_neg]
    rintro ⟨hnil, hsize⟩
    exact hview.elim (fun hne => hne hnil) fun h1 => hsize h1
  exact ⟨_, _, by rw [writeTensor, hname, hbytes]; rfl⟩

theorem writeLayers_ok {select : Int → Py KvPair} (ids : List Int)
    (h : ∀ id ∈ ids, ∃ p, select id = .ok p ∧ p.1.Packable ∧ p.2.Packable)
    (layers : List (String × Json)) (w : Writer) :
    ∃ layers' w', writeLayers select ids layers w = .ok (layers', w') := by
  induction ids generalizing layers w with
  | nil => exact ⟨layers, w, rfl⟩
  | cons id ids ih =>
    obtain ⟨p, hp, hk, hv⟩ := h id List.mem_cons_self
    obtain ⟨kMeta, w₁, hk⟩ := writeTensor_ok hk w
    obtain ⟨vMeta, w₂, hv⟩ := writeTensor_ok hv w₁
    obtain ⟨layers', w', hrest⟩ := ih (fun other hother => h other (List.mem_cons_of_mem _ hother))
      (Json.setItem (toString id) (.obj [("k", kMeta), ("v", vMeta)]) layers) w₂
    refine ⟨layers', w', ?_⟩
    simp only [writeLayers, writePair, hp, hk, hv, bind, Except.bind, pure, Except.pure]
    exact hrest

/-! ## Validating -/

/-- `isinstance(dim, int) and dim >= 0`, and the dimension. -/
def shapeDim (dim : Json) : Option Nat :=
  match dim.asInt? with
  | some d => if 0 ≤ d then some d.toNat else none
  | none => none

/-- `isinstance(shape, list)`, and its dimensions when all are valid. -/
def shapeDims (shape : Json) : Option (List Nat) :=
  match shape.asList? with
  | none => none
  | some dims => dims.mapM shapeDim

theorem shapeDims_ofNats (dims : List Nat) : shapeDims (.ofNats dims) = some dims := by
  have hmap : ∀ xs : List Nat, (xs.map fun n : Nat => Json.int n).mapM shapeDim = some xs := by
    intro xs
    induction xs with
    | nil => rfl
    | cons x xs ih =>
      have hx : shapeDim (Json.int x) = some x := by simp [shapeDim, Json.asInt?]
      rw [List.map_cons, List.mapM_cons, hx, ih]
      rfl
  exact hmap dims

def nonContiguous (kind label : String) : PyError :=
  .valueError s!"Non-contiguous {kind} offset for {label}"

/-- The checks on one tensor's metadata; `kind` is `packed KV` for the chunk cache and
`query cache` for the query cache. An error text stops before the values the source appends. -/
def validateTensorItem (kind label : String) (fileSize : Nat) (item : Json)
    (expectedOffset : Int) : Py Int :=
  match item with
  | .obj fields =>
    let get := fun key => (Json.lookup? key fields).getD .null
    match (get "offset").asInt?, (get "nbytes").asInt? with
    | some offset, some nbytes =>
      if offset < 0 ∨ nbytes < 0 ∨ (fileSize : Int) < offset + nbytes then
        .error (.valueError s!"Bad {kind} byte range for {label}")
      else if offset ≠ expectedOffset then
        .error (nonContiguous kind label)
      else
        match shapeDims (get "shape") with
        | none => .error (.valueError s!"Bad {kind} shape for {label}")
        | some dims => do
          let dtype ← packedNameToDtype (get "dtype")
          if nbytes ≠ ((dims.prod * dtype.itemsize : Nat) : Int) then
            .error (.valueError s!"Bad {kind} nbytes for {label}")
          else return expectedOffset + nbytes
    | _, _ => .error (.valueError s!"Bad {kind} byte range for {label}")
  | _ => .error (.valueError s!"Missing packed KV metadata for {label}")

/-- The checks on one layer: its entry, then `k`, then `v`. -/
def validateLayer (kind : String) (layers : List (String × Json)) (fileSize : Nat) (layerId : Int)
    (expectedOffset : Int) : Py Int :=
  match (Json.lookup? (toString layerId) layers).getD .null with
  | .obj layer => do
    let afterK ← validateTensorItem kind s!"layer {layerId}.k" fileSize
      ((Json.lookup? "k" layer).getD .null) expectedOffset
    validateTensorItem kind s!"layer {layerId}.v" fileSize
      ((Json.lookup? "v" layer).getD .null) afterK
  | _ => .error (.valueError s!"Missing {kind} metadata for layer {layerId}")

def validateLayers (kind : String) (layers : List (String × Json)) (fileSize : Nat) :
    List Int → Int → Py Int
  | [], expectedOffset => .ok expectedOffset
  | id :: ids, expectedOffset => do
    let afterLayer ← validateLayer kind layers fileSize id expectedOffset
    validateLayers kind layers fileSize ids afterLayer

/-- The offset check decides whether a written entry is accepted. -/
theorem validateTensorItem_entry (kind label : String) (fileSize : Nat) {off : Nat} {t : Tensor}
    {item : Json} (hentry : TensorEntry off t item) (hfits : off + t.nbytes ≤ fileSize)
    (expectedOffset : Int) :
    validateTensorItem kind label fileSize item expectedOffset =
      if (off : Int) = expectedOffset then .ok (expectedOffset + t.nbytes)
      else .error (nonContiguous kind label) := by
  obtain ⟨name, hname, rfl⟩ := hentry
  have hrange : ¬ ((off : Int) < 0 ∨ (t.nbytes : Int) < 0 ∨
      (fileSize : Int) < (off : Int) + t.nbytes) := by omega
  have hdtype := packedName_roundtrip t.dtype name hname
  simp only [validateTensorItem, tensorEntry, Json.lookup?, if_true, Option.getD_some, Json.asInt?,
    if_neg (show "offset" ≠ "nbytes" by decide), if_neg (show "offset" ≠ "shape" by decide),
    if_neg (show "nbytes" ≠ "shape" by decide), if_neg (show "offset" ≠ "dtype" by decide),
    if_neg (show "nbytes" ≠ "dtype" by decide), if_neg (show "shape" ≠ "dtype" by decide),
    if_neg hrange, shapeDims_ofNats, hdtype]
  by_cases hoff : (off : Int) = expectedOffset
  · rw [if_neg (by simpa using hoff), if_pos hoff]
    simp only [bind, Except.bind, pure, Except.pure]
    rw [if_neg (by simp [Tensor.nbytes])]
  · rw [if_pos hoff, if_neg hoff]

theorem validateLayer_entry (kind : String) {layers : List (String × Json)} (fileSize : Nat)
    {off : Nat} {layerId : Int} {p : KvPair} {layer : Json}
    (hlook : Json.lookup? (toString layerId) layers = some layer) (hentry : LayerEntry off p layer)
    (hfits : off + p.nbytes ≤ fileSize) (expectedOffset : Int) :
    validateLayer kind layers fileSize layerId expectedOffset =
      if (off : Int) = expectedOffset then .ok (expectedOffset + p.nbytes)
      else .error (nonContiguous kind s!"layer {layerId}.k") := by
  obtain ⟨kMeta, vMeta, hk, hv, rfl⟩ := hentry
  rw [KvPair.nbytes] at hfits
  have hkCheck := validateTensorItem_entry kind s!"layer {layerId}.k" fileSize hk (by omega)
    expectedOffset
  have hvCheck := validateTensorItem_entry kind s!"layer {layerId}.v" fileSize hv (by omega)
    (expectedOffset + p.1.nbytes)
  rw [validateLayer, hlook]
  by_cases hoff : (off : Int) = expectedOffset
  · rw [if_pos hoff] at hkCheck ⊢
    rw [if_pos (by push_cast; omega)] at hvCheck
    simp only [Option.getD_some, Json.lookup?, if_true, if_neg (show "k" ≠ "v" by decide), hkCheck,
      hvCheck, bind, Except.bind, KvPair.nbytes]
    push_cast
    rw [Int.add_assoc]
  · rw [if_neg hoff] at hkCheck ⊢
    simp only [Option.getD_some, Json.lookup?, if_true, hkCheck, bind, Except.bind]

/-- Layers whose entries sit at the running offset are all accepted. -/
theorem validateLayers_ok (kind : String) {layers : List (String × Json)} (fileSize base : Nat)
    {ids : List Int} {pairs : List KvPair} (hlen : pairs.length = ids.length)
    (hentry : ∀ i (h : i < ids.length) (h' : i < pairs.length), ∃ layer,
      Json.lookup? (toString ids[i]) layers = some layer ∧
        LayerEntry (base + start KvPair.nbytes pairs i) pairs[i] layer)
    (hfits : base + (pairs.map KvPair.nbytes).sum ≤ fileSize) :
    validateLayers kind layers fileSize ids base =
      .ok ((base + (pairs.map KvPair.nbytes).sum : Nat) : Int) := by
  induction ids generalizing pairs base with
  | nil =>
    have hnil : pairs = [] := List.length_eq_zero_iff.mp (by simpa using hlen)
    subst hnil
    simp [validateLayers]
  | cons id ids ih =>
    cases pairs with
    | nil => simp at hlen
    | cons p pairs =>
      rw [List.map_cons, List.sum_cons] at hfits ⊢
      obtain ⟨layer, hlook, hlayer⟩ := hentry 0 (by simp) (by simp)
      rw [start_zero, Nat.add_zero] at hlayer
      have hhead := validateLayer_entry kind fileSize hlook hlayer (by simp only [List.getElem_cons_zero]; omega) base
      rw [if_pos rfl] at hhead
      have htail := ih (base + p.nbytes) (by simpa using hlen) (fun i hi hi' => by
        obtain ⟨layer, hlook, hlayer⟩ := hentry (i + 1) (by simpa using hi) (by simpa using hi')
        refine ⟨layer, hlook, ?_⟩
        simpa [start, Nat.add_assoc] using hlayer) (by omega)
      simp only [List.getElem_cons_zero] at hhead
      rw [validateLayers, hhead]
      simp only [bind, Except.bind]
      rw [← Nat.cast_add, htail, Nat.add_assoc]

/-- Accepted entries all sit at the running offset. -/
theorem validateLayers_accepted (kind : String) {layers : List (String × Json)} {fileSize : Nat}
    {base : Nat} {ids : List Int} {pairs : List KvPair} (offs : Nat → Nat)
    (hlen : pairs.length = ids.length)
    (hentry : ∀ i (h : i < ids.length) (h' : i < pairs.length), ∃ layer,
      Json.lookup? (toString ids[i]) layers = some layer ∧ LayerEntry (offs i) pairs[i] layer ∧
        offs i + pairs[i].nbytes ≤ fileSize)
    {stop : Int} (h : validateLayers kind layers fileSize ids base = .ok stop) :
    ∀ i < ids.length, offs i = base + start KvPair.nbytes pairs i := by
  induction ids generalizing pairs base offs with
  | nil => exact fun i hi => absurd hi (Nat.not_lt_zero i)
  | cons id ids ih =>
    cases pairs with
    | nil => simp at hlen
    | cons p pairs =>
      obtain ⟨layer, hlook, hlayer, hfits⟩ := hentry 0 (by simp) (by simp)
      simp only [List.getElem_cons_zero] at hlook hlayer hfits
      obtain ⟨afterLayer, hhead, htail⟩ := bind_ok h
      rw [validateLayer_entry kind fileSize hlook hlayer hfits base] at hhead
      split at hhead
      next hoff =>
        cases hhead
        rw [← Nat.cast_add] at htail
        have hrest := ih (fun i => offs (i + 1)) (by simpa using hlen) (fun i hi hi' => by
          exact hentry (i + 1) (Nat.succ_lt_succ hi) (Nat.succ_lt_succ hi')) htail
        intro i hi
        cases i with
        | zero =>
          rw [start_zero]
          exact_mod_cast hoff
        | succ i =>
          have hi' : offs (i + 1) = base + p.nbytes + start KvPair.nbytes pairs i :=
            hrest i (by simpa using hi)
          rw [hi', Nat.add_assoc]
          simp [start]
      next => cases hhead

end QCFuse.Source
