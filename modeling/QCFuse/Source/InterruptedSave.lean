import QCFuse.Source.QueryCache

/-!
# A `save_all_query_cache` that stops part-way

The bin file and then the metadata file are opened for writing, which empties them, and written
in place. Whatever ends the call, each file holds a prefix of what was issued to it.
-/

set_option autoImplicit false

namespace QCFuse.Source

/-- The text of a metadata file: that of a value, or its first `chars` characters where
`json.dump` did not get to the end. -/
inductive MetaText where
  | whole (info : Json)
  | cut (info : Json) (chars : Nat)

/-- `json.load`: the text of an object cut short lacks its closing brace. -/
def MetaText.load : MetaText → Py Json
  | .whole info => .ok info
  | .cut _ _ => .error (.valueError "Expecting value")

/-- The query cache's files in a sample directory. -/
structure SampleDir where
  metaFile : Option MetaText
  binFile : Option Bytes

/-- The directory after a complete save. -/
def SampleDir.of (files : CacheFiles) : SampleDir :=
  ⟨files.metaFile.map .whole, files.binFile⟩

/-- `_load_query_meta` on a directory it has not cached. -/
def SampleDir.loadQueryMeta (dir : SampleDir) : Py Json :=
  match dir.metaFile, dir.binFile with
  | none, _ => .error (.fileNotFound "Missing query cache metadata")
  | some _, none => .error (.fileNotFound "Missing query cache data")
  | some text, some bin => do
    let info ← text.load
    readQueryMeta ⟨some info, some bin⟩

/-- The arguments and the state `save_all_query_cache` reads. -/
structure SaveCall where
  index : DigestIndex
  getKv : LayerSource
  numDigestLayers : Int
  digestTokenIndicesByLayer : List (List Int)
  criticalLayers : List Int
  criticalTokenIndices : Option (List Int)

/-- The bytes a loop over layers issues until it ends or raises, and whether it ends. -/
def issuedLayers (select : Int → Py KvPair) : List Int → Bytes × Bool
  | [] => ([], true)
  | id :: ids =>
    match select id with
    | .error _ => ([], false)
    | .ok p =>
      match writeTensor ⟨[], 0⟩ p.1 with
      | .error _ => ([], false)
      | .ok (_, w) =>
        match writeTensor w p.2 with
        | .error _ => (w.bin, false)
        | .ok (_, w) =>
          let rest := issuedLayers select ids
          (w.bin ++ rest.1, rest.2)

namespace SaveCall

def run (call : SaveCall) : Py CacheFiles :=
  saveAllQueryCache call.index call.getKv call.numDigestLayers call.digestTokenIndicesByLayer
    call.criticalLayers call.criticalTokenIndices

/-- The call gets as far as opening the bin file. -/
def opensBin (call : SaveCall) : Bool :=
  match exportPayload call.index .null with
  | .error _ => false
  | .ok (digestMeta, _) =>
    (normalizeMethod ((Json.lookup? "digest_index_method" digestMeta).getD .null)).isOk

/-- What the call issues to the bin file. -/
def issued (call : SaveCall) : Bytes :=
  let digest := issuedLayers (digestLayerKv call.getKv call.digestTokenIndicesByLayer)
    (layerRange call.numDigestLayers.toNat)
  digest.1 ++ if digest.2 then
    (issuedLayers (criticalLayerKv call.getKv call.criticalTokenIndices) call.criticalLayers).1
  else []

end SaveCall

/-- The directory when a call into it has stopped; `old` is what was there. -/
inductive StoppedAt (old : CacheFiles) (call : SaveCall) : SampleDir → Prop
  | beforeBin : StoppedAt old call (.of old)
  | duringBin (count : Nat) : call.opensBin = true →
      StoppedAt old call ⟨old.metaFile.map .whole, some (call.issued.take count)⟩
  | duringMeta (new : CacheFiles) (info : Json) (chars : Nat) : call.run = .ok new →
      new.metaFile = some info → StoppedAt old call ⟨some (.cut info chars), new.binFile⟩
  | done (new : CacheFiles) : call.run = .ok new → StoppedAt old call (.of new)

theorem writeTensor_data {w w' : Writer} {t : Tensor} {item : Json}
    (h : writeTensor w t = .ok (item, w')) (w₀ : Writer) :
    ∃ item₀, writeTensor w₀ t = .ok (item₀, ⟨w₀.bin ++ t.data, w₀.offset + t.nbytes⟩) := by
  obtain ⟨name, hname, h⟩ := bind_ok h
  obtain ⟨bytes, hbytes, h⟩ := bind_ok h
  have hdata : bytes = t.data := by
    unfold Tensor.byteView at hbytes
    split at hbytes <;> cases hbytes
    rfl
  subst hdata
  refine ⟨tensorEntry w₀.offset t.nbytes t.shape name, ?_⟩
  simp only [writeTensor, hname, hbytes, bind, Except.bind, pure, Except.pure]

/-- A loop that ends has issued what it wrote. -/
theorem issuedLayers_of_written {select : Int → Py KvPair} {ids : List Int}
    {layers layers' : List (String × Json)} {w w' : Writer}
    (h : writeLayers select ids layers w = .ok (layers', w')) :
    ∃ bytes, issuedLayers select ids = (bytes, true) ∧ w'.bin = w.bin ++ bytes := by
  induction ids generalizing layers w with
  | nil =>
    cases h
    exact ⟨[], rfl, (List.append_nil _).symm⟩
  | cons id ids ih =>
    obtain ⟨p, hp, h⟩ := bind_ok h
    obtain ⟨⟨layerMeta, w₁⟩, hwrite, h⟩ := bind_ok h
    obtain ⟨bytes, hissued, hbin⟩ := ih h
    obtain ⟨-, hbin₁, -⟩ := writePair_spec hwrite
    obtain ⟨⟨kMeta, wk⟩, hk, hwrite⟩ := bind_ok hwrite
    obtain ⟨⟨vMeta, wv⟩, hv, -⟩ := bind_ok hwrite
    obtain ⟨kItem, hkWrite⟩ := writeTensor_data hk ⟨[], 0⟩
    obtain ⟨vItem, hvWrite⟩ := writeTensor_data hv ⟨[] ++ p.1.data, 0 + p.1.nbytes⟩
    refine ⟨p.bytes ++ bytes, ?_, ?_⟩
    · simp only [issuedLayers, hp, hkWrite, hvWrite, hissued]
      simp only [List.nil_append, KvPair.bytes]
    · rw [hbin, hbin₁, List.append_assoc]

/-- A complete save opened the bin file and left in it all it issued. -/
theorem SaveCall.issued_of_run {call : SaveCall} {new : CacheFiles} (h : call.run = .ok new) :
    call.opensBin = true ∧ new.binFile = some call.issued ∧ ∃ info, new.metaFile = some info := by
  obtain ⟨⟨digestMeta, indicesByMethod⟩, hpayload, h⟩ := bind_ok h
  obtain ⟨method, hmethod, h⟩ := bind_ok h
  obtain ⟨⟨digestLayers, w₁⟩, hdigest, h⟩ := bind_ok h
  obtain ⟨⟨criticalLayerMetas, w₂⟩, hcritical, h⟩ := bind_ok h
  obtain ⟨digestBytes, hdigestIssued, hbin₁⟩ := issuedLayers_of_written hdigest
  obtain ⟨criticalBytes, hcriticalIssued, hbin₂⟩ := issuedLayers_of_written hcritical
  cases h
  refine ⟨?_, ?_, _, rfl⟩
  · simp only [opensBin, hpayload, hmethod, Except.isOk, Except.toBool]
  · simp only [issued, hdigestIssued, hcriticalIssued, if_true, hbin₂, hbin₁, List.nil_append]

end QCFuse.Source
