import QCFuse.Guarantees.QueryCacheRoundTrip
import QCFuse.Guarantees.ValidatorSoundness
import QCFuse.Source.InterruptedSave

/-!
# What a stopped `save_all_query_cache` leaves readable

The loader looks at the bin file's size alone, so the old metadata is accepted with whatever
bytes stand there once as many have been written as before.
-/

set_option autoImplicit false

namespace QCFuse.Guarantees

open QCFuse.Library QCFuse.Source

/-! ## The size at which a metadata file is accepted -/

theorem Tiles.stop_eq {items : List TensorMeta} {first stop : Int} (h : Tiles items first stop) :
    stop = first + (items.map TensorMeta.nbytes).sum := by
  induction items generalizing first with
  | nil =>
    obtain rfl : first = stop := h
    simp
  | cons item items ih =>
    obtain ⟨hoffset, hend, -, hrest⟩ := h
    rw [ih hrest, List.map_cons, List.sum_cons, hend, hoffset]
    omega

/-- The entries of layers add up to the bytes of what was selected for them. -/
theorem layerItems_nbytes {select : Int → Py KvPair} {info : Json} {ids : List Int}
    {items : List TensorMeta} {pairs : List KvPair} (hitems : layerItems info ids = .ok items)
    (hentry : ∀ id ∈ ids, ∃ p off, select id = .ok p ∧ HasEntry info id off p)
    (hlen : pairs.length = ids.length)
    (hselected : ∀ i (h : i < ids.length) (h' : i < pairs.length), select ids[i] = .ok pairs[i]) :
    (items.map TensorMeta.nbytes).sum = ((pairs.map KvPair.nbytes).sum : Nat) := by
  induction ids generalizing items pairs with
  | nil =>
    cases hitems
    obtain rfl : pairs = [] := List.length_eq_zero_iff.mp hlen
    rfl
  | cons id ids ih =>
    cases pairs with
    | nil => cases hlen
    | cons p pairs =>
      obtain ⟨k, hk, hitems⟩ := bind_ok hitems
      obtain ⟨v, hv, hitems⟩ := bind_ok hitems
      obtain ⟨rest, hrest, hitems⟩ := bind_ok hitems
      cases hitems
      obtain ⟨p', off, hp', hhas⟩ := hentry id List.mem_cons_self
      have hp : select id = .ok p := hselected 0 (Nat.succ_pos _) (Nat.succ_pos _)
      obtain rfl : p = p' := Except.ok.inj (hp.symm.trans hp')
      obtain ⟨hkEntry, hvEntry⟩ := packedTensorMeta_of_entry hhas
      rw [hkEntry] at hk
      rw [hvEntry] at hv
      cases hk
      cases hv
      have htail := ih hrest (fun other h => hentry other (List.mem_cons_of_mem _ h))
        (Nat.succ.inj hlen)
        fun i h h' => hselected (i + 1) (Nat.succ_lt_succ h) (Nat.succ_lt_succ h')
      simp only [List.map_cons, List.sum_cons, htail, KvPair.nbytes]
      omega

/-- Every written layer has the entry of its last occurrence. -/
theorem hasEntry_of_written {select : Int → Py KvPair} {ids : List Int}
    {layers : List (String × Json)} {w w' : Writer} {pairs : List KvPair}
    (written : LayersWritten select ids [] layers w w' pairs) {fields : List (String × Json)}
    (hlayers : Json.lookup? "layers" fields = some (.obj layers)) :
    ∀ id ∈ ids, ∃ p off, select id = .ok p ∧ HasEntry (.obj fields) id off p := by
  intro id hid
  obtain ⟨i, hi, rfl⟩ := List.getElem_of_mem hid
  obtain ⟨q, hq, -, heq, hlast⟩ := exists_last ids hi
  have hq' : q < pairs.length := by rw [written.length_eq]; exact hq
  obtain ⟨layer, hlook, hentry⟩ := written.entry q hq hq' hlast
  rw [← heq]
  exact ⟨pairs[q], _, written.selected q hq hq', fields, layers, layer, rfl, hlayers, hlook, hentry⟩

/-- The metadata of a complete save is accepted with a bin file of the saved size only. -/
theorem accepted_size {call : SaveCall} {info loaded : Json} {bin other : Bytes}
    (hrun : call.run = .ok ⟨some info, some bin⟩)
    (h : readQueryMeta ⟨some info, some other⟩ = .ok loaded) : other.length = bin.length := by
  obtain ⟨digestMeta, indicesByMethod, method, digestPairs, criticalPairs, digestLayers,
    criticalLayerMetas, -, hfiles, writtenD, writtenC⟩ := saveAllQueryCache_spec hrun
  obtain ⟨-, digest, critical, numLayers, criticalJson, criticalIds, digestItems, criticalItems,
    hdigest, hcritical, ⟨n, hn, hint⟩, -, hids, hcriticalIds, hdigestItems, hcriticalItems, htiles, -⟩ :=
    readQueryMeta_sound h
  cases hfiles
  obtain ⟨hdigestItem, hcriticalItem⟩ := queryMetadata_item digestMeta indicesByMethod method
    call.numDigestLayers call.criticalLayers digestLayers criticalLayerMetas
  cases hdigestItem.symm.trans hdigest
  cases hcriticalItem.symm.trans hcritical
  have hnum : Json.get (.obj [("num_layers", .int call.numDigestLayers),
      ("layers", .obj digestLayers)]) "num_layers" = .ok (.int call.numDigestLayers) := by
    simp [Json.get, Json.lookup?]
  cases hnum.symm.trans hn
  cases hint
  have hlist : Json.getD (.obj [("layer_ids", .ofInts call.criticalLayers),
      ("layers", .obj criticalLayerMetas)]) "layer_ids" (.arr []) =
      .ok (.arr (call.criticalLayers.map .int)) := by
    simp [Json.getD, Json.lookup?, Json.ofInts]
  cases hlist.symm.trans hids
  have hmapped : (call.criticalLayers.map Json.int).mapM Json.toInt =
      .ok (call.criticalLayers.map id) := mapM_map_ok fun _ _ => rfl
  rw [List.map_id, hcriticalIds] at hmapped
  obtain rfl := Except.ok.inj hmapped
  have hdigestSum := layerItems_nbytes hdigestItems
    (hasEntry_of_written writtenD (by simp [Json.lookup?])) writtenD.length_eq writtenD.selected
  have hcriticalSum := layerItems_nbytes hcriticalItems
    (hasEntry_of_written writtenC (by simp [Json.lookup?])) writtenC.length_eq writtenC.selected
  have hsize := htiles.stop_eq
  rw [List.map_append, List.sum_append, hdigestSum, hcriticalSum] at hsize
  rw [List.length_append, length_flatMap_size _ _ KvPair.length_bytes,
    length_flatMap_size _ _ KvPair.length_bytes]
  omega

/-- The loader sees the bin file's size alone. -/
theorem readQueryMeta_congr (info : Json) {bin other : Bytes} (h : other.length = bin.length) :
    readQueryMeta ⟨some info, some other⟩ = readQueryMeta ⟨some info, some bin⟩ := by
  simp only [readQueryMeta, h]

/-! ## Stopping points -/

/-- The loaded metadata and the bin file are those of the earlier save, or of the later one. -/
def CompleteVersion (old : CacheFiles) (call : SaveCall) (dir : SampleDir) (loaded : Json) : Prop :=
  (old.metaFile = some loaded ∧ dir.binFile = old.binFile) ∨
    ∃ new, call.run = .ok new ∧ new.metaFile = some loaded ∧ dir.binFile = new.binFile

/-- The bytes issued when the bin file has its earlier size are no other version's. -/
def NoMixture (old : CacheFiles) (call : SaveCall) : Prop :=
  ∀ info bin loaded, old.metaFile = some info → old.binFile = some bin →
    readQueryMeta old = .ok loaded → call.opensBin = true → bin.length ≤ call.issued.length →
    call.issued.take bin.length = bin ∨
      ∃ new, call.run = .ok new ∧ new.metaFile = some info ∧ call.issued.length = bin.length

theorem loadQueryMeta_of (files : CacheFiles) :
    (SampleDir.of files).loadQueryMeta = readQueryMeta files := by
  obtain ⟨metaFile, binFile⟩ := files
  cases metaFile with
  | none => rfl
  | some info => cases binFile <;> rfl

theorem readQueryMeta_files {files : CacheFiles} {loaded : Json}
    (h : readQueryMeta files = .ok loaded) : files.metaFile = some loaded := by
  obtain ⟨metaFile, binFile⟩ := files
  cases metaFile with
  | none => cases h
  | some info => rw [readQueryMeta_info h]

/-- What a later load can return: a complete version, or the old metadata over as many bytes of
the later save as the old bin file had. -/
theorem loaded_of_stoppedAt {first second : SaveCall} {old : CacheFiles} (hfirst : first.run = .ok old)
    {dir : SampleDir} (hstopped : StoppedAt old second dir) {loaded : Json}
    (h : dir.loadQueryMeta = .ok loaded) :
    CompleteVersion old second dir loaded ∨
      ∃ bin, old.metaFile = some loaded ∧ old.binFile = some bin ∧ second.opensBin = true ∧
        readQueryMeta old = .ok loaded ∧ bin.length ≤ second.issued.length ∧
        dir.binFile = some (second.issued.take bin.length) := by
  cases hstopped with
  | beforeBin =>
    rw [loadQueryMeta_of] at h
    exact Or.inl (Or.inl ⟨readQueryMeta_files h, rfl⟩)
  | duringMeta new info chars hrun hmeta =>
    obtain ⟨-, hbin, -⟩ := SaveCall.issued_of_run hrun
    simp only [SampleDir.loadQueryMeta, hbin] at h
    cases h
  | done new hrun =>
    rw [loadQueryMeta_of] at h
    exact Or.inl (Or.inr ⟨new, hrun, readQueryMeta_files h, rfl⟩)
  | duringBin count hopens =>
    obtain ⟨-, hbin, info, hmeta⟩ := SaveCall.issued_of_run hfirst
    obtain ⟨metaFile, binFile⟩ := old
    simp only at hbin hmeta
    subst hbin hmeta
    have hread : readQueryMeta ⟨some info, some (second.issued.take count)⟩ = .ok loaded := h
    have hsize := accepted_size hfirst hread
    have hold := (readQueryMeta_congr info hsize).symm.trans hread
    refine Or.inr ⟨first.issued, readQueryMeta_files hold, rfl, hopens, hold, ?_, ?_⟩
    · rw [← hsize, List.length_take]
      exact Nat.min_le_right _ _
    · rw [← hsize, List.length_take]
      simp only [Option.some.injEq]
      rcases Nat.le_total count second.issued.length with hle | hle
      · rw [Nat.min_eq_left hle]
      · rw [Nat.min_eq_right hle, List.take_length, List.take_of_length_le hle]

/-- After a complete first save, a later load of a directory in which a second one has stopped
returns a complete version or the old metadata over the first bytes of the second save; it
never returns such a mixture if and only if the second save issues fewer bytes than the first
or begins with the same ones, or writes the same metadata over as many bytes. -/
theorem stopped_save_loads (first second : SaveCall) (old : CacheFiles)
    (hfirst : first.run = .ok old) :
    (∀ dir loaded, StoppedAt old second dir → dir.loadQueryMeta = .ok loaded →
      CompleteVersion old second dir loaded ∨ ∃ bin, old.metaFile = some loaded ∧
        old.binFile = some bin ∧ dir.binFile = some (second.issued.take bin.length)) ∧
    ((∀ dir loaded, StoppedAt old second dir → dir.loadQueryMeta = .ok loaded →
      CompleteVersion old second dir loaded) ↔ NoMixture old second) := by
  refine ⟨?_, ?_, ?_⟩
  · intro dir loaded hstopped h
    rcases loaded_of_stoppedAt hfirst hstopped h with hcomplete | hmixed
    · exact Or.inl hcomplete
    · obtain ⟨bin, hmeta, hbin, -, -, -, hdir⟩ := hmixed
      exact Or.inr ⟨bin, hmeta, hbin, hdir⟩
  · intro hall info bin loaded hmeta hbin hold hopens hle
    have htake : (second.issued.take bin.length).length = bin.length := by
      rw [List.length_take, Nat.min_eq_left hle]
    have hloaded : (⟨old.metaFile.map .whole, some (second.issued.take bin.length)⟩ :
        SampleDir).loadQueryMeta = .ok loaded := by
      obtain ⟨metaFile, binFile⟩ := old
      simp only at hmeta hbin
      subst hmeta hbin
      exact (readQueryMeta_congr info htake).trans hold
    obtain rfl : info = loaded := Option.some.inj (hmeta.symm.trans (readQueryMeta_files hold))
    rcases hall _ _ (.duringBin bin.length hopens) hloaded with ⟨-, hsame⟩ | ⟨new, hrun, hnewMeta, hsame⟩
    · rw [hbin] at hsame
      exact Or.inl (Option.some.inj hsame)
    · obtain ⟨-, hnewBin, -⟩ := SaveCall.issued_of_run hrun
      rw [hnewBin] at hsame
      refine Or.inr ⟨new, hrun, hnewMeta, ?_⟩
      rw [← Option.some.inj hsame, htake]
  · intro hno dir loaded hstopped h
    rcases loaded_of_stoppedAt hfirst hstopped h with hcomplete | hmixed
    · exact hcomplete
    · obtain ⟨bin, hmeta, hbin, hopens, hold, hle, hdir⟩ := hmixed
      rcases hno loaded bin loaded hmeta hbin hold hopens hle with hsame | ⟨new, hrun, hnewMeta, hlen⟩
      · exact Or.inl ⟨hmeta, by rw [hdir, hsame, hbin]⟩
      · obtain ⟨-, hnewBin, -⟩ := SaveCall.issued_of_run hrun
        refine Or.inr ⟨new, hrun, hnewMeta, ?_⟩
        rw [hdir, hnewBin, ← hlen, List.take_length]

/-! ## Two prompts of one length -/

/-- One digest layer of rows 2 and 0 of a prompt, whose context positions the index names. -/
def twoRowSave (firstFill : Nat) (positions : List Int) : SaveCall where
  index := ⟨[("digest_index_method", .str digestIndexMethod),
    ("context_positions_by_layer", .ofIntLists [positions])], [(digestIndexMethod, .obj [])]⟩
  getKv := fun l => threeRowLayers (l + firstFill)
  numDigestLayers := 1
  digestTokenIndicesByLayer := [[2, 0]]
  criticalLayers := []
  criticalTokenIndices := none

theorem twoRowSave_run (firstFill : Nat) (positions : List Int) :
    ∃ info, (twoRowSave firstFill positions).run =
        .ok ⟨some info, some (twoRowSave firstFill positions).issued⟩ ∧
      (info.getD "metadata" (.obj []) >>= fun digestMeta =>
        digestMeta.item "context_positions_by_layer") = .ok (.ofIntLists [positions]) :=
  ⟨_, rfl, rfl⟩

/-- The second save stops between its two files. -/
theorem equalSizes_mix :
    ∃ first second old dir loaded, SaveCall.run first = .ok old ∧ StoppedAt old second dir ∧
      dir.loadQueryMeta = .ok loaded ∧ ¬ CompleteVersion old second dir loaded := by
  obtain ⟨oldInfo, hold, holdPositions⟩ := twoRowSave_run 0 [2, 0]
  obtain ⟨newInfo, hnew, hnewPositions⟩ := twoRowSave_run 1 [0, 1]
  refine ⟨twoRowSave 0 [2, 0], twoRowSave 1 [0, 1], _, _, oldInfo, hold, .duringBin 16 rfl, ?_, ?_⟩
  · cases hold
    rfl
  · rintro (⟨-, hbin⟩ | ⟨new, hrun, hmeta, -⟩)
    · have hbytes : (twoRowSave 1 [0, 1]).issued.take 16 ≠ (twoRowSave 0 [2, 0]).issued := by decide
      exact hbytes (Option.some.inj hbin)
    · obtain rfl := Except.ok.inj (hnew.symm.trans hrun)
      obtain rfl : newInfo = oldInfo := Option.some.inj hmeta
      rw [hnewPositions] at holdPositions
      cases holdPositions

/-- The same metadata written again over other rows of the same size is the new version. -/
theorem stopped_save_loads_rewrite :
    ∃ old, (twoRowSave 0 [2, 0]).run = .ok old ∧
      ∀ dir loaded, StoppedAt old (twoRowSave 1 [2, 0]) dir → dir.loadQueryMeta = .ok loaded →
        CompleteVersion old (twoRowSave 1 [2, 0]) dir loaded := by
  obtain ⟨oldInfo, hold, -⟩ := twoRowSave_run 0 [2, 0]
  refine ⟨_, hold, ((stopped_save_loads _ (twoRowSave 1 [2, 0]) _ hold).2).mpr ?_⟩
  intro info bin loaded hmeta hbin _ _ _
  cases hold
  cases hmeta
  cases hbin
  exact Or.inr ⟨_, rfl, rfl, rfl⟩

end QCFuse.Guarantees
