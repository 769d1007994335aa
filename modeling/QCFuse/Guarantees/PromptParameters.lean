import QCFuse.Source.BatchExpansion

/-!
# Every prompt of a batch gets its own parameters

What `__getitem__` hands to prompt `i` is what the prompt alone would carry, but for the request id, the number of
samples, images in a list with their modality, and a bootstrap room that was given once.
-/

set_option autoImplicit false

namespace QCFuse.Guarantees

open QCFuse.Source GenerateCall

/-! ### The prompt alone -/

section Alone

variable {α β μ δ σ : Type}

/-- The value of a field for prompt `i`. -/
def entryOf (toOne : β → Option α) (i : Nat) : Option (PerPrompt α β) → Option α
  | none => none
  | some (.one x) => some x
  | some (.each xs) => xs[i]?.bind toOne

/-- The field of the prompt alone. -/
def aloneField (toOne : β → Option α) (i : Nat) (field : Option (PerPrompt α β)) : Option (PerPrompt α β) :=
  (entryOf toOne i field).map .one

def aloneData (i : Nat) (data : Option (MmData μ)) : Option (MmData μ) :=
  data.bind fun data =>
    match mmEntries data with
    | .one x => some (.item x)
    | .each xs => xs[i]?.join

def aloneTokenIds (i : Nat) : Option TokenIds → Option TokenIds
  | some (.idLists first rest) => (first :: rest)[i]?.map .ids
  | tokenIds => tokenIds

/-- The call of prompt `i` alone, with `n = 1`. -/
def aloneCall (i : Nat) (call : GenerateCall μ δ σ) : GenerateCall μ δ σ :=
  { call with
    prompts := (call.prompts.toList[i]?.map .one).getD call.prompts
    imageData := aloneData i call.imageData
    videoData := aloneData i call.videoData
    audioData := aloneData i call.audioData
    samplingParams := (entryOf some i call.samplingParams).map fun params => .one { params with n := some 1 }
    rid := aloneField some i call.rid
    returnLogprob := aloneField some i call.returnLogprob
    logprobStartLen := aloneField some i call.logprobStartLen
    topLogprobsNum := aloneField some i call.topLogprobsNum
    tokenIdsLogprob := aloneTokenIds i call.tokenIdsLogprob
    returnHiddenStates := (aloneField some i (some call.returnHiddenStates)).getD call.returnHiddenStates
    modalities := aloneField id i call.modalities
    sessionParams := aloneField some i call.sessionParams
    loraPath := aloneField id i call.loraPath
    customLogitProcessor := aloneField id i call.customLogitProcessor
    bootstrapHost := aloneField id i call.bootstrapHost
    bootstrapPort := aloneField id i call.bootstrapPort
    bootstrapRoom := aloneField id i call.bootstrapRoom
    bootstrapPairKey := aloneField id i call.bootstrapPairKey
    extraKey := aloneField some i call.extraKey }

/-- One image is a list of one. -/
def wrapImages : MmData μ → MmData μ
  | .item x => .items [some x]
  | images => images

/-- The modality of prompt `i`: that of its images, where images are given. -/
def modalityOfPrompt (i : Nat) (call : GenerateCall μ δ σ) : Option (PerPrompt String (Option String)) :=
  match call.imageData with
  | none | some (.items []) => aloneField id i call.modalities
  | some (.item _) | some (.items (_ :: _)) => some (.one "image")
  | some (.lists first rest) => ((some first :: rest)[i]?.bind modalityOf).map .one

/-- A room that is given once is the first of as many rooms as there are prompts. -/
def roomOfPrompt (i : Nat) : Option (PerPrompt Int (Option Int)) → Option (PerPrompt Int (Option Int))
  | some (.one room) => some (.one (room + i))
  | rooms => aloneField id i rooms

/-- What prompt `i` of a batch carries, where `single` is the prompt alone. -/
def carriedOf (empty : δ) (i : Nat) (call single : GenerateCall μ δ σ) (rid : Option (PerPrompt String String)) :
    GenerateCall μ δ σ :=
  { single with
    rid
    samplingParams := some (.one ((entryOf some i call.samplingParams).getD ⟨none, empty⟩))
    imageData := single.imageData.map wrapImages
    modalities := modalityOfPrompt i call
    bootstrapRoom := roomOfPrompt i call.bootstrapRoom }

/-! ### Shapes that the types admit -/

/-- A list has one entry per prompt. -/
def PerPromptLength (n : Nat) (field : Option (PerPrompt α β)) : Prop := ∀ xs, field = some (.each xs) → xs.length = n

/-- The lists of a call have an entry for each of its prompts. -/
structure OnePerPrompt (call : GenerateCall μ δ σ) : Prop where
  videoData : PerPromptLength call.prompts.toList.length (call.videoData.map mmEntries)
  audioData : PerPromptLength call.prompts.toList.length (call.audioData.map mmEntries)
  samplingParams : PerPromptLength call.prompts.toList.length call.samplingParams
  returnLogprob : PerPromptLength call.prompts.toList.length call.returnLogprob
  logprobStartLen : PerPromptLength call.prompts.toList.length call.logprobStartLen
  topLogprobsNum : PerPromptLength call.prompts.toList.length call.topLogprobsNum
  tokenIds : ∀ first rest, call.tokenIdsLogprob = some (.idLists first rest) →
    (first :: rest).length = call.prompts.toList.length
  returnHiddenStates : PerPromptLength call.prompts.toList.length (some call.returnHiddenStates)
  modalities : PerPromptLength call.prompts.toList.length call.modalities
  loraPath : PerPromptLength call.prompts.toList.length call.loraPath
  customLogitProcessor : PerPromptLength call.prompts.toList.length call.customLogitProcessor
  bootstrapHost : PerPromptLength call.prompts.toList.length call.bootstrapHost
  bootstrapPort : PerPromptLength call.prompts.toList.length call.bootstrapPort
  bootstrapRoom : PerPromptLength call.prompts.toList.length call.bootstrapRoom
  bootstrapPairKey : PerPromptLength call.prompts.toList.length call.bootstrapPairKey

/-- What the types of the fields leave out. -/
structure Typed (call : GenerateCall μ δ σ) : Prop where
  images : ∀ xs, call.imageData = some (.items xs) → none ∉ xs
  tokenIds : ∀ x, call.tokenIdsLogprob ≠ some (.id x)
  modalities : ∀ modality, call.modalities ≠ some (.one modality)
  samples : ∀ params, call.samplingParams = some (.one params) → params.n ≠ some 0
  sampleLists : ∀ xs, call.samplingParams = some (.each xs) → ∀ params ∈ xs, params.n ≠ some 0

/-- The fields that are handed over whole are given once, and no list of token ids is empty. -/
structure GivenOnce (call : GenerateCall μ δ σ) : Prop where
  sessionParams : ∀ xs, call.sessionParams ≠ some (.each xs)
  extraKey : ∀ xs, call.extraKey ≠ some (.each xs)
  background : call.background = false
  httpWorkerIpc : call.httpWorkerIpc = none
  tokenIds : ∀ first rest, call.tokenIdsLogprob = some (.idLists first rest) → [] ∉ first :: rest

end Alone

/-! ### The fields of a batch -/

section Fields

variable {α β μ δ σ : Type} {n num p i : Nat}

/-- The entry of a field that is filled up to the batch. -/
def filledAt (default : β) (once : α → β) (i : Nat) : Option (PerPrompt α β) → β
  | none => default
  | some (.one x) => once x
  | some (.each xs) => (xs[i]?).getD default

theorem getElem?_pyRepeat {xs : List α} (hp : 0 < p) (hi : i < xs.length) : (pyRepeat xs p)[i]? = xs[i]? := by
  obtain ⟨k, rfl⟩ := Nat.exists_eq_succ_of_ne_zero hp.ne'
  rw [pyRepeat, List.replicate_succ, List.flatten_cons, List.getElem?_append_left hi]

theorem expandField_at (default : β) (once : Nat → α → β) {field : Option (PerPrompt α β)}
    (hfield : PerPromptLength n field) (hp : 0 < p) (hi : i < n) (hnum : n ≤ num) :
    pyIndex (expandField default once num p field) i = .ok (filledAt default (once i) i field) := by
  rw [pyIndex_ok_iff]
  match field with
  | none =>
    rw [expandField, List.getElem?_replicate_of_lt (by omega)]
    rfl
  | some (.one x) =>
    rw [expandField, List.getElem?_map, List.getElem?_range (by omega)]
    rfl
  | some (.each xs) =>
    have hlength := hfield xs rfl
    rw [expandField, getElem?_pyRepeat hp (by omega), filledAt, List.getElem?_eq_getElem (by omega)]
    rfl

theorem normalizeParam_at {default : β} {once : α → β} {name : String} {field : Option (PerPrompt α β)} {ys : List β}
    (h : normalizeParam default once num p name field = .ok ys) (hfield : PerPromptLength n field) (hi : i < n)
    (hnum : n ≤ num) : pyIndex ys i = .ok (filledAt default once i field) := by
  rw [pyIndex_ok_iff]
  match field with
  | none =>
    cases h
    exact List.getElem?_replicate_of_lt (by omega)
  | some (.one x) =>
    cases h
    exact List.getElem?_replicate_of_lt (by omega)
  | some (.each xs) =>
    have hlength := hfield xs rfl
    rw [normalizeParam] at h
    split at h
    · cases h
    · cases h
      rw [filledAt, List.getElem?_eq_getElem (by omega)]
      rfl

/-- A field with a default: the prompt alone gets the same one. -/
theorem filledAt_getD (default : α) {field : Option (PerPrompt α α)} (hfield : PerPromptLength n field) (hi : i < n) :
    .one (filledAt default id i field) = (aloneField some i field).getD (.one default) := by
  match field with
  | none => rfl
  | some (.one x) => rfl
  | some (.each xs) =>
    have hlength := hfield xs rfl
    rw [filledAt, aloneField, entryOf, List.getElem?_eq_getElem (by omega)]
    rfl

/-- A field without one. -/
theorem filledAt_map {field : Option (PerPrompt α (Option α))} (hfield : PerPromptLength n field) (hi : i < n) :
    (filledAt none some i field).map PerPrompt.one = aloneField id i field := by
  match field with
  | none => rfl
  | some (.one x) => rfl
  | some (.each xs) =>
    have hlength := hfield xs rfl
    rw [filledAt, aloneField, entryOf, List.getElem?_eq_getElem (by omega)]
    rfl

theorem filledAt_entry (default : α) {field : Option (PerPrompt α α)} (hfield : PerPromptLength n field)
    (hi : i < n) : filledAt default (fun x => x) i field = (entryOf some i field).getD default := by
  match field with
  | none => rfl
  | some (.one x) => rfl
  | some (.each xs) =>
    have hlength := hfield xs rfl
    rw [filledAt, entryOf, List.getElem?_eq_getElem (by omega)]
    rfl

theorem filledAt_room {field : Option (PerPrompt Int (Option Int))} (hfield : PerPromptLength n field) (hi : i < n) :
    (filledAt none (fun room => some (room + (i : Int))) i field).map PerPrompt.one = roomOfPrompt i field := by
  match field with
  | none => rfl
  | some (.one x) => rfl
  | some (.each xs) => exact filledAt_map hfield hi

theorem filledAt_data {data : Option (MmData μ)} (hdata : PerPromptLength n (data.map mmEntries)) (hi : i < n) :
    filledAt none (fun x => some (.item x)) i (data.map mmEntries) = aloneData i data := by
  match data with
  | none => rfl
  | some data =>
    rw [aloneData, Option.bind_some]
    cases hentries : mmEntries data with
    | one x => simp [filledAt, hentries]
    | each xs =>
      have hlength := hdata xs (by simp [hentries])
      simp [filledAt, hentries, List.getElem?_eq_getElem (show i < xs.length by omega)]

theorem modalityAt_of_lt {modalities : List (Option String)} (hi : i < modalities.length) :
    modalityAt (some modalities) i = .ok (modalities[i]) := by
  cases modalities with
  | nil => exact absurd hi (Nat.not_lt_zero i)
  | cons modality modalities => exact (pyIndex_ok_iff _ _ _).mpr (List.getElem?_eq_getElem hi)

/-- Without images the modalities are those of the call. -/
theorem modalityAt_list {modalities : Option (PerPrompt String (Option String))}
    (hlist : ∀ modality, modalities ≠ some (.one modality)) (hlength : PerPromptLength n modalities) (hi : i < n) :
    ∃ modality, modalityAt (modalityList modalities) i = .ok modality ∧
      modality.map .one = aloneField id i modalities := by
  match modalities with
  | none => exact ⟨none, rfl, rfl⟩
  | some (.one modality) => exact absurd rfl (hlist modality)
  | some (.each xs) =>
    have hlong : i < xs.length := hlength xs rfl ▸ hi
    refine ⟨xs[i], modalityAt_of_lt hlong, ?_⟩
    rw [aloneField, entryOf, List.getElem?_eq_getElem hlong]
    rfl

theorem aloneData_items {xs : List (Option μ)} (hi : i < xs.length) :
    aloneData i (some (.items xs)) = xs[i].map .item := by
  have hentry : aloneData i (some (.items xs)) = (xs.map (Option.map MmData.item))[i]?.join := rfl
  rw [hentry, List.getElem?_map, List.getElem?_eq_getElem hi]
  rfl

theorem aloneData_lists {first : List (Option μ)} {rest : List (Option (List (Option μ)))}
    (hi : i < (some first :: rest).length) :
    aloneData i (some (.lists first rest)) = ((some first :: rest)[i]).map .items := by
  have hentry : aloneData i (some (.lists first rest)) =
      ((some first :: rest).map (Option.map MmData.items))[i]?.join := rfl
  rw [hentry, List.getElem?_map, List.getElem?_eq_getElem hi]
  rfl

theorem length_pyRepeat (xs : List α) (p : Nat) : (pyRepeat xs p).length = p * xs.length := by
  simp [pyRepeat]

/-- The images of prompt `i` are in a list, and their modality is its own. -/
theorem normalizeImageData_at {batchSize : Nat} {call : GenerateCall μ δ σ} {images : List (Option (MmData μ))}
    {modalities : Option (List (Option String))}
    (h : normalizeImageData batchSize num p (modalityList call.modalities) call.imageData = .ok (images, modalities))
    (himages : ∀ xs, call.imageData = some (.items xs) → none ∉ xs)
    (hlist : ∀ modality, call.modalities ≠ some (.one modality)) (hlength : PerPromptLength batchSize call.modalities)
    (hp : 0 < p) (hi : i < batchSize) (hnum : batchSize ≤ num) :
    pyIndex images i = .ok ((aloneData i call.imageData).map wrapImages) ∧
      ∃ modality, modalityAt modalities i = .ok modality ∧ modality.map .one = modalityOfPrompt i call := by
  rw [pyIndex_ok_iff, modalityOfPrompt]
  cases hdata : call.imageData with
  | none =>
    rw [hdata] at h
    cases h
    exact ⟨List.getElem?_replicate_of_lt (by omega), modalityAt_list hlist hlength hi⟩
  | some data =>
    rw [hdata] at h
    cases data with
    | item x =>
      cases h
      refine ⟨List.getElem?_replicate_of_lt (by omega), some "image", ?_, rfl⟩
      rw [modalityAt_of_lt (by rw [List.length_replicate]; omega), List.getElem_replicate]
    | items xs =>
      cases xs with
      | nil =>
        cases h
        exact ⟨List.getElem?_replicate_of_lt (by omega), modalityAt_list hlist hlength hi⟩
      | cons x xs =>
        rw [normalizeImageData] at h
        split at h
        · cases h
        next hsize =>
          rw [not_not] at hsize
          cases h
          have hlong : i < (x :: xs).length := hsize ▸ hi
          refine ⟨?_, some "image", ?_, rfl⟩
          · rw [getElem?_pyRepeat hp (by rw [List.length_map]; exact hlong), List.getElem?_map,
              List.getElem?_eq_getElem hlong]
            have hsome : (x :: xs)[i] ≠ none := fun hnone =>
              himages _ hdata (hnone ▸ List.getElem_mem hlong)
            obtain ⟨img, himg⟩ := Option.ne_none_iff_exists'.mp hsome
            rw [aloneData_items hlong, himg]
            rfl
          · rw [modalityAt_of_lt (by rw [List.length_replicate]; omega), List.getElem_replicate]
    | lists first rest =>
      rw [normalizeImageData] at h
      split at h
      · cases h
      next hsize =>
        rw [not_not] at hsize
        cases h
        have hlong : i < (some first :: rest).length := hsize ▸ hi
        refine ⟨?_, modalityOf ((some first :: rest)[i]), ?_, ?_⟩
        · rw [getElem?_pyRepeat hp (by rw [List.length_map]; exact hlong), List.getElem?_map,
            List.getElem?_eq_getElem hlong, aloneData_lists hlong]
          cases (some first :: rest)[i] <;> rfl
        · have hrepeat : i < (pyRepeat ((some first :: rest).map modalityOf) p).length := by
            rw [length_pyRepeat, List.length_map]
            exact hlong.trans_le (Nat.le_mul_of_pos_left _ hp)
          have hentry : (pyRepeat ((some first :: rest).map modalityOf) p)[i]? =
              ((some first :: rest).map modalityOf)[i]? :=
            getElem?_pyRepeat hp (by rw [List.length_map]; exact hlong)
          rw [List.getElem?_eq_getElem hrepeat, List.getElem?_map, List.getElem?_eq_getElem hlong] at hentry
          rw [modalityAt_of_lt hrepeat]
          exact congrArg Except.ok (Option.some.inj hentry)
        · dsimp only
          rw [List.getElem?_eq_getElem hlong]
          rfl

theorem normalizeTokenIds_at {tokenIds : Option TokenIds} {ys : List (Option (List Int))}
    (h : normalizeTokenIds num p tokenIds = .ok ys) (hid : ∀ x, tokenIds ≠ some (.id x))
    (hlength : ∀ first rest, tokenIds = some (.idLists first rest) → (first :: rest).length = n)
    (hempty : ∀ first rest, tokenIds = some (.idLists first rest) → [] ∉ first :: rest) (hi : i < n)
    (hnum : n ≤ num) : ∃ ids, pyIndex ys i = .ok ids ∧
      ids.map .ids = if noTokenIds (aloneTokenIds i tokenIds) then none else aloneTokenIds i tokenIds := by
  simp only [pyIndex_ok_iff]
  match tokenIds with
  | none =>
    cases h
    exact ⟨none, List.getElem?_replicate_of_lt (by omega), rfl⟩
  | some (.id x) => exact absurd rfl (hid x)
  | some (.ids []) =>
    cases h
    exact ⟨none, List.getElem?_replicate_of_lt (by omega), rfl⟩
  | some (.ids (x :: xs)) =>
    cases h
    exact ⟨some (x :: xs), List.getElem?_replicate_of_lt (by omega), rfl⟩
  | some (.idLists first rest) =>
    have hlong : i < (first :: rest).length := hlength first rest rfl ▸ hi
    have hvalue : (if 1 < p then .error (.valueError "Cannot use list token_ids_logprob with parallel_sample_num > 1")
        else .ok ((first :: rest).map some) : Py (List (Option (List Int)))) = .ok ys := h
    split at hvalue
    · cases hvalue
    · cases hvalue
      refine ⟨some ((first :: rest)[i]), ?_, ?_⟩
      · rw [List.getElem?_map, List.getElem?_eq_getElem hlong]
        rfl
      · have hentry : aloneTokenIds i (some (.idLists first rest)) = some (.ids ((first :: rest)[i])) := by
          rw [aloneTokenIds, List.getElem?_eq_getElem hlong]
          rfl
        have hsome : (first :: rest)[i] ≠ [] := fun hnil =>
          hempty first rest rfl (hnil ▸ List.getElem_mem hlong)
        rw [hentry, noTokenIds, List.isEmpty_eq_false_iff.mpr hsome]
        rfl

theorem normalizeRid_at {uuids : Nat → String} {rid : Option (PerPrompt String String)} {ys : List String}
    (h : normalizeRid uuids n num rid = .ok ys) (hi : i < n) (hnum : n ≤ num) : ∃ rid, pyIndex ys i = .ok rid := by
  have hlong : i < ys.length := by
    match rid with
    | none =>
      cases h
      rw [List.length_map, List.length_range]
      omega
    | some (.one rid) =>
      cases h
      rw [List.length_map, List.length_range]
      omega
    | some (.each rids) =>
      rw [normalizeRid] at h
      split at h
      · cases h
      · cases h
        omega
  exact ⟨ys[i], (pyIndex_ok_iff _ _ _).mpr (List.getElem?_eq_getElem hlong)⟩

theorem indexed_alone {field : PerPrompt α α} (hfield : PerPromptLength n (some field)) (hi : i < n) :
    ∃ x, field.indexed i = .ok x ∧ .one x = (aloneField some i (some field)).getD field := by
  cases field with
  | one x => exact ⟨x, rfl, rfl⟩
  | each xs =>
    have hlong : i < xs.length := hfield xs rfl ▸ hi
    refine ⟨xs[i], (pyIndex_ok_iff _ _ _).mpr (List.getElem?_eq_getElem hlong), ?_⟩
    rw [aloneField, entryOf, List.getElem?_eq_getElem hlong]
    rfl

theorem loraPathAt_alone {loraPath : Option (PerPrompt String (Option String))} (hfield : PerPromptLength n loraPath)
    (hp : 0 < p) (hi : i < n) (hnum : n ≤ num) : ∃ path, loraPathAt (normalizeLoraPaths num p loraPath) i = .ok path ∧
      path.map .one = aloneField id i loraPath := by
  cases loraPath with
  | none => exact ⟨none, rfl, rfl⟩
  | some loraPath =>
    exact ⟨_, expandField_at none (fun _ => some) hfield hp hi hnum, filledAt_map hfield hi⟩

/-- A field that is given once is that of the prompt alone. -/
theorem aloneField_once {field : Option (PerPrompt α α)} (h : ∀ xs, field ≠ some (.each xs)) :
    aloneField some i field = field := by
  match field with
  | none => rfl
  | some (.one x) => rfl
  | some (.each xs) => exact absurd rfl (h xs)

end Fields

/-! ### The whole call -/

section Call

variable {μ δ σ : Type} {empty : δ} {uuids : Nat → String} {call : GenerateCall μ δ σ}

theorem determineBatchSize_length {prompts : Prompts} {isSingle : Bool} {batchSize : Nat}
    (h : determineBatchSize prompts = .ok (isSingle, batchSize)) : batchSize = prompts.toList.length := by
  unfold determineBatchSize at h
  split at h <;> cases h <;> simp [Prompts.toList]

theorem parallelSampleNum_pos (htyped : Typed call) {samples : Nat}
    (h : parallelSampleNum call.samplingParams = .ok samples) : 0 < samples := by
  have hdefault {params : SamplingDict δ} (hzero : params.n ≠ some 0) : 0 < params.n.getD 1 := by
    cases hn : params.n with
    | none => exact Nat.one_pos
    | some n =>
      have hne : n ≠ 0 := fun heq => hzero (by rw [hn, heq])
      exact Nat.pos_of_ne_zero hne
  cases hparams : call.samplingParams with
  | none =>
    rw [hparams] at h
    cases h
    exact Nat.one_pos
  | some field =>
    rw [hparams] at h
    cases field with
    | one params =>
      cases h
      exact hdefault (htyped.samples params hparams)
    | each xs =>
      cases xs with
      | nil => cases h
      | cons params rest =>
        rw [parallelSampleNum] at h
        split at h
        · cases h
          exact hdefault (htyped.sampleLists _ hparams params List.mem_cons_self)
        · cases h

/-- A batch is normalised with as many prompts as the call has. -/
theorem normalize_batch {batch : GenerateBatch μ δ σ}
    (h : call.normalizeBatchAndArguments empty uuids = .ok (.batch batch)) : ∃ samples,
      parallelSampleNum call.samplingParams = .ok samples ∧
        normalizeBatchInputs empty uuids call.prompts.toList.length samples call = .ok batch := by
  obtain ⟨⟨isSingle, batchSize⟩, hsize, h⟩ := bind_ok h
  obtain ⟨samples, hsamples, h⟩ := bind_ok h
  split at h
  · cases h
  · obtain ⟨batch', hbatch, h⟩ := bind_ok h
    cases h
    exact ⟨samples, hsamples, determineBatchSize_length hsize ▸ hbatch⟩

theorem normalize_single {single : GenerateCall μ δ σ}
    (h : call.normalizeBatchAndArguments empty uuids = .ok (.single single)) :
    single = normalizeSingleInputs empty (uuids 0) call := by
  obtain ⟨⟨isSingle, batchSize⟩, -, h⟩ := bind_ok h
  obtain ⟨samples, -, h⟩ := bind_ok h
  split at h
  · cases h
    rfl
  · obtain ⟨batch', -, h⟩ := bind_ok h
    cases h

/-- What prompt `i` of an accepted batch carries is what it would carry alone. -/
theorem getItem_alone {batch : GenerateBatch μ δ σ} {i : Nat} (hlists : OnePerPrompt call) (htyped : Typed call)
    (honce : GivenOnce call) (h : call.normalizeBatchAndArguments empty uuids = .ok (.batch batch))
    (hi : i < call.prompts.toList.length) : ∃ obj, batch.getItem i = .ok obj ∧
      ∀ uuids' single, (aloneCall i call).normalizeBatchAndArguments empty uuids' = .ok (.single single) →
        obj = carriedOf empty i call single obj.rid := by
  obtain ⟨samples, hsamples, h⟩ := normalize_batch h
  have hpos := parallelSampleNum_pos htyped hsamples
  have hnum : call.prompts.toList.length ≤ if samples = 1 then call.prompts.toList.length
      else call.prompts.toList.length * samples := by
    split
    · exact le_rfl
    · exact Nat.le_mul_of_pos_right _ hpos
  obtain ⟨rids, hrids, h⟩ := bind_ok h
  obtain ⟨⟨images, modalities⟩, himages, h⟩ := bind_ok h
  obtain ⟨returnLogprob, hreturnLogprob, h⟩ := bind_ok h
  obtain ⟨logprobStartLen, hlogprobStartLen, h⟩ := bind_ok h
  obtain ⟨topLogprobsNum, htopLogprobsNum, h⟩ := bind_ok h
  obtain ⟨tokenIds, htokenIds, h⟩ := bind_ok h
  obtain ⟨processors, hprocessors, h⟩ := bind_ok h
  cases h
  obtain ⟨rid, hrid⟩ := normalizeRid_at hrids hi hnum
  obtain ⟨himage, modality, hmodality, hmodalityOf⟩ :=
    normalizeImageData_at himages htyped.images htyped.modalities hlists.modalities hpos hi hnum
  obtain ⟨ids, hids, hidsOf⟩ :=
    normalizeTokenIds_at htokenIds htyped.tokenIds hlists.tokenIds honce.tokenIds hi hnum
  obtain ⟨hidden, hhidden, hhiddenOf⟩ := indexed_alone hlists.returnHiddenStates hi
  obtain ⟨path, hpath, hpathOf⟩ := loraPathAt_alone hlists.loraPath hpos hi hnum
  have hprompt : pyIndex (pyRepeat call.prompts.toList samples) i = .ok call.prompts.toList[i] :=
    (pyIndex_ok_iff _ _ _).mpr ((getElem?_pyRepeat hpos hi).trans (List.getElem?_eq_getElem hi))
  have hvideo := expandField_at none (fun _ x => some (.item x)) hlists.videoData hpos hi hnum
  have haudio := expandField_at none (fun _ x => some (.item x)) hlists.audioData hpos hi hnum
  have hsampling := expandField_at ⟨none, empty⟩ (fun _ params => params) hlists.samplingParams hpos hi hnum
  have hhost := expandField_at none (fun _ => some) hlists.bootstrapHost hpos hi hnum
  have hport := expandField_at none (fun _ => some) hlists.bootstrapPort hpos hi hnum
  have hroom := expandField_at none (fun i room => some (room + (i : Int))) hlists.bootstrapRoom hpos hi hnum
  have hpair := expandField_at none (fun _ => some) hlists.bootstrapPairKey hpos hi hnum
  rw [filledAt_data hlists.videoData hi] at hvideo
  rw [filledAt_data hlists.audioData hi] at haudio
  rw [filledAt_entry _ hlists.samplingParams hi] at hsampling
  refine ⟨carriedOf empty i call (normalizeSingleInputs empty rid (aloneCall i call)) (some (.one rid)), ?_,
    fun uuids' single hsingle => ?_⟩
  · simp only [GenerateBatch.getItem, normalizeMmData, hprompt, himage, hvideo, haudio, hsampling, hrid,
      normalizeParam_at hreturnLogprob hlists.returnLogprob hi hnum,
      normalizeParam_at hlogprobStartLen hlists.logprobStartLen hi hnum,
      normalizeParam_at htopLogprobsNum hlists.topLogprobsNum hi hnum, hids, hhidden, hmodality, hpath,
      normalizeParam_at hprocessors hlists.customLogitProcessor hi hnum, hhost, hport, hroom, hpair, bind, Except.bind]
    refine congrArg Except.ok ?_
    rw [carriedOf, GenerateCall.mk.injEq]
    have hlogprob := filledAt_getD false hlists.returnLogprob hi
    have hstart := filledAt_getD (-1) hlists.logprobStartLen hi
    have htop := filledAt_getD 0 hlists.topLogprobsNum hi
    have halone : Prompts.one call.prompts.toList[i] = (aloneCall i call).prompts := by
      rw [aloneCall, List.getElem?_eq_getElem hi]
      rfl
    exact ⟨halone, rfl, rfl, rfl, rfl, rfl, congrArg some hlogprob, congrArg some hstart, congrArg some htop, hidsOf,
      hhiddenOf, hmodalityOf, (aloneField_once honce.sessionParams).symm, hpathOf,
      filledAt_map hlists.customLogitProcessor hi, filledAt_map hlists.bootstrapHost hi,
      filledAt_map hlists.bootstrapPort hi, filledAt_room hlists.bootstrapRoom hi,
      filledAt_map hlists.bootstrapPairKey hi, (aloneField_once honce.extraKey).symm, honce.background.symm,
      honce.httpWorkerIpc.symm, rfl⟩
  · rw [normalize_single hsingle]
    rfl

end Call

/-- Two texts with one image each; the room is given once. -/
def twoTexts : GenerateCall String Unit Unit where
  prompts := .texts ["a", "b"]
  imageData := some (.items [some "x", some "y"])
  videoData := none
  audioData := none
  samplingParams := some (.each [⟨none, ()⟩, ⟨some 1, ()⟩])
  rid := none
  returnLogprob := some (.one true)
  logprobStartLen := none
  topLogprobsNum := some (.each [1, 2])
  tokenIdsLogprob := some (.idLists [1] [[2, 3]])
  returnHiddenStates := .each [true, false]
  modalities := none
  sessionParams := none
  loraPath := some (.each [some "l", none])
  customLogitProcessor := none
  bootstrapHost := some (.one "h")
  bootstrapPort := none
  bootstrapRoom := some (.one 5)
  bootstrapPairKey := none
  extraKey := none
  background := false
  httpWorkerIpc := none
  shared := ()

theorem twoTexts_onePerPrompt : OnePerPrompt twoTexts := by
  constructor
  case tokenIds =>
    rintro first rest ⟨⟩
    rfl
  all_goals
    rintro xs ⟨⟩ <;> rfl

theorem twoTexts_typed : Typed twoTexts := by
  constructor
  · rintro xs ⟨⟩
    simp
  · nofun
  · nofun
  · nofun
  · rintro xs ⟨⟩
    simp

theorem twoTexts_givenOnce : GivenOnce twoTexts := by
  constructor
  · nofun
  · nofun
  · rfl
  · rfl
  · rintro first rest ⟨⟩
    simp

theorem getItem_alone_second : ∃ batch, twoTexts.normalizeBatchAndArguments () toString = .ok (.batch batch) ∧
    ∃ obj, batch.getItem 1 = .ok obj ∧ ∀ uuids' single,
      (aloneCall 1 twoTexts).normalizeBatchAndArguments () uuids' = .ok (.single single) →
        obj = carriedOf () 1 twoTexts single obj.rid :=
  ⟨_, rfl, getItem_alone twoTexts_onePerPrompt twoTexts_typed twoTexts_givenOnce rfl (by decide)⟩

/-- The second prompt gets the room after the one it would get alone. -/
theorem second_prompt_other_room : ∃ batch obj single,
    twoTexts.normalizeBatchAndArguments () toString = .ok (.batch batch) ∧ batch.getItem 1 = .ok obj ∧
      (aloneCall 1 twoTexts).normalizeBatchAndArguments () toString = .ok (.single single) ∧
        obj.bootstrapRoom ≠ single.bootstrapRoom :=
  ⟨_, _, _, rfl, rfl, rfl, by decide⟩

end QCFuse.Guarantees
