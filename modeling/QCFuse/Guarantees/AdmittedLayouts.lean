import QCFuse.Source.BlendAdmission

/-!
# Layouts of admitted blend prompts

When the chunk list of a prompt still fits its tokens at the prefill, and the tokens that were
checked are as many as those sent: exactly if splitting keeps the number of tokens and the
scheduler keeps it as well.
-/

set_option autoImplicit false

namespace QCFuse.Guarantees

open QCFuse.Source

/-- Chunk boundaries of the tokens. -/
structure WellLaid (ids : List Nat) (locs : List Int) : Prop where
  starts : locs.head? = some 0
  grows : locs.Pairwise (· ≤ ·)
  ends : locs.getLast? = some (ids.length : Int)
  within : ∀ loc ∈ locs, loc ≤ ids.length

/-- Of what is sent, as many tokens were checked, and what is prefilled with a blend style has a list
of boundaries of its tokens. -/
def LayoutsKept (tm : TokenizerManager) (limits : AdmissionLimits) (call : BlendCall) (path : AdmissionPath) : Prop :=
  ∀ recvReq, tm.generateRequest call = .ok recvReq →
    (∀ ids, tm.checkedIds call = .ok ids → recvReq.inputIds.length = ids.length) ∧
    ∀ req, admitBlendReq limits path call.blendStyle recvReq = some req →
      req.blendStyle = none ∨ ∃ locs, req.blendLocList = some locs ∧ WellLaid req.originInputIds locs

/-! ## The condition -/

def GrammarPath.aborts : GrammarPath → Bool
  | .none | .cached | .waits none => false
  | .refused _ | .waits (some _) => true

/-- The scheduler aborts a prompt of `n` tokens and still prefills it. -/
def Aborts (limits : AdmissionLimits) (path : AdmissionPath) (n : Nat) : Prop :=
  path.missingSession.isSome ∨ (limits.maxReqInputLen ≤ n ∧ limits.allowAutoTruncate = false) ∨
    path.logprobsPast (min n limits.maxReqInputLen) = true ∨ GrammarPath.aborts path.grammar = true

instance (limits : AdmissionLimits) (path : AdmissionPath) (n : Nat) : Decidable (Aborts limits path n) := by
  unfold Aborts
  infer_instance

/-- An aborted prompt becomes one token and a long one is truncated. -/
def KeepsLength (limits : AdmissionLimits) (path : AdmissionPath) (n : Nat) : Prop :=
  if Aborts limits path n then n = 1 else n ≤ limits.maxReqInputLen

/-- The segments of a text with a separator in it. -/
def textSegments (call : BlendCall) : Option (List String) :=
  match call.text, call.separator with
  | some text, some separator =>
    if 1 < (text.splitOn separator).length then some (text.splitOn separator) else none
  | _, _ => none

/-- A text gives as many tokens a segment at a time as were checked; in tokens the separator is not
found and fits. The prompt leaves the queue or keeps its length. -/
def LayoutCondition (tm : TokenizerManager) (limits : AdmissionLimits) (call : BlendCall) (path : AdmissionPath) : Prop :=
  ∀ tokenizer sepToken ids, tm.tokenizer = some tokenizer → tm.tokenizeTexts call.separator = .ok sepToken →
    tm.checkedIds call = .ok ids → call.otherError = none →
      match textSegments call with
      | some parts =>
        (parts.map fun part => (tokenizer.encodeSegment part).length).sum = ids.length ∧
          (path.leavesQueue = true ∨ KeepsLength limits path ids.length)
      | none =>
        (sepToken = [] ∨ findPatternMatches ids sepToken = []) ∧
          (path.leavesQueue = true ∨ sepToken ≠ [] ∧ sepToken.length ≤ ids.length ∧ KeepsLength limits path ids.length)

/-! ## Splitting -/

section Splitting

/-- Boundaries go on from the tokens before them, and end with all tokens. -/
theorem tokenizeSegments_locs (encodeSegment : String → List Nat) (parts : List String) (inputIds : List Nat) :
    (tokenizeSegments encodeSegment parts inputIds).1.length =
        inputIds.length + (parts.map fun part => (encodeSegment part).length).sum ∧
      (∀ loc ∈ (tokenizeSegments encodeSegment parts inputIds).2, (inputIds.length : Int) ≤ loc ∧
        loc ≤ (tokenizeSegments encodeSegment parts inputIds).1.length) ∧
      (tokenizeSegments encodeSegment parts inputIds).2.Pairwise (· ≤ ·) ∧
      ((inputIds.length : Int) :: (tokenizeSegments encodeSegment parts inputIds).2).getLast? =
        some ((tokenizeSegments encodeSegment parts inputIds).1.length : Int) := by
  induction parts generalizing inputIds with
  | nil =>
    refine ⟨?_, fun loc hloc => ?_, List.Pairwise.nil, rfl⟩
    · rw [List.map_nil, List.sum_nil]
      rfl
    · cases hloc
  | cons part parts ih =>
    obtain ⟨hlen, hbounds, hgrows, hlast⟩ := ih (inputIds ++ encodeSegment part)
    rw [List.length_append] at hlen
    rw [tokenizeSegments]
    refine ⟨?_, fun loc hloc => ?_, List.pairwise_cons.mpr ⟨fun loc hloc => (hbounds loc hloc).1, hgrows⟩, ?_⟩
    · rw [List.map_cons, List.sum_cons]
      dsimp only
      omega
    · rcases List.mem_cons.mp hloc with rfl | hloc
      · dsimp only
        rw [List.length_append]
        omega
      · have := hbounds loc hloc
        rw [List.length_append] at this
        dsimp only
        omega
    · rw [List.getLast?_cons_cons]
      exact hlast

theorem splitTextTokens_laid (inputText separator : String) (tokenizer : Tokenizer) :
    (splitTextTokens inputText separator tokenizer).inputIds.length =
        ((inputText.splitOn separator).map fun part => (tokenizer.encodeSegment part).length).sum ∧
      ∃ locs, (splitTextTokens inputText separator tokenizer).blendLocList = some locs ∧
        WellLaid (splitTextTokens inputText separator tokenizer).inputIds locs := by
  obtain ⟨hlen, hbounds, hgrows, hlast⟩ :=
    tokenizeSegments_locs tokenizer.encodeSegment (inputText.splitOn separator) []
  rw [List.length_nil] at hlen hbounds hlast
  refine ⟨hlen.trans (Nat.zero_add _), _, rfl, rfl, ?_, hlast, fun loc hloc => ?_⟩
  · exact List.pairwise_cons.mpr ⟨fun loc hloc => (hbounds loc hloc).1, hgrows⟩
  · rcases List.mem_cons.mp hloc with rfl | hloc
    · exact Int.natCast_nonneg _
    · exact (hbounds loc hloc).2

theorem findPatternMatches_lt {inputIds sepToken : List Nat} {matchIdx : Nat} (hsep : sepToken ≠ [])
    (h : matchIdx ∈ findPatternMatches inputIds sepToken) : matchIdx < inputIds.length := by
  have hrange := List.mem_range.mp (List.mem_filter.mp h).1
  have := List.length_pos_of_ne_nil hsep
  omega

/-- Where a separator is found, tokens go. -/
theorem keptIds_lt {inputIds sepToken : List Nat} (hsep : sepToken ≠ []) (hfound : findPatternMatches inputIds sepToken ≠ []) :
    (keptIds inputIds (findPatternMatches inputIds sepToken) sepToken.length).length < inputIds.length := by
  obtain ⟨matchIdx, hmatch⟩ := List.exists_mem_of_ne_nil _ hfound
  have hlt := findPatternMatches_lt hsep hmatch
  have hpos := List.length_pos_of_ne_nil hsep
  rw [keptIds, List.length_map]
  calc _ < inputIds.zipIdx.length := by
        refine List.length_filter_lt_length_iff_exists.mpr ⟨(inputIds.get ⟨matchIdx, hlt⟩, matchIdx), ?_, fun hkept => ?_⟩
        · exact List.mem_zipIdx_iff_getElem?.mpr (List.getElem?_eq_getElem hlt)
        · have := List.all_eq_true.mp hkept matchIdx hmatch
          simp only [Bool.not_eq_true', Bool.and_eq_false_iff, decide_eq_false_iff_not] at this
          omega
    _ = inputIds.length := List.length_zipIdx

/-- Splitting tokens keeps their number exactly if no separator is found. -/
theorem splitTokens_length (inputText : Option String) (inputIds : List Nat) (separator : String) (sepToken : List Nat) :
    (splitTokens inputText inputIds separator sepToken).inputIds.length = inputIds.length ↔
      sepToken = [] ∨ findPatternMatches inputIds sepToken = [] := by
  unfold splitTokens
  split
  next hshort =>
    refine iff_of_true rfl ?_
    rcases hshort with hempty | hshort
    · exact Or.inl (List.eq_nil_of_length_eq_zero hempty)
    · right
      rw [findPatternMatches, show inputIds.length + 1 - sepToken.length = 0 by omega]
      rfl
  next hlong =>
    rw [not_or] at hlong
    have hsep : sepToken ≠ [] := fun hnil => hlong.1 (hnil ▸ rfl)
    dsimp only
    split
    next hnone => exact iff_of_true rfl (Or.inr hnone)
    next hfound =>
      refine iff_of_false (keptIds_lt hsep hfound).ne ?_
      rw [not_or]
      exact ⟨hsep, hfound⟩

theorem splitTokens_whole (inputText : Option String) {inputIds : List Nat} (separator : String) {sepToken : List Nat}
    (h : sepToken = [] ∨ findPatternMatches inputIds sepToken = []) :
    (splitTokens inputText inputIds separator sepToken).inputIds = inputIds ∧
      (splitTokens inputText inputIds separator sepToken).blendLocList =
        if sepToken ≠ [] ∧ sepToken.length ≤ inputIds.length then some [0, (inputIds.length : Int)] else none := by
  unfold splitTokens
  split
  next hshort =>
    refine ⟨rfl, (if_neg ?_).symm⟩
    rintro ⟨hsep, hfits⟩
    rcases hshort with hempty | hshort
    · exact hsep (List.eq_nil_of_length_eq_zero hempty)
    · omega
  next hlong =>
    rw [not_or, Nat.not_lt] at hlong
    have hsep : sepToken ≠ [] := fun hnil => hlong.1 (hnil ▸ rfl)
    dsimp only
    rw [if_pos (h.resolve_left hsep), if_pos ⟨hsep, hlong.2⟩]
    exact ⟨rfl, rfl⟩

theorem wellLaid_whole (ids : List Nat) : WellLaid ids [0, (ids.length : Int)] where
  starts := rfl
  grows := List.pairwise_pair.mpr (Int.natCast_nonneg _)
  ends := rfl
  within loc hloc := by
    simp only [List.mem_cons, List.not_mem_nil, or_false] at hloc
    omega

end Splitting

/-! ## The scheduler -/

section Admission

variable {limits : AdmissionLimits} {path : AdmissionPath} {blendStyle : BlendStyle} {recvReq : BlendTokenized}
  {req : QueuedReq}

/-- The scheduler leaves style and list, and `n` tokens. -/
structure LeavesTokens (req req' : QueuedReq) (n : Nat) : Prop where
  blendStyle : req'.blendStyle = req.blendStyle
  blendLocList : req'.blendLocList = req.blendLocList
  length : req'.originInputIds.length = n

theorem setFinishWithAbort_leaves (req : QueuedReq) (errorMsg : String) :
    LeavesTokens req (req.setFinishWithAbort errorMsg) 1 := ⟨rfl, rfl, rfl⟩

theorem awaitGrammar_leaves (req : QueuedReq) (grammar : GrammarPath) :
    LeavesTokens req (req.awaitGrammar grammar) (if GrammarPath.aborts grammar then 1 else req.originInputIds.length) := by
  cases grammar with
  | none => exact ⟨rfl, rfl, rfl⟩
  | refused errorMsg => exact setFinishWithAbort_leaves req errorMsg
  | cached => exact ⟨rfl, rfl, rfl⟩
  | waits aborted =>
    cases aborted with
    | none => exact ⟨rfl, rfl, rfl⟩
    | some errorMsg => exact setFinishWithAbort_leaves req errorMsg

theorem validateInputLength_cases (limits : AdmissionLimits) (req : QueuedReq) :
    (limits.maxReqInputLen ≤ req.originInputIds.length ∧ limits.allowAutoTruncate = false) ∧
      (∃ errorMsg, validateInputLength limits req = .error errorMsg) ∨
    ¬(limits.maxReqInputLen ≤ req.originInputIds.length ∧ limits.allowAutoTruncate = false) ∧
      ∃ req', validateInputLength limits req = .ok req' ∧
        LeavesTokens req req' (min req.originInputIds.length limits.maxReqInputLen) := by
  unfold validateInputLength
  split
  next hlong =>
    split
    next htruncate =>
      refine Or.inr ⟨fun hrefused => ?_, _, rfl, rfl, rfl, ?_⟩
      · rw [htruncate] at hrefused
        cases hrefused.2
      · rw [List.length_take, Nat.min_comm]
    next hrefused => exact Or.inl ⟨⟨hlong, by simpa using hrefused⟩, _, rfl⟩
  next hshort =>
    refine Or.inr ⟨fun hlong => hshort hlong.1, req, rfl, rfl, rfl, ?_⟩
    omega

theorem handleBlendReq_leaves (limits : AdmissionLimits) (path : AdmissionPath) (req : QueuedReq) :
    LeavesTokens req (handleBlendReq limits path req) (if Aborts limits path req.originInputIds.length then 1
      else min req.originInputIds.length limits.maxReqInputLen) := by
  unfold handleBlendReq
  split
  next sessionId hsession =>
    have haborts : Aborts limits path req.originInputIds.length := by
      left
      rw [hsession]
      rfl
    rw [if_pos haborts]
    exact setFinishWithAbort_leaves req _
  next hsession =>
    have hnone : path.missingSession.isSome ≠ true := by
      rw [hsession]
      simp
    rcases validateInputLength_cases limits req with ⟨hrefused, errorMsg, herror⟩ | ⟨hfits, req', hok, hleaves⟩
    · have haborts : Aborts limits path req.originInputIds.length := Or.inr (Or.inl hrefused)
      rw [herror, if_pos haborts]
      exact setFinishWithAbort_leaves req _
    · rw [hok]
      dsimp only
      rw [hleaves.length]
      split
      next hpast =>
        have haborts : Aborts limits path req.originInputIds.length := Or.inr (Or.inr (Or.inl hpast))
        rw [if_pos haborts]
        exact ⟨hleaves.blendStyle, hleaves.blendLocList, rfl⟩
      next hpast =>
        have hgrammar := awaitGrammar_leaves req' path.grammar
        have haborts : Aborts limits path req.originInputIds.length ↔ GrammarPath.aborts path.grammar = true := by
          unfold Aborts
          tauto
        refine ⟨hgrammar.blendStyle.trans hleaves.blendStyle, hgrammar.blendLocList.trans hleaves.blendLocList, ?_⟩
        rw [hgrammar.length, hleaves.length]
        exact (if_congr haborts rfl rfl).symm

/-- A request that is prefilled has its style and list, and as many tokens as the scheduler leaves. -/
theorem admitBlendReq_fields (h : admitBlendReq limits path blendStyle recvReq = some req) :
    req.blendStyle = some blendStyle ∧ req.blendLocList = recvReq.blendLocList ∧
      req.originInputIds.length = if Aborts limits path recvReq.inputIds.length then 1
        else min recvReq.inputIds.length limits.maxReqInputLen := by
  unfold admitBlendReq at h
  split at h
  next => cases h
  next =>
    obtain rfl := Option.some.inj h
    have hleaves := handleBlendReq_leaves limits path
      ⟨recvReq.inputIds, some blendStyle, recvReq.blendLocList, none⟩
    exact ⟨hleaves.blendStyle, hleaves.blendLocList, hleaves.length⟩

theorem admitBlendReq_none : admitBlendReq limits path blendStyle recvReq = none ↔ path.leavesQueue = true := by
  unfold admitBlendReq
  split
  next hleaves => exact iff_of_true rfl hleaves
  next hstays => exact iff_of_false (by simp) hstays

theorem WellLaid.of_length {ids ids' : List Nat} {locs : List Int} (h : WellLaid ids locs)
    (hlen : ids'.length = ids.length) : WellLaid ids' locs where
  starts := h.starts
  grows := h.grows
  ends := by
    rw [hlen]
    exact h.ends
  within := by
    rw [hlen]
    exact h.within

theorem WellLaid.length_eq {ids ids' : List Nat} {locs : List Int} (h : WellLaid ids locs) (h' : WellLaid ids' locs) :
    ids'.length = ids.length :=
  Int.natCast_inj.mp (Option.some.inj (h'.ends.symm.trans h.ends))

/-- What the prefill of a prompt asks of its chunk list. -/
def LaidAtPrefill (limits : AdmissionLimits) (path : AdmissionPath) (blendStyle : BlendStyle)
    (recvReq : BlendTokenized) : Prop :=
  ∀ req, admitBlendReq limits path blendStyle recvReq = some req →
    req.blendStyle = none ∨ ∃ locs, req.blendLocList = some locs ∧ WellLaid req.originInputIds locs

/-- A list of boundaries stays one exactly if the scheduler keeps the number of tokens. -/
theorem laid_iff {locs : List Int} (hlocs : recvReq.blendLocList = some locs) (hlaid : WellLaid recvReq.inputIds locs) :
    LaidAtPrefill limits path blendStyle recvReq ↔
      (path.leavesQueue = true ∨ KeepsLength limits path recvReq.inputIds.length) := by
  unfold LaidAtPrefill
  cases hout : admitBlendReq limits path blendStyle recvReq with
  | none => exact iff_of_true (fun req hreq => (by cases hreq)) (Or.inl (admitBlendReq_none.mp hout))
  | some req =>
    obtain ⟨hstyle, hlist, hlen⟩ := admitBlendReq_fields hout
    have hstays : path.leavesQueue ≠ true := by
      intro hleaves
      rw [admitBlendReq_none.mpr hleaves] at hout
      cases hout
    have hkeeps : KeepsLength limits path recvReq.inputIds.length ↔ req.originInputIds.length = recvReq.inputIds.length := by
      rw [hlen, KeepsLength]
      split <;> omega
    rw [or_iff_right hstays, hkeeps]
    refine ⟨fun h => ?_, fun hsame req' hreq' => ?_⟩
    · rcases h req rfl with hnone | ⟨locs', hlocs', hlaid'⟩
      · rw [hstyle] at hnone
        cases hnone
      · rw [hlist, hlocs] at hlocs'
        cases hlocs'
        exact hlaid.length_eq hlaid'
    · obtain rfl := Option.some.inj hreq'
      exact Or.inr ⟨locs, hlist.trans hlocs, hlaid.of_length hsame⟩

theorem unlaid_iff (hlocs : recvReq.blendLocList = none) :
    LaidAtPrefill limits path blendStyle recvReq ↔ path.leavesQueue = true := by
  unfold LaidAtPrefill
  cases hout : admitBlendReq limits path blendStyle recvReq with
  | none => exact iff_of_true (fun req hreq => (by cases hreq)) (admitBlendReq_none.mp hout)
  | some req =>
    obtain ⟨hstyle, hlist, -⟩ := admitBlendReq_fields hout
    refine iff_of_false (fun h => ?_) fun hleaves => ?_
    · rcases h req rfl with hnone | ⟨locs, hsome, -⟩
      · rw [hstyle] at hnone
        cases hnone
      · rw [hlist, hlocs] at hsome
        cases hsome
    · rw [admitBlendReq_none.mpr hleaves] at hout
      cases hout

end Admission

/-! ## From the call to the prefill -/

section Calls

variable {tm : TokenizerManager} {limits : AdmissionLimits} {call : BlendCall} {path : AdmissionPath}

theorem tokenizeTexts_ok {text : Option String} {ids : List Nat} (h : tm.tokenizeTexts text = .ok ids) :
    ∃ t tokenizer, text = some t ∧ tm.tokenizer = some tokenizer := by
  unfold TokenizerManager.tokenizeTexts at h
  split at h
  next t tokenizer htokenizer => exact ⟨t, tokenizer, rfl, htokenizer⟩
  next => cases h

theorem generateRequest_ok {recvReq : BlendTokenized} :
    tm.generateRequest call = .ok recvReq ↔ ∃ sepToken ids, tm.tokenizeTexts call.separator = .ok sepToken ∧
      tm.checkedIds call = .ok ids ∧ call.otherError = none ∧ recvReq = tm.createTokenizedObject call ids sepToken := by
  unfold TokenizerManager.generateRequest
  cases hsep : tm.tokenizeTexts call.separator with
  | error error =>
    refine iff_of_false (fun h => (by cases h)) ?_
    rintro ⟨sepToken, ids, hsep', -⟩
    cases hsep'
  | ok sepToken =>
    cases hids : tm.checkedIds call with
    | error error =>
      refine iff_of_false (fun h => (by cases h)) ?_
      rintro ⟨sepToken, ids, -, hids', -⟩
      cases hids'
    | ok ids =>
      cases hother : call.otherError with
      | some error =>
        refine iff_of_false (fun h => (by cases h)) ?_
        rintro ⟨sepToken, ids, -, -, hother', -⟩
        cases hother'
      | none =>
        refine ⟨fun h => ⟨sepToken, ids, rfl, rfl, rfl, ?_⟩, ?_⟩
        · exact (Except.ok.inj h).symm
        · rintro ⟨sepToken', ids', hsep', hids', -, rfl⟩
          cases hsep'
          cases hids'
          rfl

/-- The two ways to split. -/
theorem createTokenizedObject_cases {tokenizer : Tokenizer} {separator : String} (htokenizer : tm.tokenizer = some tokenizer)
    (hseparator : call.separator = some separator) (ids sepToken : List Nat) :
    tm.createTokenizedObject call ids sepToken =
      match textSegments call with
      | some _ => splitTextTokens (call.text.getD "") separator tokenizer
      | none => splitTokens call.text ids separator sepToken := by
  unfold TokenizerManager.createTokenizedObject textSegments
  rw [htokenizer, hseparator]
  cases call.text with
  | none => rfl
  | some text =>
    dsimp only
    split <;> rfl

theorem segments_of_text {parts : List String} {separator : String} (hseparator : call.separator = some separator)
    (h : textSegments call = some parts) : parts = (call.text.getD "").splitOn separator := by
  unfold textSegments at h
  rw [hseparator] at h
  cases htext : call.text with
  | none =>
    rw [htext] at h
    cases h
  | some text =>
    rw [htext] at h
    dsimp only at h
    split at h
    · exact (Option.some.inj h).symm
    · cases h

/-- The layouts of a prompt are kept exactly if splitting and admission keep its number of tokens. -/
theorem layouts_kept_iff (tm : TokenizerManager) (limits : AdmissionLimits) (call : BlendCall) (path : AdmissionPath) :
    LayoutsKept tm limits call path ↔ LayoutCondition tm limits call path := by
  have hsplit : ∀ tokenizer sepToken ids, tm.tokenizer = some tokenizer → tm.tokenizeTexts call.separator = .ok sepToken →
      (((tm.createTokenizedObject call ids sepToken).inputIds.length = ids.length ∧
        LaidAtPrefill limits path call.blendStyle (tm.createTokenizedObject call ids sepToken)) ↔
      match textSegments call with
      | some parts =>
        (parts.map fun part => (tokenizer.encodeSegment part).length).sum = ids.length ∧
          (path.leavesQueue = true ∨ KeepsLength limits path ids.length)
      | none =>
        (sepToken = [] ∨ findPatternMatches ids sepToken = []) ∧
          (path.leavesQueue = true ∨ sepToken ≠ [] ∧ sepToken.length ≤ ids.length ∧ KeepsLength limits path ids.length)) := by
    intro tokenizer sepToken ids htokenizer hsep
    obtain ⟨separator, -, hseparator, -⟩ := tokenizeTexts_ok hsep
    rw [createTokenizedObject_cases htokenizer hseparator]
    cases hparts : textSegments call with
    | some parts =>
      obtain rfl := segments_of_text hseparator hparts
      obtain ⟨hlen, locs, hlocs, hlaid⟩ := splitTextTokens_laid (call.text.getD "") separator tokenizer
      dsimp only
      rw [← hlen]
      refine and_congr_right fun hsame => ?_
      rw [laid_iff hlocs hlaid, hsame]
    | none =>
      dsimp only
      rw [splitTokens_length]
      refine and_congr_right fun hwhole => ?_
      obtain ⟨hids, hlocs⟩ := splitTokens_whole call.text separator hwhole
      by_cases hfits : sepToken ≠ [] ∧ sepToken.length ≤ ids.length
      · rw [if_pos hfits] at hlocs
        rw [laid_iff hlocs (by rw [hids]; exact wellLaid_whole ids), hids]
        exact or_congr Iff.rfl ⟨fun hkeeps => ⟨hfits.1, hfits.2, hkeeps⟩, fun hall => hall.2.2⟩
      · rw [if_neg hfits] at hlocs
        rw [unlaid_iff hlocs]
        exact (or_iff_left fun hall => hfits ⟨hall.1, hall.2.1⟩).symm
  constructor
  · intro hkept tokenizer sepToken ids htokenizer hsep hids hother
    obtain ⟨hcount, hlaid⟩ := hkept _ (generateRequest_ok.mpr ⟨sepToken, ids, hsep, hids, hother, rfl⟩)
    exact (hsplit tokenizer sepToken ids htokenizer hsep).mp ⟨hcount ids hids, hlaid⟩
  · intro hcondition recvReq hsent
    obtain ⟨sepToken, ids, hsep, hids, hother, rfl⟩ := generateRequest_ok.mp hsent
    obtain ⟨-, tokenizer, -, htokenizer⟩ := tokenizeTexts_ok hsep
    obtain ⟨hcount, hlaid⟩ := (hsplit tokenizer sepToken ids htokenizer hsep).mpr
      (hcondition tokenizer sepToken ids htokenizer hsep hids hother)
    refine ⟨fun ids' hids' => ?_, hlaid⟩
    rw [hids] at hids'
    cases hids'
    exact hcount

end Calls

/-- Token input, with the separator token 9. -/
def tokenCall (inputIds : List Nat) : BlendCall := ⟨.doBlend, none, some inputIds, some "#", none, none⟩

def tokenManager : TokenizerManager := ⟨some ⟨fun _ => [9], fun _ => [1]⟩, 100, 0, true⟩

def quietPath : AdmissionPath := ⟨none, false, -1, false, .none, false⟩

/-- A list whose end is not the number of tokens at the prefill. -/
theorem not_laid {limits : AdmissionLimits} {path : AdmissionPath} {call : BlendCall} {recvReq : BlendTokenized}
    {req : QueuedReq} {locs : List Int} (hsent : tokenManager.generateRequest call = .ok recvReq)
    (hadmitted : admitBlendReq limits path call.blendStyle recvReq = some req) (hlocs : recvReq.blendLocList = some locs)
    (hend : locs.getLast? ≠ some (req.originInputIds.length : Int)) : ¬LayoutsKept tokenManager limits call path := by
  intro hkept
  obtain ⟨hstyle, hlist, -⟩ := admitBlendReq_fields hadmitted
  rcases (hkept _ hsent).2 req hadmitted with hnone | ⟨locs', hlocs', hlaid⟩
  · rw [hstyle] at hnone
    cases hnone
  · rw [hlist, hlocs] at hlocs'
    cases hlocs'
    exact hend hlaid.ends

/-- Without the separator fewer tokens are sent than were checked; a truncated prompt and one that is
aborted in the grammar queue keep the list of the longer one. -/
theorem layouts_not_kept :
    ¬LayoutsKept tokenManager ⟨10, true⟩ (tokenCall [1, 9, 2]) quietPath ∧
    ¬LayoutsKept tokenManager ⟨2, true⟩ (tokenCall [1, 2, 3]) quietPath ∧
    ¬LayoutsKept tokenManager ⟨10, true⟩ (tokenCall [1, 2, 3])
      { quietPath with grammar := .waits (some "Aborted by AbortReq.") } := by
  refine ⟨fun hkept => ?_, ?_, ?_⟩
  · have hsent : tokenManager.generateRequest (tokenCall [1, 9, 2]) = .ok ⟨none, [1, 2], some [0, 1, 2]⟩ := by
      decide +kernel
    have hcount := (hkept _ hsent).1 [1, 9, 2] (by decide +kernel)
    cases hcount
  · have hsent : tokenManager.generateRequest (tokenCall [1, 2, 3]) = .ok ⟨none, [1, 2, 3], some [0, 3]⟩ := by
      decide +kernel
    exact not_laid hsent rfl rfl (by decide)
  · have hsent : tokenManager.generateRequest (tokenCall [1, 2, 3]) = .ok ⟨none, [1, 2, 3], some [0, 3]⟩ := by
      decide +kernel
    exact not_laid hsent rfl rfl (by decide)

end QCFuse.Guarantees
