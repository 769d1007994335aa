import QCFuse.Library.Transition
import QCFuse.Source.StopMatching

/-!
# Stop strings are found near the end of the output

Only the text of the last tokens is searched. A match is found at the step that completes it where it begins
within them, on a character; with tokens of whole characters the length bounds make sure of that.
-/

set_option autoImplicit false

namespace QCFuse.Guarantees

open QCFuse.Library QCFuse.Source

/-! ## What is claimed of a step -/

section Claim

variable (search : SubPattern → Text → Bool) (octets : Int → List UInt8)

/-- The text has a stop string of the request, or a piece that one of its stop regexes matches. -/
def Shows (req : StopReq SubPattern) (text : Text) : Prop :=
  (∃ stopStr ∈ req.samplingParams.stopStrs, stopStr <:+: text) ∨
    ∃ regex ∈ req.samplingParams.stopRegexStrs, search regex text = true

/-- The text of tokens. -/
def textOf (ids : List Int) : Text := Utf8.decode (ids.flatMap octets)

/-- The step ends, and with a match in the output the request has finished. -/
def NotMissed (req : StopReq SubPattern) (batch : List Int) : Prop :=
  ∃ req', req.accept search batch = .ok req' ∧
    (Shows search req' (textOf octets req'.outputIds) → req'.finished = true)

/-- The number of tokens whose text is searched. -/
def searchedTokens (params : StopParams SubPattern) : Nat :=
  max (params.stopStrMaxLen + 1) (params.stopRegexMaxLen + 1) + 1

/-- The tokens before those whose text is searched, and those. -/
def passedOver (req : StopReq SubPattern) (output : List Int) : List Int :=
  output.take (output.length - searchedTokens req.samplingParams)

def searched (req : StopReq SubPattern) (output : List Int) : List Int :=
  output.drop (output.length - searchedTokens req.samplingParams)

/-- The octets of the output, cut behind those passed over where a character begins, have the stop string in
their second part. -/
def BeginsNear (req : StopReq SubPattern) (output : List Int) (stopStr : Text) : Prop :=
  ∃ x y, output.flatMap octets = x ++ y ∧ ((passedOver req output).flatMap octets).length ≤ x.length ∧
    (x = [] ∨ Utf8.StartsCharacter y) ∧ stopStr <:+: Utf8.decode y

/-- A stop string begins near the end of the output, or a regex matches in the text searched. -/
def NearEnd (req : StopReq SubPattern) (output : List Int) : Prop :=
  (∃ stopStr ∈ req.samplingParams.stopStrs, BeginsNear octets req output stopStr) ∨
    ∃ regex ∈ req.samplingParams.stopRegexStrs, search regex (textOf octets (searched req output)) = true

/-- Where a step brings the first match into the output of a running request, it is near the end. -/
def FirstMatchNear (req : StopReq SubPattern) (batch : List Int) : Prop :=
  req.finished = false → Shows search req (textOf octets (req.outputIds ++ batch)) →
    req.outputIds ≠ [] ∧ Shows search req (textOf octets req.outputIds) ∨
      NearEnd search octets req (req.outputIds ++ batch)

/-- The steps of a request, each with at least one token. -/
def acceptMachine : Machine (StopReq SubPattern) (List Int) where
  step batch req := if batch = [] then none else (req.accept search batch).toOption

end Claim

/-! ## One step -/

section Step

variable {search : SubPattern → Text → Bool} {octets : Int → List UInt8} {req : StopReq SubPattern}
  {tokenizer : ReqTokenizer}

theorem passedOver_searched (output : List Int) :
    passedOver req output ++ searched req output = output := List.take_append_drop _ _

theorem tailStr_eq (htokenizer : req.tokenizer = some tokenizer) (hdecode : tokenizer.DecodesOctets octets) :
    req.tailStr = .ok (textOf octets (searched req req.outputIds)) := by
  have htail : lastTokens req.outputIds (min (searchedTokens req.samplingParams) req.outputIds.length) =
      searched req req.outputIds := by
    unfold lastTokens searched
    split
    next hzero =>
      have hempty : req.outputIds.length = 0 := by
        unfold searchedTokens at hzero
        omega
      rw [List.eq_nil_of_length_eq_zero hempty, List.drop_nil]
    next =>
      congr 1
      omega
  unfold StopReq.tailStr
  rw [htokenizer]
  change Except.ok (tokenizer.decode (lastTokens req.outputIds (min (searchedTokens req.samplingParams) _))) = _
  rw [htail, hdecode]
  rfl

theorem checkStr_eq (search : SubPattern → Text → Bool) (req : StopReq SubPattern)
    (htokenizer : req.tokenizer = some tokenizer) (hdecode : tokenizer.DecodesOctets octets) :
    ∃ ended, req.checkStrBasedFinish search = .ok ended ∧ (∀ req' ∈ ended, req'.finished = true) ∧
      (ended = none → ¬ Shows search req (textOf octets (searched req req.outputIds))) := by
  unfold StopReq.checkStrBasedFinish
  split
  next hempty =>
    refine ⟨none, rfl, fun _ hmem => absurd hmem (Option.not_mem_none _), fun _ hshows => ?_⟩
    rcases hshows with ⟨stopStr, hmem, -⟩ | ⟨regex, hmem, -⟩
    · rw [hempty.1] at hmem
      exact List.not_mem_nil hmem
    · rw [List.isEmpty_iff.mp hempty.2] at hmem
      exact List.not_mem_nil hmem
  next =>
    rw [tailStr_eq htokenizer hdecode]
    simp only [bind, Except.bind]
    cases hfound : req.samplingParams.stopStrs.find? fun stopStr =>
        decide (stopStr <:+: textOf octets (searched req req.outputIds) ∨ stopStr <:+: req.decodedText) with
    | some stopStr =>
      refine ⟨_, rfl, fun req' hmem => ?_, fun hended => absurd hended (Option.some_ne_none _)⟩
      rw [← Option.mem_some_iff.mp hmem]
      rfl
    | none =>
      refine ⟨_, rfl, fun req' hmem => ?_, fun hended hshows => ?_⟩
      · obtain ⟨regex, -, rfl⟩ := Option.map_eq_some_iff.mp hmem
        rfl
      · rcases hshows with ⟨stopStr, hmem, hin⟩ | ⟨regex, hmem, hin⟩
        · exact List.find?_eq_none.mp hfound stopStr hmem (decide_eq_true (Or.inl hin))
        · exact List.find?_eq_none.mp (Option.map_eq_none_iff.mp hended) regex hmem hin

theorem checkToken_finished {new : List Int} {req' : StopReq SubPattern}
    (h : req.checkTokenBasedFinish new = some req') : req'.finished = true := by
  unfold StopReq.checkTokenBasedFinish at h
  split at h
  next => cases h
  next =>
    obtain ⟨i, -, rfl⟩ := Option.map_eq_some_iff.mp h
    rfl

theorem checkVocab_finished {new : List Int} {req' : StopReq SubPattern}
    (h : req.checkVocabBoundaryFinish new = some req') : req'.finished = true := by
  obtain ⟨i, -, rfl⟩ := Option.map_eq_some_iff.mp h
  rfl

theorem pyIndex_last {α : Type} {xs : List α} (h : xs ≠ []) : pyIndex xs (-1) = .ok (xs.getLast h) := by
  have hpos := List.length_pos_iff.mpr h
  have hindex : ¬ ((-1 : Int) + xs.length < 0) := by omega
  have hlast : ((-1 : Int) + xs.length).toNat = xs.length - 1 := by omega
  have hshift : (if (-1 : Int) < 0 then (-1 : Int) + xs.length else -1) = -1 + xs.length := if_pos (by decide)
  simp only [pyIndex, hshift, if_neg hindex, hlast, List.getLast_eq_getElem,
    List.getElem?_eq_getElem (Nat.sub_lt hpos Nat.one_pos)]

/-- A step ends the request, or leaves it running with the tokens and no match in the text searched. -/
theorem accept_running (search : SubPattern → Text → Bool) (hrunning : req.finished = false)
    {batch : List Int} (hne : batch ≠ []) (htokenizer : req.tokenizer = some tokenizer)
    (hdecode : tokenizer.DecodesOctets octets) :
    ∃ req', req.accept search batch = .ok req' ∧ (req'.finished = true ∨
      req' = { req with outputIds := req.outputIds ++ batch } ∧
        ¬ Shows search req (textOf octets (searched req (req.outputIds ++ batch)))) := by
  obtain ⟨ended, hcheck, hends, hmiss⟩ :=
    checkStr_eq search { req with outputIds := req.outputIds ++ batch } htokenizer hdecode
  have hopen : ¬ StopReq.finished { req with outputIds := req.outputIds ++ batch } = true :=
    Bool.eq_false_iff.mp hrunning
  rw [StopReq.accept, if_neg (Bool.eq_false_iff.mp hrunning), StopReq.checkFinished, if_neg hopen]
  split
  next => exact ⟨_, rfl, .inl rfl⟩
  next =>
    split
    next => exact ⟨_, rfl, .inl rfl⟩
    next =>
      split
      next =>
        have houtput : req.outputIds ++ batch ≠ [] := List.append_ne_nil_of_right_ne_nil _ hne
        simp only [pyIndex_last houtput, bind, Except.bind]
        exact ⟨_, rfl, .inl rfl⟩
      next =>
        dsimp only
        split
        next req' htoken => exact ⟨req', rfl, .inl (checkToken_finished htoken)⟩
        next =>
          split
          next req' hvocab => exact ⟨req', rfl, .inl (checkVocab_finished hvocab)⟩
          next =>
            simp only [hcheck, bind, Except.bind]
            cases ended with
            | some req' => exact ⟨req', rfl, .inl (hends req' rfl)⟩
            | none => exact ⟨_, rfl, .inr ⟨rfl, hmiss rfl⟩⟩

/-- A match near the end is in the text searched. -/
theorem shows_searched {output : List Int} (h : NearEnd search octets req output) :
    Shows search req (textOf octets (searched req output)) := by
  refine h.imp_left fun ⟨stopStr, hmem, x, y, hoctets, hle, hbegin, hin⟩ => ⟨stopStr, hmem, ?_⟩
  have hsplit : (passedOver req output).flatMap octets ++ (searched req output).flatMap octets = x ++ y := by
    rw [← List.flatMap_append, passedOver_searched, hoctets]
  obtain ⟨z, rfl⟩ := List.prefix_of_prefix_length_le ⟨_, hsplit⟩ (List.prefix_append x y) hle
  rw [List.append_assoc, List.append_cancel_left_eq] at hsplit
  rw [textOf, hsplit]
  rcases hbegin with hempty | hbegin
  · rw [(List.append_eq_nil_iff.mp hempty).2]
    exact hin
  · rw [Utf8.decode_append z hbegin]
    exact hin.trans (List.suffix_append _ _).isInfix

end Step

/-! ## Where the length bounds are enough -/

mutual

/-- A pattern of characters, groups, branches and limited repetitions. -/
def plainItem : SreItem → Bool
  | .literal _ | .inSet _ | .any => true
  | .subpattern inner => plainPattern inner
  | .branch branches => plainBranches branches
  | .maxRepeat _ most inner | .minRepeat _ most inner => most.isSome && plainPattern inner
  | .at _ | .other _ => false

def plainPattern : SubPattern → Bool
  | .nil => true
  | .cons item rest => plainItem item && plainPattern rest

def plainBranches : SreBranches → Bool
  | .one branch => plainPattern branch
  | .more branch rest => plainPattern branch && plainBranches rest

end

/-- What a pattern says of a piece of text alone: its length, and the match wherever the piece stands. -/
def MatchesAlone (matched : Text → Text → Text → Prop) (bound : Nat) : Prop :=
  ∀ before u behind, matched before u behind →
    u.length ≤ bound ∧ ∀ before' behind', matched before' u behind'

theorem matchesEach_alone {matched : Text → Text → Text → Prop} {bound : Nat} (h : MatchesAlone matched bound)
    (parts : List Text) : ∀ {before behind : Text}, MatchesEach matched before parts behind →
      parts.flatten.length ≤ parts.length * bound ∧
        ∀ before' behind', MatchesEach matched before' parts behind' := by
  induction parts with
  | nil => exact fun _ => ⟨Nat.zero_le _, fun _ _ => trivial⟩
  | cons part parts ih =>
    intro before behind hparts
    obtain ⟨hpart, hmove⟩ := h _ _ _ hparts.1
    obtain ⟨hrest, hmoves⟩ := ih hparts.2
    refine ⟨?_, fun before' behind' => ⟨hmove _ _, hmoves _ _⟩⟩
    rw [List.flatten_cons, List.length_append, List.length_cons, Nat.succ_mul, Nat.add_comm]
    exact Nat.add_le_add hrest hpart

theorem matchesAlone_repeat {matched : Text → Text → Text → Prop} {bound least maxNumRepeat : Nat}
    (h : MatchesAlone matched bound) :
    MatchesAlone (fun before u behind => ∃ parts : List Text, u = parts.flatten ∧ least ≤ parts.length ∧
      (∀ m ∈ some maxNumRepeat, parts.length ≤ m) ∧ MatchesEach matched before parts behind)
      (maxNumRepeat * bound) := by
  rintro before u behind ⟨parts, rfl, hleast, hmost, hparts⟩
  obtain ⟨hlen, hmove⟩ := matchesEach_alone h parts hparts
  exact ⟨hlen.trans (Nat.mul_le_mul_right _ (hmost _ rfl)),
    fun before' behind' => ⟨parts, rfl, hleast, hmost, hmove _ _⟩⟩

mutual

theorem matchesAlone_item : (item : SreItem) → plainItem item = true →
    MatchesAlone item.Matches (maxLengthFromItem item)
  | .literal c, _ => by
    rintro before u behind rfl
    exact ⟨le_rfl, fun _ _ => rfl⟩
  | .inSet members, _ => by
    rintro before u behind ⟨c, hc, rfl⟩
    exact ⟨le_rfl, fun _ _ => ⟨c, hc, rfl⟩⟩
  | .any, _ => by
    rintro before u behind ⟨c, hc, rfl⟩
    exact ⟨le_rfl, fun _ _ => ⟨c, hc, rfl⟩⟩
  | .subpattern inner, h => matchesAlone_pattern inner h
  | .branch branches, h => matchesAlone_branches branches h
  | .maxRepeat least (some most) inner, h => matchesAlone_repeat (matchesAlone_pattern inner h)
  | .minRepeat least (some most) inner, h => matchesAlone_repeat (matchesAlone_pattern inner h)

theorem matchesAlone_pattern : (pattern : SubPattern) → plainPattern pattern = true →
    MatchesAlone pattern.Matches (maxLengthFromSubpattern pattern)
  | .nil, _ => by
    rintro before u behind rfl
    exact ⟨le_rfl, fun _ _ => rfl⟩
  | .cons item rest, h => by
    obtain ⟨hitem, hrest⟩ := Bool.and_eq_true_iff.mp h
    rintro before u behind ⟨v, w, rfl, hv, hw⟩
    obtain ⟨hvlen, hvmove⟩ := matchesAlone_item item hitem _ _ _ hv
    obtain ⟨hwlen, hwmove⟩ := matchesAlone_pattern rest hrest _ _ _ hw
    refine ⟨?_, fun before' behind' => ⟨v, w, rfl, hvmove _ _, hwmove _ _⟩⟩
    rw [List.length_append]
    exact Nat.add_le_add hvlen hwlen

theorem matchesAlone_branches : (branches : SreBranches) → plainBranches branches = true →
    MatchesAlone branches.Matches (maxLengthFromBranches branches)
  | .one branch, h => matchesAlone_pattern branch h
  | .more branch rest, h => by
    obtain ⟨hbranch, hrest⟩ := Bool.and_eq_true_iff.mp h
    rintro before u behind (hmatch | hmatch)
    · obtain ⟨hlen, hmove⟩ := matchesAlone_pattern branch hbranch _ _ _ hmatch
      exact ⟨hlen.trans (le_max_left _ _), fun before' behind' => .inl (hmove _ _)⟩
    · obtain ⟨hlen, hmove⟩ := matchesAlone_branches rest hrest _ _ _ hmatch
      exact ⟨hlen.trans (le_max_right _ _), fun before' behind' => .inr (hmove _ _)⟩

end

section Bounds

variable {search : SubPattern → Text → Bool} {octets : Int → List UInt8} {req : StopReq SubPattern}

/-- Every token is a text of its own. -/
def WholeCharacters (octets : Int → List UInt8) : Prop :=
  ∀ token, octets token ≠ [] ∧ Utf8.StartsCharacter (octets token)

theorem WholeCharacters.starts (h : WholeCharacters octets) (ids : List Int) :
    Utf8.StartsCharacter (ids.flatMap octets) := by
  cases ids with
  | nil => exact fun _ hmem => absurd hmem (Option.not_mem_none _)
  | cons token ids =>
    rw [List.flatMap_cons]
    exact (h token).2.append (h token).1

theorem WholeCharacters.textOf_append (h : WholeCharacters octets) (ids more : List Int) :
    textOf octets (ids ++ more) = textOf octets ids ++ textOf octets more := by
  rw [textOf, List.flatMap_append, Utf8.decode_append _ (h.starts more)]
  rfl

theorem WholeCharacters.length_le (h : WholeCharacters octets) (ids : List Int) :
    ids.length ≤ (textOf octets ids).length := by
  induction ids with
  | nil => exact Nat.zero_le _
  | cons token ids ih =>
    rw [← List.singleton_append, h.textOf_append, List.length_append, List.length_append]
    refine Nat.add_le_add (List.length_pos_iff.mpr ?_) ih
    rw [textOf, List.flatMap_singleton]
    exact Utf8.decode_ne_nil (h token).1

/-- A piece that reaches past `xs ++ ys`, and is hardly longer than `ys`, is behind `xs`. -/
theorem infix_of_not_infix {xs ys zs u : Text} (h : u <:+: xs ++ (ys ++ zs)) (hnot : ¬ u <:+: xs ++ ys)
    (hlen : u.length ≤ ys.length + 1) : u <:+: ys ++ zs := by
  obtain ⟨before, behind, heq⟩ := h
  rcases Nat.lt_or_ge before.length xs.length with hlt | hge
  · have hleft : xs ++ ys <+: xs ++ (ys ++ zs) := by
      rw [← List.append_assoc]
      exact List.prefix_append _ _
    have hcut : before ++ u <+: xs ++ ys := by
      refine List.prefix_of_prefix_length_le ⟨behind, heq⟩ hleft ?_
      rw [List.length_append, List.length_append]
      omega
    exact absurd ((List.suffix_append before u).isInfix.trans hcut.isInfix) hnot
  · rw [List.append_assoc] at heq
    obtain ⟨rest, rfl⟩ := List.prefix_of_prefix_length_le (List.prefix_append xs (ys ++ zs)) ⟨_, heq⟩ hge
    rw [List.append_assoc, List.append_cancel_left_eq] at heq
    exact ⟨rest, behind, by rw [List.append_assoc, heq]⟩

/-- A short piece that the last tokens bring in is in the text searched. -/
theorem infix_searched (hwhole : WholeCharacters octets) {batch : List Int} (hbatch : batch.length ≤ 3) {u : Text}
    (hlen : u.length ≤ max req.samplingParams.stopStrMaxLen req.samplingParams.stopRegexMaxLen)
    (hin : u <:+: textOf octets (req.outputIds ++ batch))
    (hnew : req.outputIds = [] ∨ ¬ u <:+: textOf octets req.outputIds) :
    u <:+: textOf octets (searched req (req.outputIds ++ batch)) := by
  rcases eq_or_ne u [] with rfl | hpiece
  · exact List.nil_infix
  · have hpos : 1 ≤ max req.samplingParams.stopStrMaxLen req.samplingParams.stopRegexMaxLen :=
      (List.length_pos_iff.mpr hpiece).trans_le hlen
    have hsearched : searchedTokens req.samplingParams =
        max req.samplingParams.stopStrMaxLen req.samplingParams.stopRegexMaxLen + 2 := by
      unfold searchedTokens
      omega
    generalize max req.samplingParams.stopStrMaxLen req.samplingParams.stopRegexMaxLen = bound at *
    -- the tokens before the new ones, cut where a piece that ends among the new ones can begin
    obtain ⟨old, last, hold, hcut⟩ : ∃ old last, req.outputIds = old ++ last ∧
        (old = [] ∧ last.length ≤ bound - 1 ∨ old ≠ [] ∧ last.length = bound - 1) := by
      refine ⟨_, _, (List.take_append_drop (req.outputIds.length - (bound - 1)) req.outputIds).symm, ?_⟩
      rcases le_or_gt req.outputIds.length (bound - 1) with hle | hlt
      · rw [Nat.sub_eq_zero_of_le hle]
        exact .inl ⟨rfl, hle⟩
      · refine .inr ⟨fun hnil => ?_, ?_⟩
        · have hzero := congrArg List.length hnil
          rw [List.length_take, List.length_nil] at hzero
          omega
        · rw [List.length_drop]
          omega
    rw [hold, List.append_assoc] at hin ⊢
    rw [hwhole.textOf_append, hwhole.textOf_append last] at hin
    have hbehind : u <:+: textOf octets last ++ textOf octets batch := by
      rcases hcut with ⟨rfl, -⟩ | ⟨hne, hlast⟩
      · exact hin
      · refine infix_of_not_infix hin ?_ ?_
        · rw [← hwhole.textOf_append, ← hold]
          refine hnew.resolve_left fun hnil => hne ?_
          exact (List.append_eq_nil_iff.mp (hold.symm.trans hnil)).1
        · have hchars := hwhole.length_le last
          omega
    have hfew : (last ++ batch).length ≤ searchedTokens req.samplingParams := by
      rw [List.length_append, hsearched]
      omega
    have hdrop : searched req (old ++ (last ++ batch)) =
        old.drop ((old ++ (last ++ batch)).length - searchedTokens req.samplingParams) ++ (last ++ batch) := by
      refine List.drop_append_of_le_length ?_
      rw [List.length_append]
      omega
    rw [hdrop, hwhole.textOf_append, hwhole.textOf_append last]
    exact hbehind.trans (List.suffix_append _ _).isInfix

/-- A regex of plain patterns matches a text where it matches a piece of it. -/
theorem search_plain (hsearch : SearchesPatterns search) {regex : SubPattern} (hplain : plainPattern regex = true)
    (text : Text) : search regex text = true ↔
      ∃ u, u.length ≤ maxLengthFromSubpattern regex ∧ regex.Matches [] u [] ∧ u <:+: text := by
  rw [hsearch]
  have halone := matchesAlone_pattern regex hplain
  constructor
  · rintro ⟨before, u, behind, rfl, hmatch⟩
    obtain ⟨hlen, hmove⟩ := halone _ _ _ hmatch
    exact ⟨u, hlen, hmove _ _, before, behind, rfl⟩
  · rintro ⟨u, -, hmatch, before, behind, rfl⟩
    exact ⟨before, u, behind, rfl, (halone _ _ _ hmatch).2 _ _⟩

/-- With tokens of whole characters, at most three to a step, stop strings no longer than the bounds and plain
regexes, every first match is near the end. -/
theorem firstMatchNear_of_wholeCharacters (hsearch : SearchesPatterns search) (hwhole : WholeCharacters octets)
    (hstrs : ∀ stopStr ∈ req.samplingParams.stopStrs,
      stopStr.length ≤ max req.samplingParams.stopStrMaxLen req.samplingParams.stopRegexMaxLen)
    (hregexes : ∀ regex ∈ req.samplingParams.stopRegexStrs, plainPattern regex = true ∧
      maxLengthFromSubpattern regex ≤ req.samplingParams.stopRegexMaxLen)
    {batch : List Int} (hbatch : batch.length ≤ 3) : FirstMatchNear search octets req batch := by
  intro _ hshows
  refine or_iff_not_imp_left.mpr fun hnew => ?_
  have hnot : ∀ u : Text,
      (u <:+: textOf octets req.outputIds → Shows search req (textOf octets req.outputIds)) →
      req.outputIds = [] ∨ ¬ u <:+: textOf octets req.outputIds := by
    intro u hu
    by_cases hnil : req.outputIds = []
    · exact .inl hnil
    · exact .inr fun hin => hnew ⟨hnil, hu hin⟩
  rcases hshows with ⟨stopStr, hmem, hin⟩ | ⟨regex, hmem, hin⟩
  · have hnear := infix_searched hwhole hbatch (hstrs stopStr hmem) hin
      (hnot stopStr fun hold => .inl ⟨stopStr, hmem, hold⟩)
    refine .inl ⟨stopStr, hmem, _, _, ?_, le_rfl, .inr (hwhole.starts _), hnear⟩
    rw [← List.flatMap_append, passedOver_searched]
  · obtain ⟨hplain, hbound⟩ := hregexes regex hmem
    obtain ⟨u, hlen, hmatch, hu⟩ := (search_plain hsearch hplain _).mp hin
    have hshow : ∀ text : Text, u <:+: text → search regex text = true := fun text hpiece =>
      (search_plain hsearch hplain text).mpr ⟨u, hlen, hmatch, hpiece⟩
    have hnear := infix_searched hwhole hbatch ((hlen.trans hbound).trans (le_max_right _ _)) hu
      (hnot u fun hold => .inr ⟨regex, hmem, hshow _ hold⟩)
    exact .inr ⟨regex, hmem, hshow _ hnear⟩

end Bounds

/-! ## Runs -/

section Runs

variable {search : SubPattern → Text → Bool} {octets : Int → List UInt8} {tokenizer : ReqTokenizer}

/-- A request on its way: once it has output and is running, the output has no match. -/
structure NoMatchYet (search : SubPattern → Text → Bool) (octets : Int → List UInt8) (tokenizer : ReqTokenizer)
    (req : StopReq SubPattern) : Prop where
  tokenizer : req.tokenizer = some tokenizer ∨ req.finished = true
  none : req.finished = false → req.outputIds ≠ [] → ¬ Shows search req (textOf octets req.outputIds)

theorem noMatchYet_step (hdecode : tokenizer.DecodesOctets octets) {req : StopReq SubPattern} {batch : List Int}
    (h : NoMatchYet search octets tokenizer req) (hne : batch ≠ [])
    (hnear : FirstMatchNear search octets req batch) :
    ∃ req', req.accept search batch = .ok req' ∧ NoMatchYet search octets tokenizer req' ∧
      (Shows search req' (textOf octets req'.outputIds) → req'.finished = true) := by
  cases hfinished : req.finished with
  | true =>
    refine ⟨req, ?_, h, fun _ => hfinished⟩
    rw [StopReq.accept, if_pos hfinished]
  | false =>
    have htokenizer : req.tokenizer = some tokenizer :=
      h.tokenizer.resolve_right fun htrue => Bool.noConfusion (hfinished.symm.trans htrue)
    obtain ⟨req', haccept, hends | ⟨rfl, hmiss⟩⟩ := accept_running search hfinished hne htokenizer hdecode
    · refine ⟨req', haccept, ⟨.inr hends, fun hrun => ?_⟩, fun _ => hends⟩
      exact Bool.noConfusion (hrun.symm.trans hends)
    · have hno : ¬ Shows search req (textOf octets (req.outputIds ++ batch)) := by
        intro hshows
        rcases hnear hfinished hshows with ⟨hold, hshown⟩ | hend
        · exact h.none hfinished hold hshown
        · exact hmiss (shows_searched hend)
      exact ⟨_, haccept, ⟨.inl htokenizer, fun _ _ => hno⟩, fun hshows => absurd hshows hno⟩

/-- In a run whose first matches are near the end no step misses one. -/
theorem stop_strings_not_missed (search : SubPattern → Text → Bool) (octets : Int → List UInt8)
    (tokenizer : ReqTokenizer) (hdecode : tokenizer.DecodesOctets octets) (start : StopReq SubPattern)
    (htokenizer : start.tokenizer = some tokenizer) (houtput : start.outputIds = []) (req : StopReq SubPattern)
    (h : (acceptMachine search).Reach (FirstMatchNear search octets) (· = start) req) (batch : List Int)
    (hne : batch ≠ []) (hnear : FirstMatchNear search octets req batch) : NotMissed search octets req batch := by
  have hinv : NoMatchYet search octets tokenizer req := by
    refine h.invariant ?_ ?_
    · rintro _ rfl
      exact ⟨.inl htokenizer, fun _ hout => absurd houtput hout⟩
    · intro s s' b hs hguard hstep
      obtain ⟨hb, haccept⟩ := Option.ite_none_left_eq_some.mp hstep
      obtain ⟨s'', hs'', hnext, -⟩ := noMatchYet_step hdecode hs hb hguard
      rw [hs''] at haccept
      exact Option.some.inj haccept ▸ hnext
  obtain ⟨req', haccept, -, hshows⟩ := noMatchYet_step hdecode hinv hne hnear
  exact ⟨req', haccept, hshows⟩

end Runs

/-- Tokens of one letter each, and one for the whole of `stop`. -/
def letterOctets (token : Int) : List UInt8 :=
  if token = 4 then [115, 116, 111, 112] else [[115], [116], [111], [112]].getD token.toNat [46]

def letterTokenizer : ReqTokenizer where
  encode := fun text => if text = "stop".toList then [4] else []
  decode := textOf letterOctets
  eosTokenId := none
  additionalStopTokenIds := []

/-- A request that stops at `stop`. -/
def stopReq : StopReq SubPattern where
  samplingParams := RawStopParams.normalize ⟨100, [], false, .one "stop".toList, .none⟩ (some letterTokenizer)
  outputIds := []
  decodedText := []
  vocabSize := 100
  eosTokenIds := []
  tokenizer := some letterTokenizer
  grammar := none
  toAbort := false
  toAbortMessage := none
  finishedReason := none
  finishedLen := none

theorem letterTokenizer_decodes : letterTokenizer.DecodesOctets letterOctets := fun _ => rfl

/-- No regex of `stopReq` is ever searched. -/
def noSearch : SubPattern → Text → Bool := fun _ _ => false

theorem stop_strings_not_missed_stop :
    NotMissed noSearch letterOctets { stopReq with outputIds := [7] } [4] ∧
      Shows noSearch stopReq (textOf letterOctets [7, 4]) := by
  have hdot : FirstMatchNear noSearch letterOctets stopReq [7] := by
    rintro - (⟨stopStr, hmem, hin⟩ | ⟨regex, hmem, -⟩)
    · obtain rfl := List.mem_singleton.mp hmem
      exact absurd hin (by decide)
    · cases hmem
  have hstop : FirstMatchNear noSearch letterOctets { stopReq with outputIds := [7] } [4] := by
    intro _ _
    refine .inr (.inl ⟨"stop".toList, List.mem_singleton_self _, [46], [115, 116, 111, 112], rfl, ?_⟩)
    refine ⟨by decide, .inr fun b hb => .inl ?_, by decide⟩
    rw [← Option.mem_some_iff.mp hb]
    decide
  have hrun : (acceptMachine noSearch).step [7] stopReq = some { stopReq with outputIds := [7] } := rfl
  refine ⟨?_, .inl ⟨"stop".toList, List.mem_singleton_self _, by decide⟩⟩
  exact stop_strings_not_missed noSearch letterOctets letterTokenizer letterTokenizer_decodes stopReq rfl rfl _
    (.step (.start rfl) hdot hrun) [4] (List.cons_ne_nil _ _) hstop

/-- The encoding of `stop` is one token, and its letters come one by one. -/
theorem letters_pass_stop : letterTokenizer.DecodesOctets letterOctets ∧
    letterTokenizer.decode (letterTokenizer.encode "stop".toList) = "stop".toList ∧
    ¬ ∀ req, (acceptMachine noSearch).Reach (fun _ _ => True) (· = stopReq) req →
      ∀ batch, batch ≠ [] → NotMissed noSearch letterOctets req batch := by
  refine ⟨letterTokenizer_decodes, by decide, fun h => ?_⟩
  have hrun : (acceptMachine noSearch).run [[0], [1], [2]] stopReq =
      some { stopReq with outputIds := [0, 1, 2] } := rfl
  obtain ⟨req', haccept, hends⟩ :=
    h _ (.of_run (fun _ _ _ => trivial) (.start rfl) hrun) [3] (List.cons_ne_nil _ _)
  have hstep : StopReq.accept noSearch { stopReq with outputIds := [0, 1, 2] } [3] =
      .ok { stopReq with outputIds := [0, 1, 2, 3] } := rfl
  obtain rfl := Except.ok.inj (hstep.symm.trans haccept)
  have hshows : Shows noSearch { stopReq with outputIds := [0, 1, 2, 3] }
      (textOf letterOctets [0, 1, 2, 3]) := .inl ⟨"stop".toList, List.mem_singleton_self _, by decide⟩
  exact Bool.false_ne_true (hends hshows)

end QCFuse.Guarantees
