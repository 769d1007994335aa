import QCFuse.Source.FinishCheck

/-!
# Where the output ends

A request without stop strings, stop regexes and grammar ends at its first stopping position when the
checks, made in their order over a whole batch, do not pass over an earlier position.
-/

set_option autoImplicit false

namespace QCFuse.Guarantees

open QCFuse.Source

/-! ## Stopping positions -/

section Positions

variable {R : Type} (req : StopReq R)

/-- A stop or EOS token, where these count. -/
def StopsAt (token : Int) : Prop := req.samplingParams.ignoreEos = false ∧ req.isStopToken token = true

def OutOfVocabulary (token : Int) : Prop := token < 0 ∨ (req.vocabSize : Int) ≤ token

def StoppingPosition (output : List Int) (p : Nat) : Prop :=
  ∃ h : p < output.length,
    StopsAt req output[p] ∨ OutOfVocabulary req output[p] ∨ p + 1 = req.samplingParams.maxNewTokens

def FirstStopping (output : List Int) (p : Nat) : Prop :=
  StoppingPosition req output p ∧ ∀ q < p, ¬ StoppingPosition req output q

/-- The request ended at the first stopping position of the tokens accepted, if there is one. Over a token
that is out of the vocabulary a stop token may have been written. -/
structure EndsAtFirst (s : StopReq R) (output : List Int) : Prop where
  ended : ∀ p, FirstStopping req output p → s.finished = true ∧ ∃ token last, output[p]? = some token ∧
    s.outputIdsThroughStop = output.take p ++ [last] ∧
      (last = token ∨ OutOfVocabulary req token ∧ (last ∈ req.eosTokenIds ∨ last ∈ req.samplingParams.stopTokenIds))
  running : (∀ p, ¬ StoppingPosition req output p) → s.finished = false ∧ s.outputIdsThroughStop = output

/-- No check of the step that makes the output passes over its first stopping position: with the length reached
there is no earlier one, and short of it a token out of the vocabulary is not `vocab_size` itself and has no stop
token behind it. -/
structure InOrder (output : List Int) : Prop where
  positive : 0 < req.samplingParams.maxNewTokens
  length : req.samplingParams.maxNewTokens ≤ output.length →
    ∀ q, q + 1 < req.samplingParams.maxNewTokens → ¬ StoppingPosition req output q
  token : output.length < req.samplingParams.maxNewTokens →
    ∀ p (h : p < output.length), FirstStopping req output p →
      StopsAt req output[p] ∨ output[p] ≠ req.vocabSize ∧ ∀ q (hq : q < output.length), p < q → ¬ StopsAt req output[q]

/-- A request as it is made, with nothing but tokens to stop it. -/
structure StopsByTokens : Prop where
  outputIds : req.outputIds = []
  stopStrs : req.samplingParams.stopStrs = []
  stopRegexStrs : req.samplingParams.stopRegexStrs = []
  grammar : req.grammar = none
  toAbort : req.toAbort = false
  finishedReason : req.finishedReason = none
  finishedLen : req.finishedLen = none

end Positions

section Step

variable {R : Type} {req : StopReq R}

theorem exists_first {output : List Int} {p : Nat} (h : StoppingPosition req output p) :
    ∃ q ≤ p, FirstStopping req output q := by
  classical
  have hexists : ∃ q, StoppingPosition req output q := ⟨p, h⟩
  exact ⟨Nat.find hexists, Nat.find_min' hexists h, Nat.find_spec hexists, fun q hq => Nat.find_min hexists hq⟩

theorem FirstStopping.unique {output : List Int} {p q : Nat} (hp : FirstStopping req output p)
    (hq : FirstStopping req output q) : p = q :=
  Nat.le_antisymm (Nat.le_of_not_lt fun h => hp.2 q h hq.1) (Nat.le_of_not_lt fun h => hq.2 p h hp.1)

theorem stoppingPosition_append {output : List Int} {p : Nat} (batch : List Int) (hp : p < output.length) :
    StoppingPosition req (output ++ batch) p ↔ StoppingPosition req output p := by
  unfold StoppingPosition
  simp only [List.getElem_append_left hp, List.length_append, hp, exists_true_left,
    Nat.lt_add_right batch.length hp]

theorem FirstStopping.append {output : List Int} {p : Nat} (batch : List Int) (h : FirstStopping req output p) :
    FirstStopping req (output ++ batch) p := by
  obtain ⟨hp, -⟩ := h.1
  exact ⟨(stoppingPosition_append batch hp).mpr h.1, fun q hq hstop =>
    h.2 q hq ((stoppingPosition_append batch (hq.trans hp)).mp hstop)⟩

/-- The request with its output so far. -/
def withOutput (req : StopReq R) (output : List Int) : StopReq R := { req with outputIds := output }

/-- The new tokens end the output, and what is before them was there. -/
theorem lastTokens_suffix (output batch : List Int) :
    ∃ old, output ++ batch = old ++ lastTokens (output ++ batch) batch.length ∧ ∀ x ∈ old, x ∈ output := by
  unfold lastTokens
  split
  next => exact ⟨[], rfl, fun x hx => absurd hx List.not_mem_nil⟩
  next =>
    refine ⟨output, ?_, fun x hx => hx⟩
    rw [List.length_append, Nat.add_sub_cancel, List.drop_left]

/-- What is found first in the new tokens is first in the output, where nothing before them matches. -/
theorem first_in_suffix {found : Int → Bool} {old new : List Int} (hold : ∀ x ∈ old, found x = false) {i : Nat}
    (h : new.findIdx? found = some i) :
    ∃ hi : old.length + i < (old ++ new).length, found (old ++ new)[old.length + i] = true ∧
      (∀ q (hq : q < old.length + i), found (old ++ new)[q] = false) ∧
      new.getD i 0 = (old ++ new)[old.length + i] := by
  have happend : (old ++ new).findIdx? found = some (old.length + i) := by
    rw [List.findIdx?_append, List.findIdx?_eq_none_iff.mpr hold, h, Option.none_or, Option.map_some, Nat.add_comm]
  obtain ⟨hi, hfound, hfirst⟩ := List.findIdx?_eq_some_iff_getElem.mp happend
  obtain ⟨hinew, -, -⟩ := List.findIdx?_eq_some_iff_getElem.mp h
  refine ⟨hi, hfound, fun q hq => Bool.eq_false_iff.mpr (hfirst q hq), ?_⟩
  rw [List.getElem_append_right (Nat.le_add_right _ _), List.getD_eq_getElem _ _ hinew]
  simp only [Nat.add_sub_cancel_left]

/-- `token_id > self.vocab_size or token_id < 0`. -/
def PastVocabulary (req : StopReq R) (token : Int) : Prop := (req.vocabSize : Int) < token ∨ token < 0

theorem pastVocabulary_iff {token : Int} :
    (decide ((req.vocabSize : Int) < token) || decide (token < 0)) = true ↔ PastVocabulary req token := by
  rw [Bool.or_eq_true, decide_eq_true_iff, decide_eq_true_iff]
  rfl

/-- What a step makes of a running request, whose output is then `output`. -/
inductive StepOutcome (req : StopReq R) (output : List Int) (s : StopReq R) : Prop where
  | length (hmax : req.samplingParams.maxNewTokens ≤ output.length) (hfinished : s.finished = true)
      (hthrough : s.outputIdsThroughStop = output.take req.samplingParams.maxNewTokens)
  | token (hmax : output.length < req.samplingParams.maxNewTokens) (i : Nat) (hi : i < output.length)
      (hstop : StopsAt req output[i]) (hfirst : ∀ q (hq : q < i), ¬ StopsAt req output[q])
      (hfinished : s.finished = true) (hthrough : s.outputIdsThroughStop = output.take (i + 1))
  | vocabulary (hmax : output.length < req.samplingParams.maxNewTokens) (hnone : ∀ x ∈ output, ¬ StopsAt req x)
      (i : Nat) (hi : i < output.length) (hover : PastVocabulary req output[i])
      (hfirst : ∀ q (hq : q < i), ¬ PastVocabulary req output[q])
      (hfinished : s.finished = true)
      (hthrough : s.outputIdsThroughStop = output.take i ++ [req.writtenToken output[i]])
  | running (hmax : output.length < req.samplingParams.maxNewTokens) (hnone : ∀ x ∈ output, ¬ StopsAt req x)
      (hvalid : ∀ x ∈ output, ¬ PastVocabulary req x) (hs : s = withOutput req output)

/-- The checks of the new tokens look for the first of them in the output. -/
theorem checkToken_outcome {output old new : List Int} (houtput : output = old ++ new)
    (hmax : output.length < req.samplingParams.maxNewTokens) (hold : ∀ x ∈ old, ¬ StopsAt req x) {s : StopReq R}
    (h : (withOutput req output).checkTokenBasedFinish new = some s) : StepOutcome req output s := by
  unfold StopReq.checkTokenBasedFinish at h
  split at h
  next => cases h
  next heos =>
    have hcounts : req.samplingParams.ignoreEos = false := Bool.eq_false_iff.mpr heos
    obtain ⟨i, hi, rfl⟩ := Option.map_eq_some_iff.mp h
    have hfalse : ∀ x ∈ old, req.isStopToken x = false := fun x hx =>
      Bool.eq_false_iff.mpr fun hstop => hold x hx ⟨hcounts, hstop⟩
    obtain ⟨hlt, hstop, hfirst, -⟩ := first_in_suffix hfalse hi
    subst houtput
    refine .token hmax _ hlt ⟨hcounts, hstop⟩ (fun q hq hq' => ?_) rfl ?_
    · exact Bool.false_ne_true ((hfirst q hq).symm.trans hq'.2)
    · simp only [StopReq.outputIdsThroughStop, withOutput, List.length_append, Nat.add_sub_cancel]

theorem checkToken_none {output old new : List Int} (houtput : output = old ++ new)
    (hold : ∀ x ∈ old, ¬ StopsAt req x) (h : (withOutput req output).checkTokenBasedFinish new = none) :
    ∀ x ∈ output, ¬ StopsAt req x := by
  intro x hx hstop
  have hcounts : ¬ (withOutput req output).samplingParams.ignoreEos = true := Bool.eq_false_iff.mp hstop.1
  rw [StopReq.checkTokenBasedFinish, if_neg hcounts, Option.map_eq_none_iff] at h
  rw [houtput] at hx
  rcases List.mem_append.mp hx with hx | hx
  · exact hold x hx hstop
  · exact Bool.false_ne_true ((List.findIdx?_eq_none_iff.mp h x hx).symm.trans hstop.2)

theorem checkVocabulary_outcome {output old new : List Int} (houtput : output = old ++ new)
    (hmax : output.length < req.samplingParams.maxNewTokens) (hnone : ∀ x ∈ output, ¬ StopsAt req x)
    (hold : ∀ x ∈ old, ¬ PastVocabulary req x) {s : StopReq R}
    (h : (withOutput req output).checkVocabBoundaryFinish new = some s) : StepOutcome req output s := by
  obtain ⟨i, hi, rfl⟩ := Option.map_eq_some_iff.mp h
  have hfalse : ∀ x ∈ old, (decide ((req.vocabSize : Int) < x) || decide (x < 0)) = false := fun x hx =>
    Bool.eq_false_iff.mpr fun hpast => hold x hx (pastVocabulary_iff.mp hpast)
  obtain ⟨hlt, hpast, hfirst, htoken⟩ := first_in_suffix hfalse hi
  subst houtput
  refine .vocabulary hmax hnone _ hlt (pastVocabulary_iff.mp hpast) (fun q hq hq' => ?_) rfl ?_
  · exact Bool.false_ne_true ((hfirst q hq).symm.trans (pastVocabulary_iff.mpr hq'))
  · simp only [StopReq.outputIdsThroughStop, withOutput, List.length_append, Nat.add_sub_cancel, htoken]
    rw [List.take_succ_eq_append_getElem (by rwa [List.length_set]), List.take_set_of_le (Nat.le_refl _),
      List.getElem_set_self]
    rfl

theorem checkVocabulary_none {output old new : List Int} (houtput : output = old ++ new)
    (hold : ∀ x ∈ old, ¬ PastVocabulary req x) (h : (withOutput req output).checkVocabBoundaryFinish new = none) :
    ∀ x ∈ output, ¬ PastVocabulary req x := by
  intro x hx hpast
  rw [StopReq.checkVocabBoundaryFinish, Option.map_eq_none_iff] at h
  rw [houtput] at hx
  rcases List.mem_append.mp hx with hx | hx
  · exact hold x hx hpast
  · exact Bool.false_ne_true ((List.findIdx?_eq_none_iff.mp h x hx).symm.trans (pastVocabulary_iff.mpr hpast))

theorem step_outcome (search : R → Text → Bool) (hreq : StopsByTokens req) {output : List Int}
    (hrunning : ∀ p, ¬ StoppingPosition req output p) (batch : List Int) :
    ∃ s, (withOutput req output).accept search batch = .ok s ∧ StepOutcome req (output ++ batch) s := by
  have hunfinished : ∀ output, (withOutput req output).finished = false := fun output => by
    rw [StopReq.finished, withOutput, hreq.finishedReason]
    rfl
  have hstops : ∀ x ∈ output, ¬ StopsAt req x ∧ ¬ OutOfVocabulary req x := by
    intro x hx
    obtain ⟨p, hp, rfl⟩ := List.getElem_of_mem hx
    exact ⟨fun h => hrunning p ⟨hp, Or.inl h⟩, fun h => hrunning p ⟨hp, Or.inr (Or.inl h)⟩⟩
  obtain ⟨old, htotal, hsub⟩ := lastTokens_suffix output batch
  have hold : ∀ x ∈ old, ¬ StopsAt req x := fun x hx => (hstops x (hsub x hx)).1
  have hpast : ∀ x ∈ old, ¬ PastVocabulary req x := fun x hx hpast =>
    (hstops x (hsub x hx)).2 (hpast.symm.imp_right le_of_lt)
  rw [StopReq.accept, if_neg (Bool.eq_false_iff.mp (hunfinished output))]
  change ∃ s, (withOutput req (output ++ batch)).checkFinished search batch.length = .ok s ∧ _
  have habort : ¬ (withOutput req (output ++ batch)).toAbort = true := Bool.eq_false_iff.mp hreq.toAbort
  have hgrammar : ¬ (withOutput req (output ++ batch)).grammar = some true := by
    rw [withOutput, hreq.grammar]
    exact (Option.some_ne_none _).symm
  rw [StopReq.checkFinished, if_neg (Bool.eq_false_iff.mp (hunfinished _)), if_neg habort]
  by_cases hmax : (withOutput req (output ++ batch)).samplingParams.maxNewTokens ≤
      (withOutput req (output ++ batch)).outputIds.length
  · exact ⟨_, if_pos hmax, .length hmax rfl rfl⟩
  · have hshort : (output ++ batch).length < req.samplingParams.maxNewTokens := Nat.lt_of_not_le hmax
    rw [if_neg hmax, if_neg hgrammar]
    have hlast : lastTokens (withOutput req (output ++ batch)).outputIds batch.length =
        lastTokens (output ++ batch) batch.length := rfl
    dsimp only
    rw [hlast]
    cases htoken : (withOutput req (output ++ batch)).checkTokenBasedFinish
        (lastTokens (output ++ batch) batch.length) with
    | some s => exact ⟨s, rfl, checkToken_outcome htotal hshort hold htoken⟩
    | none =>
      have hnone := checkToken_none htotal hold htoken
      dsimp only
      cases hvocab : (withOutput req (output ++ batch)).checkVocabBoundaryFinish
          (lastTokens (output ++ batch) batch.length) with
      | some s => exact ⟨s, rfl, checkVocabulary_outcome htotal hshort hnone hpast hvocab⟩
      | none =>
        refine ⟨withOutput req (output ++ batch), ?_,
          .running hshort hnone (checkVocabulary_none htotal hpast hvocab) rfl⟩
        have hplain : (withOutput req (output ++ batch)).samplingParams.stopStrs = [] ∧
            (withOutput req (output ++ batch)).samplingParams.stopRegexStrs.isEmpty = true :=
          ⟨hreq.stopStrs, List.isEmpty_iff.mpr hreq.stopRegexStrs⟩
        simp only [StopReq.checkStrBasedFinish, if_pos hplain]
        rfl

theorem StoppingPosition.of_short {output : List Int} {p : Nat} (h : StoppingPosition req output p)
    (hmax : output.length < req.samplingParams.maxNewTokens) :
    ∃ hp : p < output.length, StopsAt req output[p] ∨ OutOfVocabulary req output[p] := by
  obtain ⟨hp, hstop | hvocab | hlast⟩ := h
  · exact ⟨hp, Or.inl hstop⟩
  · exact ⟨hp, Or.inr hvocab⟩
  · omega

/-- A request that ended behind `i` ended right exactly when `i` is the first stopping position. -/
theorem endsAtFirst_iff_first {s : StopReq R} {output : List Int} {i : Nat} {last : Int} (hi : i < output.length)
    (hstopping : StoppingPosition req output i) (hfinished : s.finished = true)
    (hthrough : s.outputIdsThroughStop = output.take i ++ [last])
    (hlast : last = output[i] ∨ OutOfVocabulary req output[i] ∧
      (last ∈ req.eosTokenIds ∨ last ∈ req.samplingParams.stopTokenIds)) :
    EndsAtFirst req s output ↔ FirstStopping req output i := by
  constructor
  · intro h
    obtain ⟨p, -, hfirst⟩ := exists_first hstopping
    obtain ⟨-, token, other, -, hother, -⟩ := h.ended p hfirst
    have hp : p < output.length := hfirst.1.choose
    have hlength := congrArg List.length (hthrough.symm.trans hother)
    simp only [List.length_append, List.length_take, List.length_singleton] at hlength
    obtain rfl : i = p := by omega
    exact hfirst
  · intro hfirst
    refine ⟨fun p hp => ?_, fun hnone => absurd hstopping (hnone i)⟩
    obtain rfl := hfirst.unique hp
    exact ⟨hfinished, output[i], last, List.getElem?_eq_getElem hi, hthrough, hlast⟩

theorem first_of_stopsAt {output : List Int} {i p : Nat} (hi : i < output.length)
    (hmax : output.length < req.samplingParams.maxNewTokens)
    (hbefore : ∀ q (hq : q < i), ¬ StopsAt req output[q]) (hp : FirstStopping req output p) (hle : p ≤ i)
    (hstop : StopsAt req output[i]) (horder : InOrder req output) : p = i := by
  have hplt : p < output.length := Nat.lt_of_le_of_lt hle hi
  rcases Nat.lt_or_eq_of_le hle with hlt | heq
  · rcases horder.token hmax p hplt hp with hstops | ⟨-, hbehind⟩
    · exact absurd hstops (hbefore p hlt)
    · exact absurd hstop (hbehind i hi hlt)
  · exact heq

theorem writtenToken_cases (token : Int) :
    req.writtenToken token = token ∨ req.writtenToken token ∈ req.eosTokenIds ∨
      req.writtenToken token ∈ req.samplingParams.stopTokenIds := by
  unfold StopReq.writtenToken
  cases req.eosTokenIds with
  | cons eos rest => exact Or.inr (Or.inl List.mem_cons_self)
  | nil =>
    cases req.samplingParams.stopTokenIds with
    | cons stop rest => exact Or.inr (Or.inr List.mem_cons_self)
    | nil => exact Or.inl rfl

theorem StepOutcome.endsAtFirst_iff {output : List Int} {s : StopReq R} (h : StepOutcome req output s)
    (hreq : StopsByTokens req) : EndsAtFirst req s output ↔ InOrder req output := by
  cases h with
  | length hmax hfinished hthrough =>
    by_cases hpositive : 0 < req.samplingParams.maxNewTokens
    · have hi : req.samplingParams.maxNewTokens - 1 < output.length := by omega
      have hstopping : StoppingPosition req output (req.samplingParams.maxNewTokens - 1) :=
        ⟨hi, Or.inr (Or.inr (Nat.sub_add_cancel hpositive))⟩
      have htake : s.outputIdsThroughStop = output.take (req.samplingParams.maxNewTokens - 1) ++ [output[req.samplingParams.maxNewTokens - 1]] := by
        rw [hthrough, ← List.take_succ_eq_append_getElem hi, Nat.sub_add_cancel hpositive]
      rw [endsAtFirst_iff_first hi hstopping hfinished htake (Or.inl rfl)]
      constructor
      · intro hfirst
        exact ⟨hpositive, fun _ q hq => hfirst.2 q (by omega), fun hshort => absurd hmax (Nat.not_le_of_lt hshort)⟩
      · intro horder
        exact ⟨hstopping, fun q hq => horder.length hmax q (by omega)⟩
    · refine iff_of_false (fun hends => ?_) fun horder => hpositive horder.positive
      have hnil : s.outputIdsThroughStop = [] := by
        rw [hthrough, Nat.eq_zero_of_not_pos hpositive, List.take_zero]
      by_cases hstopping : ∃ p, StoppingPosition req output p
      · obtain ⟨p, hp⟩ := hstopping
        obtain ⟨q, -, hfirst⟩ := exists_first hp
        obtain ⟨-, token, last, -, hlast, -⟩ := hends.ended q hfirst
        rw [hnil] at hlast
        exact List.append_ne_nil_of_right_ne_nil _ (List.cons_ne_nil _ _) hlast.symm
      · have hrunning := (hends.running fun p hp => hstopping ⟨p, hp⟩).1
        rw [hfinished] at hrunning
        cases hrunning
  | token hmax i hi hstop hfirst hfinished hthrough =>
    have hstopping : StoppingPosition req output i := ⟨hi, Or.inl hstop⟩
    rw [endsAtFirst_iff_first hi hstopping hfinished (hthrough.trans (List.take_succ_eq_append_getElem hi)) (Or.inl rfl)]
    constructor
    · intro hfirst'
      refine ⟨by omega, fun hlong => absurd hmax (Nat.not_lt_of_le hlong), fun _ p hp hpfirst => ?_⟩
      obtain rfl := hpfirst.unique hfirst'
      exact Or.inl hstop
    · intro horder
      obtain ⟨p, hle, hp⟩ := exists_first hstopping
      obtain rfl := first_of_stopsAt hi hmax hfirst hp hle hstop horder
      exact hp
  | vocabulary hmax hnone i hi hover hfirst hfinished hthrough =>
    have hvocab : OutOfVocabulary req output[i] := hover.symm.imp_right le_of_lt
    have hstopping : StoppingPosition req output i := ⟨hi, Or.inr (Or.inl hvocab)⟩
    rw [endsAtFirst_iff_first hi hstopping hfinished hthrough
      ((writtenToken_cases output[i]).imp_right fun hmem => ⟨hvocab, hmem⟩)]
    constructor
    · intro hfirst'
      refine ⟨by omega, fun hlong => absurd hmax (Nat.not_lt_of_le hlong), fun _ p hp hpfirst => ?_⟩
      obtain rfl := hpfirst.unique hfirst'
      refine Or.inr ⟨fun heq => ?_, fun q hq _ => hnone _ (List.getElem_mem hq)⟩
      rcases hover with hover | hover <;> omega
    · intro horder
      obtain ⟨p, hle, hp⟩ := exists_first hstopping
      obtain ⟨hplt, hstops | hpvocab⟩ := hp.1.of_short hmax
      · exact absurd hstops (hnone _ (List.getElem_mem hplt))
      rcases horder.token hmax p hplt hp with hstops | ⟨hne, -⟩
      · exact absurd hstops (hnone _ (List.getElem_mem hplt))
      rcases Nat.lt_or_eq_of_le hle with hlt | rfl
      · exact absurd (hpvocab.symm.imp_left fun hge => lt_of_le_of_ne hge hne.symm) (hfirst p hlt)
      · exact hp
  | running hmax hnone hvalid hs =>
    have hfinished : s.finished = false := by
      rw [hs, StopReq.finished, withOutput, hreq.finishedReason]
      rfl
    have hthrough : s.outputIdsThroughStop = output := by
      rw [hs, StopReq.outputIdsThroughStop, withOutput, hreq.finishedLen]
    constructor
    · intro hends
      refine ⟨by omega, fun hlong => absurd hmax (Nat.not_lt_of_le hlong), fun _ p hp hpfirst => ?_⟩
      have hended := (hends.ended p hpfirst).1
      rw [hfinished] at hended
      cases hended
    · intro horder
      have hstopping : ∀ p, ¬ StoppingPosition req output p := by
        intro p hp
        obtain ⟨q, -, hq⟩ := exists_first hp
        obtain ⟨hqlt, hstops | hvocab⟩ := hq.1.of_short hmax
        · exact hnone _ (List.getElem_mem hqlt) hstops
        rcases horder.token hmax q hqlt hq with hstops | ⟨hne, -⟩
        · exact hnone _ (List.getElem_mem hqlt) hstops
        · exact hvalid _ (List.getElem_mem hqlt) (hvocab.symm.imp_left fun hge => lt_of_le_of_ne hge hne.symm)
      exact ⟨fun p hp => absurd hp.1 (hstopping p), fun _ => ⟨hfinished, hthrough⟩⟩

/-- A request that still runs has its whole output. -/
theorem StepOutcome.of_unfinished {output : List Int} {s : StopReq R} (h : StepOutcome req output s)
    (hfinished : s.finished = false) : s = withOutput req output := by
  cases h with
  | running _ _ _ hs => exact hs
  | _ => simp_all

/-- What is accepted behind the first stopping position changes nothing. -/
theorem EndsAtFirst.append {output : List Int} {s : StopReq R} (h : EndsAtFirst req s output) (batch : List Int)
    {p : Nat} (hp : FirstStopping req output p) : EndsAtFirst req s (output ++ batch) := by
  have hplt : p < output.length := hp.1.choose
  refine ⟨fun q hq => ?_, fun hnone => absurd (hp.append batch).1 (hnone p)⟩
  obtain rfl := hq.unique (hp.append batch)
  obtain ⟨hfinished, token, last, htoken, hthrough, hlast⟩ := h.ended q hp
  refine ⟨hfinished, token, last, ?_, ?_, hlast⟩
  · rw [List.getElem?_append_left hplt, htoken]
  · rw [List.take_append_of_le_length hplt.le, hthrough]

end Step

/-! ## Runs -/

section Runs

variable {R : Type} {req : StopReq R} (search : R → Text → Bool)

/-- After so many batches the request has ended right. -/
def RightAfter (req : StopReq R) (batches : List (List Int)) (k : Nat) : Prop :=
  ∃ s, req.acceptAll search (batches.take k) = .ok s ∧ EndsAtFirst req s (batches.take k).flatten

theorem acceptAll_succ (batches : List (List Int)) {k : Nat} (hk : k < batches.length) {s : StopReq R}
    (h : req.acceptAll search (batches.take k) = .ok s) :
    req.acceptAll search (batches.take (k + 1)) = s.accept search batches[k] := by
  rw [List.take_succ_eq_append_getElem hk, StopReq.acceptAll, List.foldlM_append]
  rw [StopReq.acceptAll] at h
  simp only [h, bind, Except.bind, List.foldlM_cons, List.foldlM_nil]
  cases s.accept search batches[k] <;> rfl

theorem flatten_take_succ (batches : List (List Int)) {k : Nat} (hk : k < batches.length) :
    (batches.take (k + 1)).flatten = (batches.take k).flatten ++ batches[k] := by
  rw [List.take_succ_eq_append_getElem hk, List.flatten_append, List.flatten_singleton]

/-- While every batch ends right and none has stopped the request, it is the request with its output. -/
theorem running_state (hreq : StopsByTokens req) {batches : List (List Int)} {k : Nat} (hk : k ≤ batches.length)
    (hright : ∀ j ≤ k, RightAfter search req batches j)
    (hrunning : ∀ p, ¬ StoppingPosition req (batches.take k).flatten p) :
    req.acceptAll search (batches.take k) = .ok (withOutput req (batches.take k).flatten) := by
  induction k with
  | zero =>
    rw [List.take_zero, List.flatten_nil, ← hreq.outputIds]
    rfl
  | succ k ih =>
    have hprevious : ∀ p, ¬ StoppingPosition req (batches.take k).flatten p := by
      intro p hp
      obtain ⟨hlt, -⟩ := id hp
      apply hrunning p
      rw [flatten_take_succ batches hk]
      exact (stoppingPosition_append _ hlt).mpr hp
    have hstate := ih (Nat.le_of_succ_le hk) (fun j hj => hright j (Nat.le_succ_of_le hj)) hprevious
    obtain ⟨s, hs, houtcome⟩ := step_outcome search hreq hprevious batches[k]
    obtain ⟨t, ht, hends⟩ := hright (k + 1) (Nat.le_refl _)
    rw [acceptAll_succ search batches hk hstate] at ht ⊢
    obtain rfl : s = t := Except.ok.inj (hs.symm.trans ht)
    rw [flatten_take_succ batches hk] at hends hrunning ⊢
    rw [hs, houtcome.of_unfinished (hends.running hrunning).1]

/-- The step from a running request ends right exactly when it passes over nothing. -/
theorem rightAfter_succ_iff (hreq : StopsByTokens req) {batches : List (List Int)} {k : Nat}
    (hk : k < batches.length) (hright : ∀ j ≤ k, RightAfter search req batches j)
    (hrunning : ∀ p, ¬ StoppingPosition req (batches.take k).flatten p) :
    RightAfter search req batches (k + 1) ↔ InOrder req (batches.take (k + 1)).flatten := by
  have hstate := running_state search hreq hk.le hright hrunning
  obtain ⟨s, hs, houtcome⟩ := step_outcome search hreq hrunning batches[k]
  unfold RightAfter
  rw [acceptAll_succ search batches hk hstate, hs, flatten_take_succ batches hk, ← houtcome.endsAtFirst_iff hreq]
  constructor
  · rintro ⟨t, ht, hends⟩
    rwa [Except.ok.inj ht]
  · exact fun hends => ⟨s, rfl, hends⟩

theorem rightAfter_of_stopped {batches : List (List Int)} {k p : Nat} (hk : k < batches.length)
    (hright : RightAfter search req batches k) (hp : FirstStopping req (batches.take k).flatten p) :
    RightAfter search req batches (k + 1) := by
  obtain ⟨s, hs, hends⟩ := hright
  refine ⟨s, ?_, ?_⟩
  · rw [acceptAll_succ search batches hk hs, StopReq.accept, if_pos (hends.ended p hp).1]
  · rw [flatten_take_succ batches hk]
    exact hends.append batches[k] hp

/-- Every step ends the request at its first stopping position exactly when no step taken by the running
request passes over one. -/
theorem ends_at_first_stop_iff (hreq : StopsByTokens req) (batches : List (List Int)) :
    (∀ k ≤ batches.length, RightAfter search req batches k) ↔
      ∀ k < batches.length, (∀ p, ¬ StoppingPosition req (batches.take k).flatten p) →
        InOrder req (batches.take (k + 1)).flatten := by
  constructor
  · intro hright k hk hrunning
    exact (rightAfter_succ_iff search hreq hk (fun j hj => hright j (hj.trans hk.le)) hrunning).mp
      (hright (k + 1) hk)
  · intro horder k hk
    induction k using Nat.strong_induction_on with
    | _ k ih =>
      cases k with
      | zero =>
        refine ⟨req, by rw [List.take_zero]; rfl, fun p hp => ?_, fun _ => ⟨?_, ?_⟩⟩
        · exact absurd hp.1.choose (Nat.not_lt_zero p)
        · rw [StopReq.finished, hreq.finishedReason]
          rfl
        · rw [StopReq.outputIdsThroughStop, hreq.finishedLen]
          exact hreq.outputIds
      | succ k =>
        have hright : ∀ j ≤ k, RightAfter search req batches j := fun j hj =>
          ih j (Nat.lt_succ_of_le hj) (hj.trans (Nat.le_of_succ_le hk))
        by_cases hrunning : ∀ p, ¬ StoppingPosition req (batches.take k).flatten p
        · exact (rightAfter_succ_iff search hreq hk hright hrunning).mpr (horder k hk hrunning)
        · obtain ⟨p, hp⟩ := not_forall_not.mp hrunning
          obtain ⟨q, -, hq⟩ := exists_first hp
          exact rightAfter_of_stopped search hk (hright k (Nat.le_refl k)) hq

/-- A request with a vocabulary of ten tokens, of which 2 is EOS. -/
def tenTokenReq (maxNewTokens : Nat) : StopReq Unit where
  samplingParams := ⟨maxNewTokens, [], false, [], 0, [], 0⟩
  outputIds := []
  decodedText := []
  vocabSize := 10
  eosTokenIds := [2]
  tokenizer := none
  grammar := none
  toAbort := false
  toAbortMessage := none
  finishedReason := none
  finishedLen := none

theorem tenTokenReq_stopsByTokens (maxNewTokens : Nat) : StopsByTokens (tenTokenReq maxNewTokens) :=
  ⟨rfl, rfl, rfl, rfl, rfl, rfl, rfl⟩

theorem ends_at_first_stop_iff_tenTokens :
    StopsByTokens (tenTokenReq 8) ∧
      ((∀ k ≤ 2, RightAfter (fun _ _ => false) (tenTokenReq 8) [[5, 6], [7, 2, 3]] k) ↔
        ∀ k < 2, (∀ p, ¬ StoppingPosition (tenTokenReq 8) (List.take k [[5, 6], [7, 2, 3]]).flatten p) →
          InOrder (tenTokenReq 8) (List.take (k + 1) [[5, 6], [7, 2, 3]]).flatten) :=
  ⟨tenTokenReq_stopsByTokens 8,
    ends_at_first_stop_iff (fun _ _ => false) (tenTokenReq_stopsByTokens 8) [[5, 6], [7, 2, 3]]⟩

/-- EOS as the first of three tokens accepted at once, with three tokens allowed: the length ends the request
and all three count. A token equal to `vocab_size` ends nothing. -/
theorem checks_pass_over_stops :
    (∃ s, (tenTokenReq 3).acceptAll (fun _ _ => false) [[2, 5, 6]] = .ok s ∧ s.outputIdsThroughStop = [2, 5, 6]) ∧
      FirstStopping (tenTokenReq 3) [2, 5, 6] 0 ∧
      ¬ RightAfter (fun _ _ => false) (tenTokenReq 3) [[2, 5, 6]] 1 ∧
      (∃ s, (tenTokenReq 3).acceptAll (fun _ _ => false) [[10]] = .ok s ∧ s.finished = false) ∧
      FirstStopping (tenTokenReq 3) [10] 0 ∧
      ¬ RightAfter (fun _ _ => false) (tenTokenReq 3) [[10]] 1 := by
  have hlong : FirstStopping (tenTokenReq 3) [2, 5, 6] 0 :=
    ⟨⟨by decide, Or.inl ⟨rfl, rfl⟩⟩, fun q hq => absurd hq (Nat.not_lt_zero q)⟩
  have hvocab : FirstStopping (tenTokenReq 3) [10] 0 :=
    ⟨⟨by decide, Or.inr (Or.inl (Or.inr (by decide)))⟩, fun q hq => absurd hq (Nat.not_lt_zero q)⟩
  refine ⟨⟨_, rfl, rfl⟩, hlong, ?_, ⟨_, rfl, rfl⟩, hvocab, ?_⟩
  · rintro ⟨s, hs, hends⟩
    obtain ⟨-, token, last, -, hthrough, -⟩ := hends.ended 0 hlong
    obtain rfl := Except.ok.inj hs
    cases congrArg List.length hthrough
  · rintro ⟨s, hs, hends⟩
    obtain rfl := Except.ok.inj hs
    cases (hends.ended 0 hvocab).1

end Runs

end QCFuse.Guarantees
