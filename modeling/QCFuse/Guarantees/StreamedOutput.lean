import QCFuse.Library.Transition
import QCFuse.Source.ResponseStream

/-!
# Streamed output is complete

Messages for one streaming request against the wake-ups of its generator. Chunks carry new token
ids only, and the generator takes the last chunk of the list: one that is still there when the
next message arrives is lost.
-/

set_option autoImplicit false

namespace QCFuse.Guarantees

open QCFuse.Library QCFuse.Source

inductive StreamLabel where
  | deliver (recv : RecvOutput)
  | wake
  | timeout (disconnected : Bool)
  | next

namespace ResponseStream

def step (args : ServerOutputArgs) : StreamLabel → ResponseStream → Option ResponseStream
  | .deliver recv, s => s.deliver args recv
  | .wake, s => s.wake
  | .timeout disconnected, s => s.timeout disconnected
  | .next, s => s.next

end ResponseStream

def streamMachine (args : ServerOutputArgs) : Machine ResponseStream StreamLabel where
  step := ResponseStream.step args

/-- The token ids that a message adds. -/
def newIds (recv : RecvOutput) : List Int :=
  match recv.body with
  | .str _ outputIds | .tokenIds outputIds => outputIds
  | _ => []

/-- The text that a message adds. -/
def newText (recv : RecvOutput) : String :=
  match recv.body with
  | .str outputStr _ => outputStr
  | _ => ""

def textSoFar (received : List RecvOutput) : String := received.foldl (fun text recv => text ++ newText recv) ""

/-- A message of increments: with text, or with token ids under `stream_output`. -/
def Increments (args : ServerOutputArgs) (recv : RecvOutput) : Prop :=
  match recv.body with
  | .str _ _ => True
  | .tokenIds _ => args.streamOutput = true
  | _ => False

/-- The generator will run again. -/
def Live (s : ResponseStream) : Prop := s.consumer = .waiting ∨ s.consumer = .yielded

/-- A message finds no chunk with tokens waiting, and it does not end the request by an error. -/
def FindsNoTokens (args : ServerOutputArgs) (s : ResponseStream) : StreamLabel → Prop
  | .deliver recv => Increments args recv ∧ (s.known = true →
      (Live s → ∀ out ∈ s.state.outList, out.outputIds = []) ∧ recv.finishedReason.bind FinishReason.failure = none)
  | _ => True

/-- What the caller of the generator has seen. -/
structure StreamComplete (s : ResponseStream) : Prop where
  outputIds : s.chunks.flatMap (fun chunk => chunk.1.outputIds) = (s.received.take s.consumed).flatMap newIds
  text : ∀ chunk ∈ s.chunks, ∀ text, chunk.1.text = some text → text = textSoFar (s.received.take chunk.2)
  last : s.consumer = .lastYielded ∨ s.consumer = .stopped → ∃ chunk reason, s.chunks.getLast? = some chunk ∧
    chunk.1.metaInfo.finishReason = some reason ∧ s.received.getLast?.bind RecvOutput.finishedReason = some reason

/-! ## The invariant -/

/-- The state of the request and the chunks that wait. -/
structure StreamInv (s : ResponseStream) : Prop extends StreamComplete s where
  stream : s.state.stream = true
  offset : s.state.lastOutputOffset = s.state.outputIds.length
  stateText : s.state.text = textSoFar s.received
  consumed : s.consumed ≤ s.received.length
  counted : ∀ chunk ∈ s.chunks, chunk.2 ≤ s.received.length
  waiting : Live s → s.state.outList.flatMap OutDict.outputIds = (s.received.drop s.consumed).flatMap newIds
  newest : Live s → ∀ out, s.state.outList.getLast? = some out →
    out.outputIds = (s.received.drop s.consumed).flatMap newIds ∧
    (∀ text, out.text = some text → text = textSoFar s.received) ∧
    out.metaInfo.finishReason = s.received.getLast?.bind RecvOutput.finishedReason
  event : s.state.event = true → Live s → s.state.outList ≠ []
  finished : s.state.finished = (s.received.getLast?.bind RecvOutput.finishedReason).isSome
  harmless : (s.received.getLast?.bind RecvOutput.finishedReason).bind FinishReason.failure = none
  known : s.state.finished = true → s.known = false
  ended : s.consumer = .lastYielded ∨ s.consumer = .stopped → s.state.finished = true

theorem textSoFar_concat (received : List RecvOutput) (recv : RecvOutput) :
    textSoFar (received ++ [recv]) = textSoFar received ++ newText recv := by
  rw [textSoFar, List.foldl_append]
  rfl

/-- A message of increments leaves one more chunk, with the new token ids and the whole text. -/
theorem handleBatchOutput_increments {args : ServerOutputArgs} {state : ReqState} {recv : RecvOutput}
    (hrecv : Increments args recv) (hstream : state.stream = true)
    (hoffset : state.lastOutputOffset = state.outputIds.length) :
    ∃ out, state.handleBatchOutput args recv = some { state with
        text := state.text ++ newText recv
        outputIds := state.outputIds ++ newIds recv
        lastOutputOffset := (state.outputIds ++ newIds recv).length
        finished := recv.finishedReason.isSome
        outList := state.outList ++ [out]
        event := true } ∧
      out.outputIds = newIds recv ∧ (∀ text, out.text = some text → text = state.text ++ newText recv) ∧
      out.metaInfo.finishReason = recv.finishedReason := by
  cases hbody : recv.body with
  | str outputStr outputIds =>
    refine ⟨⟨some (state.text ++ outputStr), outputIds, none, state.metaInfo args recv⟩, ?_, ?_, fun text htext => ?_, rfl⟩
    · simp [ReqState.handleBatchOutput, ReqState.outDict, ReqState.takeOutputIds, hbody, hstream, hoffset, newText,
        newIds]
    · rw [newIds, hbody]
    · rw [newText, hbody]
      exact (Option.some.inj htext).symm
  | tokenIds outputIds =>
    have hargs : args.streamOutput = true := by
      rw [Increments, hbody] at hrecv
      exact hrecv
    refine ⟨⟨none, outputIds, none, state.metaInfo args recv⟩, ?_, ?_, fun text htext => (by cases htext), rfl⟩
    · simp [ReqState.handleBatchOutput, ReqState.outDict, ReqState.takeOutputIds, hbody, hstream, hargs, hoffset,
        newText, newIds]
    · rw [newIds, hbody]
  | multimodal | embedding _ =>
    rw [Increments, hbody] at hrecv
    cases hrecv

namespace StreamInv

variable {args : ServerOutputArgs} {s s' : ResponseStream}

theorem new (rid : String) : StreamInv (ResponseStream.new rid true) where
  outputIds := rfl
  text _ h := by cases h
  last h := by rcases h with h | h <;> cases h
  stream := rfl
  offset := rfl
  stateText := rfl
  consumed := Nat.le_refl 0
  counted _ h := by cases h
  waiting _ := rfl
  newest _ _ h := by cases h
  event h := by cases h
  finished := rfl
  harmless := rfl
  known h := by cases h
  ended h := by rcases h with h | h <;> cases h

theorem deliver (h : StreamInv s) {recv : RecvOutput} (hguard : FindsNoTokens args s (.deliver recv))
    (hstep : s.deliver args recv = some s') : StreamInv s' := by
  obtain ⟨hrecv, hguard⟩ := hguard
  unfold ResponseStream.deliver at hstep
  split at hstep
  next hknown =>
    obtain ⟨hempty, hharmless⟩ := hguard hknown
    have hrunning : s.state.finished = false := by
      by_contra hfinished
      rw [h.known (Bool.not_eq_false _ ▸ hfinished)] at hknown
      cases hknown
    obtain ⟨out, hout, hids, htext, hreason⟩ := handleBatchOutput_increments hrecv h.stream h.offset
    rw [hout] at hstep
    cases hstep
    have hlast : (s.received ++ [recv]).getLast?.bind RecvOutput.finishedReason = recv.finishedReason := by
      rw [List.getLast?_concat, Option.bind_some]
    have hdrop : (s.received ++ [recv]).drop s.consumed = s.received.drop s.consumed ++ [recv] :=
      List.drop_append_of_le_length h.consumed
    have hnotEnded : ¬(s.consumer = .lastYielded ∨ s.consumer = .stopped) := fun hended => by
      rw [h.ended hended] at hrunning
      cases hrunning
    refine ⟨⟨?_, fun chunk hchunk text hsome => ?_, fun hended => absurd hended hnotEnded⟩, h.stream, rfl, ?_, ?_,
      fun chunk hchunk => ?_, fun hlive => ?_, fun hlive newer hnewer => ?_, fun _ _ => ?_, ?_, ?_, fun hfinished => ?_,
      fun hended => absurd hended hnotEnded⟩
    · simp only
      rw [List.take_append_of_le_length h.consumed]
      exact h.outputIds
    · simp only
      rw [List.take_append_of_le_length (h.counted chunk hchunk)]
      exact h.text chunk hchunk text hsome
    · simp only
      rw [textSoFar_concat, h.stateText]
    · simp only
      rw [List.length_append]
      exact Nat.le_add_right_of_le h.consumed
    · simp only
      rw [List.length_append]
      exact Nat.le_add_right_of_le (h.counted chunk hchunk)
    · simp only
      rw [hdrop, List.flatMap_append, List.flatMap_append, h.waiting hlive, List.flatMap_singleton,
        List.flatMap_singleton, hids]
    · simp only [List.getLast?_concat, Option.some.injEq] at hnewer
      subst hnewer
      have hnothing : (s.received.drop s.consumed).flatMap newIds = [] := by
        rw [← h.waiting hlive, List.flatMap_eq_nil_iff]
        exact hempty hlive
      refine ⟨?_, fun text hsome => ?_, hreason.trans hlast.symm⟩
      · rw [hdrop, List.flatMap_append, hnothing, List.flatMap_singleton, List.nil_append, hids]
      · rw [textSoFar_concat, ← h.stateText]
        exact htext text hsome
    · exact List.append_ne_nil_of_right_ne_nil _ (List.cons_ne_nil _ _)
    · rw [hlast]
    · rw [hlast]
      exact hharmless
    · rw [← Option.not_isSome, show recv.finishedReason.isSome = true from hfinished]
      rfl
  next =>
    cases hstep
    exact h

theorem wake (h : StreamInv s) (hstep : s.wake = some s') : StreamInv s' := by
  unfold ResponseStream.wake at hstep
  split at hstep
  next hready =>
    obtain ⟨hwaiting, hevent⟩ := hready
    have hlive : Live s := Or.inl hwaiting
    cases hlast : s.state.outList.getLast? with
    | none => exact absurd (List.getLast?_eq_none_iff.mp hlast) (h.event hevent hlive)
    | some out =>
      obtain ⟨hids, htext, hreason⟩ := h.newest hlive out hlast
      -- the chunk that is taken holds all that has come since the last one
      have hall : (s.chunks ++ [(out, s.received.length)]).flatMap (fun chunk => chunk.1.outputIds) =
          (s.received.take s.received.length).flatMap newIds := by
        rw [List.flatMap_append, h.outputIds, List.flatMap_singleton, hids, ← List.flatMap_append,
          List.take_append_drop, List.take_length]
      have htexts : ∀ chunk ∈ s.chunks ++ [(out, s.received.length)], ∀ text, chunk.1.text = some text →
          text = textSoFar (s.received.take chunk.2) := by
        intro chunk hchunk text hsome
        rcases List.mem_append.mp hchunk with hold | hnew
        · exact h.text chunk hold text hsome
        · obtain rfl := List.mem_singleton.mp hnew
          rw [List.take_length]
          exact htext text hsome
      have hcounted : ∀ chunk ∈ s.chunks ++ [(out, s.received.length)], chunk.2 ≤ s.received.length := by
        intro chunk hchunk
        rcases List.mem_append.mp hchunk with hold | hnew
        · exact h.counted chunk hold
        · obtain rfl := List.mem_singleton.mp hnew
          exact Nat.le_refl _
      have hdrained : ([] : List OutDict).flatMap OutDict.outputIds =
          (s.received.drop s.received.length).flatMap newIds := by
        rw [List.drop_length]
        rfl
      simp only [hlast] at hstep
      cases hfinished : s.state.finished with
      | true =>
        have hharmless : out.metaInfo.finishReason.bind FinishReason.failure = none := hreason ▸ h.harmless
        simp only [hfinished, hharmless, if_true] at hstep
        cases hstep
        refine ⟨⟨hall, htexts, fun _ => ?_⟩, h.stream, h.offset, h.stateText, Nat.le_refl _, hcounted,
          fun _ => hdrained, fun _ _ hnone => (by cases hnone), fun _ hlive' => ?_, hfinished ▸ h.finished, h.harmless,
          fun _ => h.known hfinished, fun _ => rfl⟩
        · obtain ⟨reason, hsome⟩ := Option.isSome_iff_exists.mp (h.finished.symm.trans hfinished)
          exact ⟨_, reason, List.getLast?_concat, hreason.trans hsome, hsome⟩
        · rcases hlive' with hlive' | hlive' <;> cases hlive'
      | false =>
        simp only [hfinished, h.stream, Bool.false_eq_true, if_false, if_true] at hstep
        cases hstep
        refine ⟨⟨hall, htexts, fun hended => ?_⟩, rfl, h.offset, h.stateText, Nat.le_refl _, hcounted,
          fun _ => hdrained, fun _ _ hnone => (by cases hnone), fun hnot => (by cases hnot), hfinished ▸ h.finished,
          h.harmless, fun hnot => (by cases hnot), fun hended => ?_⟩
        · rcases hended with hended | hended <;> cases hended
        · rcases hended with hended | hended <;> cases hended
  next => cases hstep

theorem step (h : StreamInv s) {label : StreamLabel} (hguard : FindsNoTokens args s label)
    (hstep : ResponseStream.step args label s = some s') : StreamInv s' := by
  cases label with
  | deliver recv => exact h.deliver hguard hstep
  | wake => exact h.wake hstep
  | timeout disconnected =>
    unfold ResponseStream.step ResponseStream.timeout at hstep
    simp only at hstep
    split at hstep
    next =>
      split at hstep
      next =>
        cases hstep
        have hnotLive : ∀ failure, ¬((ResponseConsumer.raised failure = .waiting) ∨ ResponseConsumer.raised failure = .yielded) := by
          simp
        exact ⟨⟨h.outputIds, h.text, fun hended => by rcases hended with hended | hended <;> cases hended⟩, h.stream,
          h.offset, h.stateText, h.consumed, h.counted, fun hlive => absurd hlive (hnotLive _),
          fun hlive => absurd hlive (hnotLive _), fun _ hlive => absurd hlive (hnotLive _), h.finished, h.harmless, h.known,
          fun hended => by rcases hended with hended | hended <;> cases hended⟩
      next =>
        cases hstep
        exact h
    next => cases hstep
  | next =>
    unfold ResponseStream.step ResponseStream.next at hstep
    simp only at hstep
    split at hstep
    next hyielded =>
      cases hstep
      have hlive : Live s := Or.inr hyielded
      exact ⟨⟨h.outputIds, h.text, fun hended => by rcases hended with hended | hended <;> cases hended⟩, h.stream,
        h.offset, h.stateText, h.consumed, h.counted, fun _ => h.waiting hlive, fun _ => h.newest hlive,
        fun hevent _ => h.event hevent hlive, h.finished, h.harmless, h.known,
        fun hended => by rcases hended with hended | hended <;> cases hended⟩
    next hlast =>
      cases hstep
      have hnotLive : ¬(ResponseConsumer.stopped = .waiting ∨ ResponseConsumer.stopped = .yielded) := by simp
      exact ⟨⟨h.outputIds, h.text, fun _ => h.last (Or.inl hlast)⟩, h.stream, h.offset, h.stateText, h.consumed,
        h.counted, fun hlive => absurd hlive hnotLive, fun hlive => absurd hlive hnotLive,
        fun _ hlive => absurd hlive hnotLive, h.finished, h.harmless, h.known, fun _ => h.ended (Or.inl hlast)⟩
    next => cases hstep

end StreamInv

/-- In every run whose messages find no chunk with tokens waiting, the chunks of a streaming request
hold all that was sent up to the last one. -/
theorem stream_complete {args : ServerOutputArgs} {rid : String} {s : ResponseStream}
    (h : (streamMachine args).Reach (FindsNoTokens args) (· = ResponseStream.new rid true) s) : StreamComplete s := by
  refine (Machine.Reach.invariant (fun s hs => ?_) (fun _ _ _ hinv hguard hstep => hinv.step hguard hstep) h
    : StreamInv s).toStreamComplete
  rw [hs]
  exact .new rid

/-! ### Two messages -/

def textArgs : ServerOutputArgs := ⟨false, "default"⟩

def textMessage (text : String) (token : Int) (finishedReason : Option FinishReason) : RecvOutput :=
  ⟨finishedReason, 3, 1, 0, none, .str text [token]⟩

def stopReason : FinishReason := ⟨"stop", "", none⟩

instance (s : ResponseStream) (label : StreamLabel) : Decidable (FindsNoTokens textArgs s label) := by
  unfold FindsNoTokens Increments Live
  split
  · split <;> infer_instance
  · infer_instance

/-- What the caller saw, and what was sent up to then. -/
def streamView (s : ResponseStream) : List Int × List (Option String) × List Int :=
  (s.chunks.flatMap fun chunk => chunk.1.outputIds, s.chunks.map fun chunk => chunk.1.text,
    (s.received.take s.consumed).flatMap newIds)

theorem stream_views :
    ((streamMachine textArgs).guardedRun (FindsNoTokens textArgs)
      [.deliver (textMessage "a" 7 none), .wake, .next, .deliver (textMessage "b" 8 (some stopReason)), .wake, .next]
      (.new "r" true)).map streamView = some ([7, 8], [some "a", some "ab"], [7, 8]) ∧
    ((streamMachine textArgs).run
      [.deliver (textMessage "a" 7 none), .deliver (textMessage "b" 8 (some stopReason)), .wake, .next]
      (.new "r" true)).map streamView = some ([8], [some "ab"], [7, 8]) := by
  decide +kernel

theorem stream_complete_two : ∃ s, StreamComplete s ∧ streamView s = ([7, 8], [some "a", some "ab"], [7, 8]) := by
  obtain ⟨s, hrun, hview⟩ := Option.map_eq_some_iff.mp stream_views.1
  have hreach : (streamMachine textArgs).Reach (FindsNoTokens textArgs) (· = ResponseStream.new "r" true) s :=
    Machine.Reach.of_guardedRun (.start rfl) hrun
  exact ⟨s, stream_complete hreach, hview⟩

/-- Both messages arrive before the generator runs: the first token is never yielded. -/
theorem early_chunk_lost : ∃ s, (streamMachine textArgs).Reach (fun _ _ => True) (· = ResponseStream.new "r" true) s ∧
    ¬StreamComplete s := by
  obtain ⟨s, hrun, hview⟩ := Option.map_eq_some_iff.mp stream_views.2
  have hreach : (streamMachine textArgs).Reach (fun _ _ => True) (· = ResponseStream.new "r" true) s :=
    Machine.Reach.of_run (fun _ _ _ => trivial) (.start rfl) hrun
  refine ⟨s, hreach, fun hcomplete => ?_⟩
  have hids := hcomplete.outputIds
  rw [show s.chunks.flatMap (fun chunk => chunk.1.outputIds) = [8] from congrArg Prod.fst hview,
    show (s.received.take s.consumed).flatMap newIds = [7, 8] from congrArg (fun view => view.2.2) hview] at hids
  exact absurd hids (by decide)

end QCFuse.Guarantees
