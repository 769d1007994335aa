import QCFuse.Guarantees.ExpertRebalancing

/-!
# The loads the balancer is given

When the experts are rebalanced, the circular buffer holds the last passes, all of them routed with the maps
that the record is read with, so the loads are the tokens of these passes.
-/

set_option autoImplicit false

namespace QCFuse.Guarantees

open QCFuse.Library QCFuse.Source

variable {W : Type} {config : EplbConfig} {gpus : GpuShape}

/-! ## The circular buffer -/

/-- Seen from the place of the next write, a write drops the oldest value and adds the newest. -/
theorem rotate_set {α : Type} {xs : List α} {i : Nat} (hi : i < xs.length) (x : α) :
    (xs.set i x).rotate ((i + 1) % xs.length) = (xs.rotate i).tail ++ [x] := by
  have hset : xs.set i x = (xs.take i ++ [x]) ++ xs.drop (i + 1) := by
    rw [List.set_eq_take_append_cons_drop, if_pos hi, List.append_assoc]
    rfl
  have hlength : (xs.take i ++ [x]).length = i + 1 := by
    rw [List.length_append, List.length_take, Nat.min_eq_left (Nat.le_of_lt hi)]
    rfl
  have hrotate : (xs.rotate i).tail = xs.drop (i + 1) ++ xs.take i := by
    rw [List.rotate_eq_drop_append_take (Nat.le_of_lt hi), List.drop_eq_getElem_cons hi]
    rfl
  have hsame : (xs.set i x).length = xs.length := List.length_set
  rw [hrotate, List.append_assoc]
  calc (xs.set i x).rotate ((i + 1) % xs.length)
      = (xs.set i x).rotate (i + 1) := by
        rw [← hsame, List.rotate_mod]
    _ = ((xs.take i ++ [x]) ++ xs.drop (i + 1)).rotate (xs.take i ++ [x]).length := by rw [hset, hlength]
    _ = xs.drop (i + 1) ++ (xs.take i ++ [x]) := List.rotate_append_length_eq ..

/-! ## The passes that the record is of -/

/-- The newest counts are those of the newest passes, routed with the maps as they are; either there are no
other counts, or the counting has not gone further than these passes. -/
structure RecordsLast (config : EplbConfig) (size : Nat) (history : List (PassInput W)) (state : EplbState W)
    (buffer : List PassCount) (currIndex : Nat) (older counts : List PassCount) (fresh : List (PassInput W)) :
    Prop where
  circular : state.buffer = .circular buffer currIndex
  bound : currIndex < buffer.length
  length : buffer.length = size
  window : buffer.rotate currIndex = older ++ counts
  counted : List.Forall₂ (CountsTokens config state.metadata) fresh counts
  suffix : fresh <:+ history
  reached : older = [] ∨ ∀ done, state.phase = .counting done → done ≤ fresh.length + 1

def Records (config : EplbConfig) (size : Nat) (history : List (PassInput W)) (state : EplbState W) : Prop :=
  ∃ buffer currIndex older counts fresh, RecordsLast config size history state buffer currIndex older counts fresh

variable {size : Nat} {history : List (PassInput W)} {state after : EplbState W}

/-- Where the counting begins no count is known to be fresh. -/
theorem Records.begins {buffer : List PassCount} {currIndex : Nat}
    (hbuffer : state.buffer = .circular buffer currIndex) (hbound : currIndex < buffer.length)
    (hlength : buffer.length = size) (hphase : ∀ done, state.phase = .counting done → done ≤ 1) :
    Records config size history state :=
  ⟨buffer, currIndex, buffer.rotate currIndex, [], [], hbuffer, hbound, hlength, (List.append_nil _).symm, .nil,
    List.nil_suffix, .inr hphase⟩

/-- A pass is recorded. -/
theorem Records.append (h : Records config size history state) {input : PassInput W} {count : PassCount}
    (hcount : CountsTokens config state.metadata input count) {recorded : CountBuffer}
    (happend : state.buffer.append count = .ok recorded) :
    ∃ buffer currIndex older counts fresh,
      RecordsLast config size (history ++ [input]) { state with buffer := recorded } buffer currIndex older counts
        fresh ∧ (older = [] ∨ ∀ done, state.phase = .counting done → done ≤ fresh.length) := by
  obtain ⟨buffer, currIndex, older, counts, fresh, h⟩ := h
  rw [h.circular, CountBuffer.append, if_pos h.bound] at happend
  obtain rfl := Except.ok.inj happend
  have hpos : 0 < buffer.length := Nat.lt_of_le_of_lt (Nat.zero_le _) h.bound
  have hbound : (currIndex + 1) % buffer.length < (buffer.set currIndex count).length := by
    rw [List.length_set]
    exact Nat.mod_lt _ hpos
  have hlength : (buffer.set currIndex count).length = size := by rw [List.length_set, h.length]
  have hwindow := rotate_set h.bound count
  rw [h.window] at hwindow
  cases older with
  | nil =>
    -- all counts are fresh, and the oldest is dropped
    have hcounted : List.Forall₂ (CountsTokens config state.metadata) (fresh.tail ++ [input])
        (counts.tail ++ [count]) := by
      refine List.rel_append ?_ (.cons hcount .nil)
      cases h.counted with
      | nil => exact .nil
      | cons hhead htail => exact htail
    have hsuffix : fresh.tail ++ [input] <:+ history ++ [input] :=
      List.suffix_append_self_iff.mpr ((List.tail_suffix fresh).trans h.suffix)
    exact ⟨_, _, [], counts.tail ++ [count], fresh.tail ++ [input],
      ⟨rfl, hbound, hlength, hwindow, hcounted, hsuffix, .inl rfl⟩, .inl rfl⟩
  | cons oldest older =>
    have hreached := h.reached.resolve_left (List.cons_ne_nil _ _)
    have hcounted : List.Forall₂ (CountsTokens config state.metadata) (fresh ++ [input]) (counts ++ [count]) :=
      List.rel_append h.counted (.cons hcount .nil)
    have hsuffix : fresh ++ [input] <:+ history ++ [input] := List.suffix_append_self_iff.mpr h.suffix
    have hlen : (fresh ++ [input]).length = fresh.length + 1 := List.length_append
    have hdone : ∀ done, state.phase = .counting done → done ≤ (fresh ++ [input]).length := fun done hdone => by
      rw [hlen]
      exact hreached done hdone
    rw [List.cons_append, List.tail_cons, List.append_assoc] at hwindow
    exact ⟨_, _, older, counts ++ [count], fresh ++ [input],
      ⟨rfl, hbound, hlength, hwindow, hcounted, hsuffix,
        .inr fun done hphase => Nat.le_succ_of_le (hdone done hphase)⟩, .inr hdone⟩

/-- The end of a pass leaves the record as it is, or the counting begins again. -/
theorem Records.step (h : Records config size history state) {input : PassInput W} {count : PassCount}
    (hcount : CountsTokens config state.metadata input count) {recorded : CountBuffer}
    (happend : state.buffer.append count = .ok recorded)
    (hcounting : CountsOn config { state with buffer := recorded } after) :
    Records config size (history ++ [input]) after := by
  obtain ⟨buffer, currIndex, older, counts, fresh, hrecord, hdone⟩ := h.append hcount happend
  have hcircular : recorded = .circular buffer currIndex := hrecord.circular
  rcases hcounting with ⟨done, hphase, -, rfl⟩ | ⟨hbuffer, hphase⟩
  · refine ⟨buffer, currIndex, older, counts, fresh, hrecord.circular, hrecord.bound, hrecord.length, hrecord.window,
      hrecord.counted, hrecord.suffix, hdone.imp_right fun hle next hnext => ?_⟩
    obtain rfl := EplbPhase.counting.inj hnext
    exact Nat.succ_le_succ (hle done hphase)
  · have hbegins : ∀ done, after.phase = .counting done → done ≤ 1 := fun done hdone => (hphase done hdone).le
    rcases hbuffer with hbuffer | hbuffer
    · exact .begins (hbuffer.trans hcircular) hrecord.bound hrecord.length hbegins
    · have hreset : after.buffer = .circular (buffer.map fun _ => 0) currIndex := by
        rw [hbuffer]
        exact congrArg CountBuffer.reset hcircular
      refine .begins hreset ?_ ?_ hbegins
      · rw [List.length_map]
        exact hrecord.bound
      · rw [List.length_map, hrecord.length]

theorem eplbRun_records {R : Type} (sort : DescendingSort) (random : PyRandom R) {expert : Nat → Nat → Nat → W}
    (hfits : ConfigFits config gpus) {inputs : List (PassInput W)}
    (hinputs : ∀ input ∈ inputs, InputFits config input) (hinv : EplbInvariant config gpus expert state)
    (h : Records config size history state) :
    ∃ after, eplbRun sort random config inputs state = .ok (some after) ∧ EplbInvariant config gpus expert after ∧
      Records config size (history ++ inputs) after := by
  induction inputs generalizing state history with
  | nil => exact ⟨state, rfl, hinv, (List.append_nil history).symm ▸ h⟩
  | cons input inputs ih =>
    obtain ⟨count, buffer, next, hcount, hbuffer, -, hnext, hinv, hcounting⟩ :=
      eplbStep_ok sort random hfits hinv (hinputs input List.mem_cons_self)
    obtain ⟨after, hafter, hinv, hrecords⟩ := ih (fun other hother => hinputs other (List.mem_cons_of_mem _ hother))
      hinv (h.step hcount hbuffer hcounting)
    refine ⟨after, ?_, hinv, ?_⟩
    · simp only [eplbRun, hnext, bind, Except.bind]
      exact hafter
    · rwa [List.append_assoc] at hrecords

/-! ## The loads -/

theorem tokensPerExpert_row {metadata : ExpertLocationMetadata} (h : ExpertsLocated config.toEpArgs gpus metadata)
    {l : Nat} (hl : l < config.numLayers) (buffer : CountBuffer) :
    (tokensPerExpert config.epSize metadata buffer)[l]? = some fun logical : Nat =>
      (((buffer.getAll.map fun pass =>
        dumpedCount config.epSize (metadata.physicalToLogicalMap.getD l []) l pass logical).sum : Nat) : Rat) := by
  have hlt : l < metadata.physicalToLogicalMap.length := h.physical.symm ▸ hl
  rw [tokensPerExpert, List.getElem?_map, List.getElem?_zipIdx, List.getElem?_eq_getElem hlt,
    List.getD_eq_getElem _ _ hlt, Nat.zero_add]
  rfl

theorem map_dumpedCount {metadata : ExpertLocationMetadata} {passes : List (PassInput W)} {counts : List PassCount}
    (h : List.Forall₂ (CountsTokens config metadata) passes counts) {l : Nat} (hl : l ∈ config.allLayerIds)
    (e : Nat) :
    (counts.map fun pass => dumpedCount config.epSize (metadata.physicalToLogicalMap.getD l []) l pass e) =
      passes.map fun pass => routedTokens config pass l e := by
  induction h with
  | nil => rfl
  | cons hcount _ ih => rw [List.map_cons, List.map_cons, ih, hcount l hl e]

/-- What is read when the counting is over: the buffer is full of fresh counts. -/
theorem Records.loads (h : Records config size history state)
    (hlocated : ExpertsLocated config.toEpArgs gpus state.metadata) {input : PassInput W} {count : PassCount}
    (hcount : CountsTokens config state.metadata input count) {recorded : CountBuffer}
    (happend : state.buffer.append count = .ok recorded) {done : Nat} (hphase : state.phase = .counting done)
    (hsize : size ≤ done) {l : Nat} (hl : l ∈ config.allLayerIds) (hlt : l < config.numLayers) :
    ∃ loads, (tokensPerExpert config.epSize state.metadata recorded)[l]? = some loads ∧
      ∀ e, loads e =
        ((((history ++ [input]).rtake size).map fun pass => routedTokens config pass l e).sum : Nat) := by
  obtain ⟨buffer, currIndex, older, counts, fresh, hrecord, hdone⟩ := h.append hcount happend
  have hcircular : recorded = .circular buffer currIndex := hrecord.circular
  have hlengths := congrArg List.length hrecord.window
  rw [List.length_rotate, hrecord.length, List.length_append, ← hrecord.counted.length_eq] at hlengths
  have holder : older = [] := by
    rcases hdone with hnil | hdone
    · exact hnil
    · have hreached := hdone done hphase
      exact List.eq_nil_of_length_eq_zero (by omega)
  rw [holder, List.length_nil, Nat.zero_add] at hlengths
  have hfresh : fresh = (history ++ [input]).rtake size := by
    rw [List.rtake, hlengths]
    exact List.suffix_iff_eq_drop.mp hrecord.suffix
  have hwindow := hrecord.window
  rw [holder, List.nil_append] at hwindow
  refine ⟨_, tokensPerExpert_row hlocated hlt recorded, fun e => ?_⟩
  have hperm : buffer.Perm counts := hwindow ▸ (List.rotate_perm buffer currIndex).symm
  rw [hcircular, CountBuffer.getAll, (hperm.map _).sum_eq, map_dumpedCount hrecord.counted hl, hfresh]

theorem Records.start {metadata : ExpertLocationMetadata} {weights : Nat → Nat → ExpertTensors W}
    (hsize : 0 < config.expertDistributionRecorderBufferSize) :
    Records config config.expertDistributionRecorderBufferSize.toNat [] (.start config metadata weights) := by
  refine .begins (if_neg (not_lt.mpr hsize.le)) ?_ List.length_replicate fun done hdone => ?_
  · rw [List.length_replicate]
    omega
  · obtain rfl := EplbPhase.counting.inj hdone
    exact Nat.zero_le 1

-- the two passes end the counting, so the next one rebalances
example : (do
    let metadata ← initByMapping inOrder twoRanks.toEpArgs [[0, 1, 1, 0]]
    let state ← eplbRun stableSort inOrder twoRanks (List.replicate 2 bothExperts)
      (.start twoRanks metadata twoRanksWeights)
    return state.map EplbState.phase : Except UpdaterError (Option EplbPhase)) = .ok (some (.counting 2)) := by
  rfl

end QCFuse.Guarantees
