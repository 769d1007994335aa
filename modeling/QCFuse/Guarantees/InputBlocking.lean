import QCFuse.Library.Transition
import QCFuse.Source.InputBlocker

/-!
# Blocked input

The calls of `handle` on all ranks, against the requests in front of the first BLOCK whose barrier has not been
passed. A barrier is passed once every blocking rank was given the UNBLOCK; a BLOCK that a rank is given by then
finds the state machine of that rank in another state and fails its assertion.
-/

set_option autoImplicit false

namespace QCFuse.Guarantees

open QCFuse.Library QCFuse.Source

section Blocking

variable {ρ : Type}

def blockerMachine : Machine (List (BlockerRank ρ)) (List (Option (List (BlockerMsg ρ)))) where
  step recvReqs ranks := (handleAll ranks recvReqs).toOption

/-- Ranks that were just made. -/
def NewRanks (ranks : List (BlockerRank ρ)) : Prop :=
  ∀ rank ∈ ranks, rank = ⟨.new rank.blocker.noop, [], []⟩

def blocks : List (BlockerMsg ρ) → Nat
  | [] => 0
  | .block :: msgs => blocks msgs + 1
  | _ :: msgs => blocks msgs

def unblocks : List (BlockerMsg ρ) → Nat
  | [] => 0
  | .unblock :: msgs => unblocks msgs + 1
  | _ :: msgs => unblocks msgs

def requests : List (BlockerMsg ρ) → List ρ
  | [] => []
  | .req r :: msgs => r :: requests msgs
  | _ :: msgs => requests msgs

/-- The requests in front of the BLOCK behind the first `p` ones. -/
def released : Nat → List (BlockerMsg ρ) → List ρ
  | _, [] => []
  | p, .req r :: msgs => r :: released p msgs
  | p, .unblock :: msgs => released p msgs
  | 0, .block :: _ => []
  | p + 1, .block :: msgs => released p msgs

/-- The regions whose UNBLOCK every blocking rank has been given. -/
def passed (ranks : List (BlockerRank ρ)) : Nat :=
  ((ranks.filter fun rank => !rank.blocker.noop).map fun rank => unblocks rank.received).min?.getD 0

/-- BLOCK and UNBLOCK alternate, BLOCK first. -/
def Alternating (msgs : List (BlockerMsg ρ)) : Prop :=
  ∀ before ∈ msgs.inits, unblocks before ≤ blocks before ∧ blocks before ≤ unblocks before + 1

/-- What the ranks receive in a call: the no-op ranks nothing, the others the next messages of their sequence. -/
structure RegionCall (ranks : List (BlockerRank ρ)) (recvReqs : List (Option (List (BlockerMsg ρ)))) : Prop where
  length_eq : recvReqs.length = ranks.length
  isNone_eq : ∀ part ∈ ranks.zip recvReqs, part.2.isNone = part.1.blocker.noop
  alternating : ∀ part ∈ ranks.zip recvReqs, Alternating (part.1.received ++ part.2.getD [])

/-- A BLOCK reaches a rank in a call behind the one in which the last rank was given the UNBLOCK before it. -/
def BlocksBehindBarrier (ranks : List (BlockerRank ρ)) (recvReqs : List (Option (List (BlockerMsg ρ)))) : Prop :=
  ∀ part ∈ ranks.zip recvReqs, ∀ before after, part.2.getD [] = before ++ .block :: after →
    ∀ other ∈ ranks, other.blocker.noop = false → unblocks (part.1.received ++ before) ≤ unblocks other.received

instance (msgs : List (BlockerMsg ρ)) : Decidable (Alternating msgs) :=
  inferInstanceAs (Decidable (∀ before ∈ msgs.inits, _))

instance [DecidableEq ρ] (ranks : List (BlockerRank ρ)) (recvReqs : List (Option (List (BlockerMsg ρ)))) :
    Decidable (BlocksBehindBarrier ranks recvReqs) :=
  decidable_of_iff (∀ part ∈ ranks.zip recvReqs, ∀ before ∈ (part.2.getD []).inits,
      before ++ [.block] <+: part.2.getD [] → ∀ other ∈ ranks, other.blocker.noop = false →
        unblocks (part.1.received ++ before) ≤ unblocks other.received)
    ⟨fun h part hpart before after hsplit => h part hpart before ((List.mem_inits _ _).mpr ⟨_, hsplit.symm⟩)
        ⟨after, by rw [hsplit, List.append_assoc]; rfl⟩,
      fun h part hpart before _ ⟨after, hafter⟩ => h part hpart before after
        (by rw [← hafter, List.append_assoc]; rfl)⟩

theorem blocks_append (msgs msgs' : List (BlockerMsg ρ)) : blocks (msgs ++ msgs') = blocks msgs + blocks msgs' := by
  induction msgs with
  | nil => simp [blocks]
  | cons msg msgs ih => cases msg <;> simp [blocks, ih, Nat.add_right_comm]

theorem unblocks_append (msgs msgs' : List (BlockerMsg ρ)) :
    unblocks (msgs ++ msgs') = unblocks msgs + unblocks msgs' := by
  induction msgs with
  | nil => simp [unblocks]
  | cons msg msgs ih => cases msg <;> simp [unblocks, ih, Nat.add_right_comm]

theorem requests_append (msgs msgs' : List (BlockerMsg ρ)) :
    requests (msgs ++ msgs') = requests msgs ++ requests msgs' := by
  induction msgs with
  | nil => rfl
  | cons msg msgs ih => cases msg <;> simp [requests, ih]

/-- Without a further BLOCK all requests are released. -/
theorem released_eq_requests {p : Nat} {msgs : List (BlockerMsg ρ)} (h : blocks msgs ≤ p) :
    released p msgs = requests msgs := by
  induction msgs generalizing p with
  | nil => rfl
  | cons msg msgs ih =>
    cases msg with
    | block =>
      obtain ⟨p, rfl⟩ : ∃ k, p = k + 1 := ⟨p - 1, by simp [blocks] at h; omega⟩
      exact ih (Nat.le_of_succ_le_succ h)
    | unblock => exact ih h
    | req r => exact congrArg (r :: ·) (ih h)

theorem released_isPrefix (p : Nat) (msgs : List (BlockerMsg ρ)) : released p msgs <+: requests msgs := by
  induction msgs generalizing p with
  | nil => exact List.prefix_refl []
  | cons msg msgs ih =>
    cases msg with
    | block =>
      cases p with
      | zero => exact List.nil_prefix
      | succ p => exact ih p
    | unblock => exact ih p
    | req r => exact List.cons_prefix_cons.mpr ⟨rfl, ih p⟩

/-- Behind a BLOCK that is held nothing is released. -/
theorem released_append {p : Nat} {msgs : List (BlockerMsg ρ)} (h : p < blocks msgs) (msgs' : List (BlockerMsg ρ)) :
    released p (msgs ++ msgs') = released p msgs := by
  induction msgs generalizing p with
  | nil => cases h
  | cons msg msgs ih =>
    cases msg with
    | block =>
      cases p with
      | zero => rfl
      | succ p => exact ih (Nat.lt_of_succ_lt_succ h)
    | unblock => exact ih h
    | req r => exact congrArg (r :: ·) (ih h)

/-- The first BLOCK that is held. -/
theorem released_append_block {p : Nat} {msgs : List (BlockerMsg ρ)} (h : blocks msgs = p) :
    released p (msgs ++ [.block]) = requests msgs := by
  subst h
  induction msgs with
  | nil => rfl
  | cons msg msgs ih => cases msg <;> simp [blocks, requests, released, ih]

/-- The last one of a sequence fits the counts in front of it. -/
theorem Alternating.last {msgs : List (BlockerMsg ρ)} {msg : BlockerMsg ρ} {rest : List (BlockerMsg ρ)}
    (h : Alternating (msgs ++ msg :: rest)) : (msg = .block → blocks msgs = unblocks msgs) ∧
      (msg = .unblock → blocks msgs = unblocks msgs + 1) := by
  have hmsgs := h msgs ((List.mem_inits _ _).mpr ⟨msg :: rest, rfl⟩)
  have hmsg := h (msgs ++ [msg]) ((List.mem_inits _ _).mpr ⟨rest, by simp⟩)
  rw [blocks_append, unblocks_append] at hmsg
  refine ⟨?_, ?_⟩
  · rintro rfl
    simp [blocks, unblocks] at hmsg
    omega
  · rintro rfl
    simp [blocks, unblocks] at hmsg
    omega

/-- A blocker that was given `received` and has output `output`, where the ranks have passed `p` barriers. -/
structure Gated (p : Nat) (received : List (BlockerMsg ρ)) (output : List ρ) (b : SchedulerInputBlocker ρ) :
    Prop where
  noop : b.noop = false
  barrierNoop : b.globalUnblockBarrier.noop = false
  blocks_eq : blocks received = if b.state = .unblocked then p else p + 1
  unblocks_eq : unblocks received = if b.state = .globalUnblockBarrier then p + 1 else p
  arrived : b.globalUnblockBarrier.localArrived = decide (b.state = .globalUnblockBarrier)
  held : requests received = output ++ b.pendingReqs
  output_eq : output = released p received

namespace Gated

variable {p : Nat} {received : List (BlockerMsg ρ)} {output : List ρ} {b : SchedulerInputBlocker ρ}

theorem new (p : Nat) (received : List (BlockerMsg ρ)) (hblocks : blocks received = p)
    (hunblocks : unblocks received = p) {b : SchedulerInputBlocker ρ}
    (hb : b = ⟨.unblocked, [], false, ⟨false, false⟩⟩) :
    Gated p received (requests received) b where
  noop := by rw [hb]
  barrierNoop := by rw [hb]
  blocks_eq := by rw [hb]; exact hblocks
  unblocks_eq := by rw [hb]; exact hunblocks
  arrived := by rw [hb]; rfl
  held := by rw [hb]; exact (List.append_nil _).symm
  output_eq := (released_eq_requests hblocks.le).symm

/-- An unblocked rank holds nothing. -/
theorem pending_nil (h : Gated p received output b) (hstate : b.state = .unblocked) : b.pendingReqs = [] := by
  have hall : output = requests received := by
    rw [h.output_eq]
    exact released_eq_requests (by rw [h.blocks_eq, if_pos hstate])
  exact List.append_right_eq_self.mp (hall ▸ h.held).symm

theorem block (h : Gated p received output b) (hblocks : blocks received = unblocks received)
    (hpassed : unblocks received ≤ p) :
    ∃ b', b.handleRecvReq .block = .ok (b', []) ∧ Gated p (received ++ [.block]) output b' := by
  have hcounts := h.blocks_eq
  rw [hblocks, h.unblocks_eq] at hcounts
  have hpassed' := hpassed
  rw [h.unblocks_eq] at hpassed'
  have hstate : b.state = .unblocked := by
    cases hs : b.state with
    | unblocked => rfl
    | blocked => simp [hs] at hcounts
    | globalUnblockBarrier => simp [hs] at hpassed'
  have hp : blocks received = p := by rw [h.blocks_eq, if_pos hstate]
  refine ⟨{ b with state := .blocked }, ?_, ?_⟩
  · simp only [SchedulerInputBlocker.handleRecvReq, SchedulerInputBlocker.changeState, if_pos hstate]
    rfl
  · refine ⟨h.noop, h.barrierNoop, ?_, ?_, ?_, ?_, ?_⟩
    · rw [blocks_append, hp]
      rfl
    · rw [unblocks_append, ← hblocks, hp]
      rfl
    · rw [h.arrived, hstate]
      rfl
    · rw [requests_append, h.held]
      exact List.append_nil _
    · rw [released_append_block hp, h.output_eq]
      exact released_eq_requests hp.le

theorem unblock (h : Gated p received output b) (hblocks : blocks received = unblocks received + 1) :
    ∃ b', b.handleRecvReq .unblock = .ok (b', []) ∧ Gated p (received ++ [.unblock]) output b' := by
  have hcounts := h.blocks_eq
  rw [hblocks, h.unblocks_eq] at hcounts
  have hstate : b.state = .blocked := by
    cases hs : b.state with
    | unblocked => simp [hs] at hcounts
    | blocked => rfl
    | globalUnblockBarrier => simp [hs] at hcounts
  have harrived : b.globalUnblockBarrier.localArrived = false := by
    rw [h.arrived, hstate]
    rfl
  have hp : blocks received = p + 1 := by
    rw [h.blocks_eq, hstate]
    rfl
  refine ⟨{ b with
    state := .globalUnblockBarrier
    globalUnblockBarrier := { b.globalUnblockBarrier with localArrived := true } }, ?_, ?_⟩
  · simp only [SchedulerInputBlocker.handleRecvReq, SchedulerInputBlocker.changeState, if_pos hstate,
      PollBasedBarrier.localArrive, bind, Except.bind, harrived]
    rfl
  · refine ⟨h.noop, h.barrierNoop, ?_, ?_, rfl, ?_, ?_⟩
    · rw [blocks_append, hp]
      rfl
    · rw [unblocks_append, Nat.succ.inj (hblocks.symm.trans hp)]
      rfl
    · rw [requests_append, h.held]
      exact List.append_nil _
    · rw [released_append (by omega)]
      exact h.output_eq

theorem req (h : Gated p received output b) (r : ρ) :
    ∃ b' out, b.handleRecvReq (.req r) = .ok (b', out) ∧ Gated p (received ++ [.req r]) (output ++ out) b' := by
  by_cases hstate : b.state = .unblocked
  · have hp : blocks received = p := by rw [h.blocks_eq, if_pos hstate]
    refine ⟨b, [r], by rw [SchedulerInputBlocker.handleRecvReq, if_pos hstate], ⟨h.noop, h.barrierNoop, ?_, ?_,
      h.arrived, ?_, ?_⟩⟩
    · rw [blocks_append, h.blocks_eq]
      rfl
    · rw [unblocks_append, h.unblocks_eq]
      rfl
    · rw [requests_append, h.held, h.pending_nil hstate, List.append_nil, List.append_nil]
      rfl
    · rw [released_eq_requests (by rw [blocks_append, hp]; exact le_rfl), requests_append, h.held,
        h.pending_nil hstate, List.append_nil]
      rfl
  · have hp : blocks received = p + 1 := by rw [h.blocks_eq, if_neg hstate]
    refine ⟨{ b with pendingReqs := b.pendingReqs ++ [r] }, [],
      by rw [SchedulerInputBlocker.handleRecvReq, if_neg hstate], ⟨h.noop, h.barrierNoop, ?_, ?_, h.arrived, ?_, ?_⟩⟩
    · rw [blocks_append, h.blocks_eq]
      rfl
    · rw [unblocks_append, h.unblocks_eq]
      rfl
    · rw [requests_append, h.held, List.append_nil]
      exact List.append_assoc output _ _
    · rw [released_append (by omega), List.append_nil]
      exact h.output_eq

/-- A BLOCK that the state machine takes is behind the barrier. -/
theorem passed_of_block (h : Gated p received output b) {after : SchedulerInputBlocker ρ × List ρ}
    (hok : b.handleRecvReq .block = .ok after) : unblocks received ≤ p := by
  obtain ⟨b', hchange, -⟩ := bind_ok hok
  unfold SchedulerInputBlocker.changeState at hchange
  split at hchange
  next hstate =>
    rw [h.unblocks_eq, hstate]
    exact le_rfl
  next => cases hchange

/-- What a call hands to a blocking rank, up to the all-reduce. -/
theorem handleRecvReqs (msgs : List (BlockerMsg ρ)) (h : Gated p received output b)
    (halternating : Alternating (received ++ msgs))
    (hpassed : ∀ before after, msgs = before ++ .block :: after → unblocks (received ++ before) ≤ p) :
    ∃ b' out, b.handleRecvReqs msgs = .ok (b', out) ∧ Gated p (received ++ msgs) (output ++ out) b' := by
  induction msgs generalizing received output b with
  | nil => exact ⟨b, [], rfl, by rwa [List.append_nil, List.append_nil]⟩
  | cons msg msgs ih =>
    obtain ⟨b', out, hmsg, hgated⟩ : ∃ b' out, b.handleRecvReq msg = .ok (b', out) ∧
        Gated p (received ++ [msg]) (output ++ out) b' := by
      cases msg with
      | block =>
        have hp : unblocks (received ++ []) ≤ p := hpassed [] msgs rfl
        rw [List.append_nil] at hp
        obtain ⟨b', hmsg, hgated⟩ := h.block (halternating.last.1 rfl) hp
        exact ⟨b', [], hmsg, by rwa [List.append_nil]⟩
      | unblock =>
        obtain ⟨b', hmsg, hgated⟩ := h.unblock (halternating.last.2 rfl)
        exact ⟨b', [], hmsg, by rwa [List.append_nil]⟩
      | req r => exact h.req r
    obtain ⟨b'', outs, hmsgs, hgated'⟩ := ih hgated (by rwa [List.append_assoc])
      fun before after hsplit => by
        rw [List.append_assoc]
        exact hpassed (msg :: before) after (congrArg (msg :: ·) hsplit)
    refine ⟨b'', out ++ outs, ?_, ?_⟩
    · rw [SchedulerInputBlocker.handleRecvReqs, hmsg]
      simp only [bind, Except.bind, hmsgs]
      rfl
    · rwa [List.append_assoc, List.append_assoc] at hgated'

/-- Every BLOCK of a call that raises nothing is behind the barrier. -/
theorem passed_of_handleRecvReqs (msgs : List (BlockerMsg ρ)) (h : Gated p received output b)
    (halternating : Alternating (received ++ msgs)) {after : SchedulerInputBlocker ρ × List ρ}
    (hok : b.handleRecvReqs msgs = .ok after) :
    ∀ before after, msgs = before ++ .block :: after → unblocks (received ++ before) ≤ p := by
  induction msgs generalizing received output b after with
  | nil => exact fun before after hsplit => by cases before <;> cases hsplit
  | cons msg msgs ih =>
    obtain ⟨⟨b', out⟩, hmsg, hok⟩ := bind_ok hok
    obtain ⟨⟨b'', outs⟩, hmsgs, -⟩ := bind_ok hok
    have hp : msg = .block → unblocks received ≤ p := by
      rintro rfl
      exact h.passed_of_block hmsg
    obtain ⟨c, o, hrun, hgated⟩ := h.handleRecvReqs [msg] (fun before hmem => halternating before (by
        obtain ⟨rest, hrest⟩ := (List.mem_inits _ _).mp hmem
        exact (List.mem_inits _ _).mpr ⟨rest ++ msgs, by rw [← List.append_assoc, hrest, List.append_assoc]; rfl⟩))
      fun before after hsplit => by
        cases before with
        | nil =>
          rw [List.append_nil]
          exact hp (List.cons.inj hsplit).1
        | cons x xs => cases xs <;> cases (List.cons.inj hsplit).2
    have hc : c = b' := by
      rw [SchedulerInputBlocker.handleRecvReqs, hmsg] at hrun
      cases hrun
      rfl
    subst hc
    intro before after hsplit
    cases before with
    | nil =>
      rw [List.append_nil]
      exact hp (List.cons.inj hsplit).1
    | cons x xs =>
      have hrest := ih hgated (by rwa [List.append_assoc]) hmsgs xs after (List.cons.inj hsplit).2
      rwa [(List.cons.inj hsplit).1, List.append_assoc] at hrest

/-- Behind the all-reduce: where all ranks are at the barrier, it is passed and what was held is output. -/
theorem handleGlobal (h : Gated p received output b) {globalArrived : Bool}
    (harrived : globalArrived = true → b.state = .globalUnblockBarrier) :
    ∃ b' output', b.handleGlobal output globalArrived = .ok (b', output') ∧
      Gated (if globalArrived then p + 1 else p) received output' b' := by
  cases globalArrived with
  | false =>
    refine ⟨b, output, ?_, h⟩
    simp [SchedulerInputBlocker.handleGlobal, PollBasedBarrier.pollGlobalArrived]
  | true =>
    have hstate := harrived rfl
    have hlocal : b.globalUnblockBarrier.localArrived = true := by
      rw [h.arrived, hstate]
      rfl
    refine ⟨⟨.unblocked, [], false, ⟨false, false⟩⟩, requests received, ?_, .new (p + 1) received ?_ ?_ rfl⟩
    · have hnoop := h.noop
      have hbarrier := h.barrierNoop
      rw [h.held]
      obtain ⟨state, pending, noop, barrierNoop, localArrived⟩ := b
      dsimp only at hstate hlocal hnoop hbarrier
      subst hstate hlocal hnoop hbarrier
      rfl
    · rw [h.blocks_eq, hstate]
      rfl
    · rw [h.unblocks_eq, hstate]
      rfl

theorem le_unblocks (h : Gated p received output b) : p ≤ unblocks received := by
  rw [h.unblocks_eq]
  split <;> omega

end Gated

/-- A no-op rank receives nothing, outputs nothing and never arrives. -/
structure IdleRank (rank : BlockerRank ρ) : Prop where
  received : rank.received = []
  output : rank.output = []
  barrierNoop : rank.blocker.globalUnblockBarrier.noop = true
  localArrived : rank.blocker.globalUnblockBarrier.localArrived = false

/-- A rank where `p` barriers have been passed. -/
structure RankInv (p : Nat) (rank : BlockerRank ρ) : Prop where
  blocking : rank.blocker.noop = false → Gated p rank.received rank.output rank.blocker
  idle : rank.blocker.noop = true → IdleRank rank

/-- All ranks, where `p` barriers have been passed and the next one has not. -/
structure WorldInv (p : Nat) (ranks : List (BlockerRank ρ)) : Prop where
  rank : ∀ rank ∈ ranks, RankInv p rank
  next : (∃ rank ∈ ranks, rank.blocker.noop = false) →
    ∃ rank ∈ ranks, rank.blocker.noop = false ∧ unblocks rank.received = p

theorem handleLocal_noop {b b' : SchedulerInputBlocker ρ} {recvReqs : Option (List (BlockerMsg ρ))} {out : List ρ}
    (hnone : recvReqs = none) (h : b.handleLocal recvReqs = .ok (b', out)) : b' = b ∧ out = [] := by
  subst hnone
  unfold SchedulerInputBlocker.handleLocal at h
  split at h
  next => cases h
  next =>
    cases h
    exact ⟨rfl, rfl⟩

namespace RankInv

variable {p : Nat} {rank rank' : BlockerRank ρ} {recvReqs : Option (List (BlockerMsg ρ))}

/-- The part of a call up to the all-reduce raises nothing where every BLOCK is behind the barrier. -/
theorem local_spec (h : RankInv p rank) (hnone : recvReqs.isNone = rank.blocker.noop)
    (halternating : Alternating (rank.received ++ recvReqs.getD []))
    (hpassed : rank.blocker.noop = false → ∀ before after, recvReqs.getD [] = before ++ .block :: after →
      unblocks (rank.received ++ before) ≤ p) :
    ∃ rank', rank.local recvReqs = .ok rank' ∧ RankInv p rank' ∧ rank'.blocker.noop = rank.blocker.noop := by
  cases hnoop : rank.blocker.noop with
  | true =>
    obtain rfl : recvReqs = none := Option.isNone_iff_eq_none.mp (hnone.trans hnoop)
    refine ⟨rank, ?_, h, hnoop⟩
    simp [BlockerRank.local, SchedulerInputBlocker.handleLocal, hnoop, SchedulerInputBlocker.handleRecvReqs, bind,
      Except.bind, pure, Except.pure]
  | false =>
    obtain ⟨b', out, hrun, hgated⟩ := (h.blocking hnoop).handleRecvReqs _ halternating (hpassed hnoop)
    refine ⟨⟨b', rank.received ++ recvReqs.getD [], rank.output ++ out⟩, ?_, ⟨fun _ => hgated, fun htrue => ?_⟩,
      hgated.noop⟩
    · rw [hnoop] at hnone
      simp [BlockerRank.local, SchedulerInputBlocker.handleLocal, hnoop, hnone, hrun, bind, Except.bind, pure,
        Except.pure]
    · cases hgated.noop.symm.trans htrue

/-- Where it raises nothing, every BLOCK is behind the barrier. -/
theorem passed_of_local (h : RankInv p rank) (halternating : Alternating (rank.received ++ recvReqs.getD []))
    (hnoop : rank.blocker.noop = false) (hlocal : rank.local recvReqs = .ok rank') :
    ∀ before after, recvReqs.getD [] = before ++ .block :: after → unblocks (rank.received ++ before) ≤ p := by
  obtain ⟨⟨b', out⟩, hhandle, -⟩ := bind_ok hlocal
  unfold SchedulerInputBlocker.handleLocal at hhandle
  split at hhandle
  next => cases hhandle
  next => exact (h.blocking hnoop).passed_of_handleRecvReqs _ halternating hhandle

/-- What a rank gives to the all-reduce: a blocking rank is behind its UNBLOCK or not. -/
theorem arrivedFlag_iff (h : RankInv p rank) : rank.blocker.globalUnblockBarrier.arrivedFlag = true ↔
    (rank.blocker.noop = false → rank.blocker.state = .globalUnblockBarrier) := by
  cases hnoop : rank.blocker.noop with
  | true => simp [PollBasedBarrier.arrivedFlag, (h.idle hnoop).barrierNoop]
  | false => simp [PollBasedBarrier.arrivedFlag, (h.blocking hnoop).barrierNoop, (h.blocking hnoop).arrived]

/-- The part behind the all-reduce. -/
theorem global_spec (h : RankInv p rank) {globalArrived : Bool}
    (harrived : globalArrived = true → rank.blocker.globalUnblockBarrier.arrivedFlag = true) :
    ∃ rank', rank.global globalArrived = .ok rank' ∧ RankInv (if globalArrived then p + 1 else p) rank' ∧
      rank'.blocker.noop = rank.blocker.noop ∧ rank'.received = rank.received := by
  cases hnoop : rank.blocker.noop with
  | true =>
    have hidle := h.idle hnoop
    refine ⟨rank, ?_, ⟨fun hfalse => ?_, fun _ => hidle⟩, hnoop, rfl⟩
    · simp [BlockerRank.global, SchedulerInputBlocker.handleGlobal, PollBasedBarrier.pollGlobalArrived,
        hidle.localArrived, bind, Except.bind, pure, Except.pure]
    · cases hnoop.symm.trans hfalse
  | false =>
    have hgated := h.blocking hnoop
    obtain ⟨b', output', hglobal, hgated'⟩ := hgated.handleGlobal
      fun htrue => h.arrivedFlag_iff.mp (harrived htrue) hnoop
    refine ⟨⟨b', rank.received, output'⟩, ?_, ⟨fun _ => hgated', fun htrue => ?_⟩, hgated'.noop, rfl⟩
    · rw [BlockerRank.global, hglobal]
      rfl
    · cases hgated'.noop.symm.trans htrue

end RankInv

namespace WorldInv

variable {p : Nat} {ranks ranks' : List (BlockerRank ρ)} {recvReqs : List (Option (List (BlockerMsg ρ)))}

theorem passed_eq (h : WorldInv p ranks) (hblocking : ∃ rank ∈ ranks, rank.blocker.noop = false) :
    passed ranks = p := by
  obtain ⟨rank, hmem, hnoop, hp⟩ := h.next hblocking
  have hmin : ((ranks.filter fun rank => !rank.blocker.noop).map fun rank => unblocks rank.received).min? =
      some p := by
    refine List.min?_eq_some_iff.mpr ⟨List.mem_map.mpr ⟨rank, List.mem_filter.mpr ⟨hmem, by rw [hnoop]; rfl⟩, hp⟩, ?_⟩
    intro n hn
    obtain ⟨other, hother, rfl⟩ := List.mem_map.mp hn
    obtain ⟨hother, hfalse⟩ := List.mem_filter.mp hother
    exact (((h.rank other hother).blocking (by simpa using hfalse))).le_unblocks
  rw [passed, hmin]
  rfl

/-- A BLOCK is behind the barrier when it is behind the barriers passed. -/
theorem behind_iff (h : WorldInv p ranks) (hblocking : ∃ rank ∈ ranks, rank.blocker.noop = false) {n : Nat} :
    (∀ other ∈ ranks, other.blocker.noop = false → n ≤ unblocks other.received) ↔ n ≤ p := by
  refine ⟨fun hall => ?_, fun hn other hmem hnoop => hn.trans ((h.rank other hmem).blocking hnoop).le_unblocks⟩
  obtain ⟨rank, hmem, hnoop, hp⟩ := h.next hblocking
  exact hp ▸ hall rank hmem hnoop

/-- The all-reduce and what is behind it. -/
theorem global_spec (hranks : ∀ rank ∈ ranks, RankInv p rank) {globalArrived : Bool}
    (harrived : globalArrived = ranks.all fun rank => rank.blocker.globalUnblockBarrier.arrivedFlag) :
    ∃ ranks', ranks.mapM (BlockerRank.global globalArrived) = .ok ranks' ∧
      WorldInv (if globalArrived then p + 1 else p) ranks' := by
  have hspec : ∀ rank ∈ ranks, ∃ rank', rank.global globalArrived = .ok rank' ∧
      RankInv (if globalArrived then p + 1 else p) rank' ∧
      rank'.blocker.noop = rank.blocker.noop ∧ rank'.received = rank.received := fun rank hmem =>
    (hranks rank hmem).global_spec fun htrue => List.all_eq_true.mp (harrived.symm.trans htrue) rank hmem
  obtain ⟨ranks', hrun⟩ := mapM_exists fun rank hmem => (hspec rank hmem).imp fun _ hrank => hrank.1
  have hback : ∀ rank' ∈ ranks', ∃ rank ∈ ranks, RankInv (if globalArrived then p + 1 else p) rank' ∧
      rank'.blocker.noop = rank.blocker.noop ∧ rank'.received = rank.received := by
    intro rank' hmem'
    obtain ⟨rank, hmem, hglobal⟩ := (mapM_mem hrun).2 rank' hmem'
    obtain ⟨_, hglobal', hrank⟩ := hspec rank hmem
    cases hglobal.symm.trans hglobal'
    exact ⟨rank, hmem, hrank⟩
  refine ⟨ranks', hrun, fun rank' hmem' => ?_, fun ⟨rank', hmem', hnoop'⟩ => ?_⟩
  · obtain ⟨rank, -, hrank, -⟩ := hback rank' hmem'
    exact hrank
  · cases globalArrived with
    | true =>
      obtain ⟨rank, hmem, hrank, hnoop, hreceived⟩ := hback rank' hmem'
      have hfalse : rank.blocker.noop = false := hnoop.symm.trans hnoop'
      have hflag := List.all_eq_true.mp harrived.symm rank hmem
      refine ⟨rank', hmem', hnoop', ?_⟩
      rw [hreceived, ((hranks rank hmem).blocking hfalse).unblocks_eq,
        if_pos ((hranks rank hmem).arrivedFlag_iff.mp hflag hfalse), if_pos rfl]
    | false =>
      -- A rank that has not arrived is a blocking one that was not given the UNBLOCK.
      obtain ⟨rank, hmem, hflag⟩ := List.all_eq_false.mp harrived.symm
      rw [(hranks rank hmem).arrivedFlag_iff, Classical.not_imp] at hflag
      obtain ⟨moved, hglobal, -, hnoop, hreceived⟩ := hspec rank hmem
      obtain ⟨hlen, hget⟩ := mapM_ok hrun
      obtain ⟨i, hi, rfl⟩ := List.mem_iff_getElem.mp hmem
      have hi' : i < ranks'.length := hlen ▸ hi
      obtain rfl : ranks'[i] = moved := Except.ok.inj ((hget i hi hi').symm.trans hglobal)
      refine ⟨ranks'[i], List.getElem_mem hi', hnoop.trans hflag.1, ?_⟩
      rw [hreceived, ((hranks _ hmem).blocking hflag.1).unblocks_eq, if_neg hflag.2]
      rfl

/-- Ranks that were just made have passed no barrier. -/
theorem new (h : NewRanks ranks) : WorldInv 0 ranks := by
  refine ⟨fun rank hmem => ⟨fun hnoop => ?_, fun hnoop => ?_⟩, fun ⟨rank, hmem, hnoop⟩ => ⟨rank, hmem, hnoop, ?_⟩⟩
  · rw [h rank hmem]
    exact .new 0 [] rfl rfl (by rw [hnoop]; rfl)
  · rw [h rank hmem]
    exact ⟨rfl, rfl, hnoop, rfl⟩
  · rw [h rank hmem]
    rfl

/-- A call of `handle` on all ranks raises nothing where every BLOCK is behind the barrier. -/
theorem handleAll_spec (h : WorldInv p ranks) (hcall : RegionCall ranks recvReqs)
    (hbehind : BlocksBehindBarrier ranks recvReqs) :
    ∃ ranks', handleAll ranks recvReqs = .ok ranks' ∧ ∃ p', WorldInv p' ranks' := by
  have hspec : ∀ part ∈ ranks.zip recvReqs, ∃ rank', part.1.local part.2 = .ok rank' ∧ RankInv p rank' ∧
      rank'.blocker.noop = part.1.blocker.noop := by
    intro part hpart
    have hmem := (List.of_mem_zip hpart).1
    exact (h.rank part.1 hmem).local_spec (hcall.isNone_eq part hpart) (hcall.alternating part hpart)
      fun hnoop before after hsplit =>
        (h.behind_iff ⟨part.1, hmem, hnoop⟩).mp (hbehind part hpart before after hsplit)
  obtain ⟨middle, hlocal⟩ := mapM_exists fun part hpart => (hspec part hpart).imp fun _ hrank => hrank.1
  have hmiddle : ∀ rank ∈ middle, RankInv p rank := by
    intro rank hmem
    obtain ⟨part, hpart, hrun⟩ := (mapM_mem hlocal).2 rank hmem
    obtain ⟨_, hrun', hinv, -⟩ := hspec part hpart
    cases hrun.symm.trans hrun'
    exact hinv
  obtain ⟨ranks', hglobal, hinv⟩ := global_spec hmiddle rfl
  refine ⟨ranks', ?_, _, hinv⟩
  rw [handleAll, hlocal]
  exact hglobal

/-- Where it raises nothing, every BLOCK is behind the barrier. -/
theorem behind_of_handleAll (h : WorldInv p ranks) (hcall : RegionCall ranks recvReqs)
    (hok : handleAll ranks recvReqs = .ok ranks') : BlocksBehindBarrier ranks recvReqs := by
  obtain ⟨middle, hlocal, -⟩ := bind_ok hok
  intro part hpart before after hsplit other hother hnoop
  have hmem := (List.of_mem_zip hpart).1
  obtain ⟨rank', hrun⟩ := (mapM_mem hlocal).1 part hpart
  have hblocking : part.1.blocker.noop = false := by
    rw [← hcall.isNone_eq part hpart]
    cases hnone : part.2 with
    | none =>
      rw [hnone] at hsplit
      cases before <;> cases hsplit
    | some msgs => rfl
  have hp := (h.rank part.1 hmem).passed_of_local (hcall.alternating part hpart) hblocking hrun before after hsplit
  exact (h.behind_iff ⟨part.1, hmem, hblocking⟩).mpr hp other hother hnoop

end WorldInv

/-- A call in which every BLOCK is behind the barrier of the region before. -/
def GuardedCall (ranks : List (BlockerRank ρ)) (recvReqs : List (Option (List (BlockerMsg ρ)))) : Prop :=
  RegionCall ranks recvReqs ∧ BlocksBehindBarrier ranks recvReqs

/-- In every run whose BLOCKs are behind the barriers, each rank has output, in order and once each, the requests in
front of the first BLOCK whose region has not ended on all ranks; and a further call raises nothing exactly when its
BLOCKs are behind the barriers. -/
theorem blocked_input_kept {ranks : List (BlockerRank ρ)} (h : blockerMachine.Reach GuardedCall NewRanks ranks) :
    (∀ rank ∈ ranks, rank.output = released (passed ranks) rank.received ∧ rank.output <+: requests rank.received ∧
      (blocks rank.received ≤ passed ranks → rank.output = requests rank.received)) ∧
    ∀ recvReqs, RegionCall ranks recvReqs →
      ((∃ ranks', handleAll ranks recvReqs = .ok ranks') ↔ BlocksBehindBarrier ranks recvReqs) := by
  have hinitial : ∀ s : List (BlockerRank ρ), NewRanks s → ∃ p, WorldInv p s := fun s hnew => ⟨0, .new hnew⟩
  obtain ⟨p, hinv⟩ : ∃ p, WorldInv p ranks := by
    refine Machine.Reach.invariant hinitial ?_ h
    rintro s s' recvReqs ⟨p, hinv⟩ ⟨hcall, hbehind⟩ hstep
    obtain ⟨ranks', hok, hkept⟩ := hinv.handleAll_spec hcall hbehind
    have hstep' : (handleAll s recvReqs).toOption = some s' := hstep
    rw [hok] at hstep'
    cases hstep'
    exact hkept
  refine ⟨fun rank hmem => ?_, fun recvReqs hcall => ⟨fun ⟨_, hok⟩ => hinv.behind_of_handleAll hcall hok,
    fun hbehind => (hinv.handleAll_spec hcall hbehind).imp fun _ hspec => hspec.1⟩⟩
  have houtput : rank.output = released (passed ranks) rank.received := by
    cases hnoop : rank.blocker.noop with
    | true =>
      have hidle := (hinv.rank rank hmem).idle hnoop
      rw [hidle.received, hidle.output]
      rfl
    | false =>
      rw [hinv.passed_eq ⟨rank, hmem, hnoop⟩]
      exact ((hinv.rank rank hmem).blocking hnoop).output_eq
  exact ⟨houtput, houtput ▸ released_isPrefix _ _, fun hended => houtput.trans (released_eq_requests hended)⟩

end Blocking

/-! ### Two blocking ranks and a no-op rank -/

def threeRanks : List (BlockerRank Nat) := [⟨.new false, [], []⟩, ⟨.new true, [], []⟩, ⟨.new false, [], []⟩]

/-- The first rank is given the UNBLOCK, the third one only the BLOCK. -/
def firstCall : List (Option (List (BlockerMsg Nat))) :=
  [some [.req 1, .block, .req 2, .unblock, .req 3], none, some [.block, .req 7]]

def secondCall : List (Option (List (BlockerMsg Nat))) := [some [], none, some [.req 8, .unblock]]

/-- Between the calls the first rank holds what it received behind the BLOCK, the last request included. -/
def betweenCalls : List (BlockerRank Nat) :=
  [⟨⟨.globalUnblockBarrier, [2, 3], false, ⟨false, true⟩⟩, [.req 1, .block, .req 2, .unblock, .req 3], [1]⟩,
    ⟨.new true, [], []⟩, ⟨⟨.blocked, [7], false, ⟨false, false⟩⟩, [.block, .req 7], []⟩]

def behindCalls : List (BlockerRank Nat) :=
  [⟨.new false, [.req 1, .block, .req 2, .unblock, .req 3], [1, 2, 3]⟩, ⟨.new true, [], []⟩,
    ⟨.new false, [.block, .req 7, .req 8, .unblock], [7, 8]⟩]

theorem betweenCalls_reached : blockerMachine.Reach GuardedCall NewRanks betweenCalls := by
  have hnew : NewRanks threeRanks := by
    intro rank hmem
    simp only [threeRanks, List.mem_cons, List.not_mem_nil, or_false] at hmem
    rcases hmem with rfl | rfl | rfl <;> rfl
  have hfirst : GuardedCall threeRanks firstCall := ⟨⟨rfl, by decide, by decide⟩, by decide⟩
  have hstep : blockerMachine.step firstCall threeRanks = some betweenCalls := rfl
  exact .step (.start hnew) hfirst hstep

theorem behindCalls_reached : blockerMachine.Reach GuardedCall NewRanks behindCalls := by
  have hsecond : GuardedCall betweenCalls secondCall := ⟨⟨rfl, by decide, by decide⟩, by decide⟩
  have hstep : blockerMachine.step secondCall betweenCalls = some behindCalls := rfl
  exact .step betweenCalls_reached hsecond hstep

theorem blocked_input_kept_three :
    behindCalls.map BlockerRank.output = behindCalls.map fun rank => requests rank.received := by
  have hended : ∀ rank ∈ behindCalls, blocks rank.received ≤ passed behindCalls := by decide
  exact List.map_congr_left fun rank hmem =>
    ((blocked_input_kept behindCalls_reached).1 rank hmem).2.2 (hended rank hmem)

/-- A region that starts in the call in which the one before ends, and one that starts while another rank has not
ended the one before. -/
theorem next_region_raises :
    (∃ msgs : List (BlockerMsg Nat), Alternating msgs ∧
      handleAll [⟨.new false, [], []⟩] [some msgs] = .error (.runtimeError "AssertionError")) ∧
    blockerMachine.Reach GuardedCall NewRanks betweenCalls ∧
      RegionCall betweenCalls [some [.block], none, some []] ∧
      handleAll betweenCalls [some [.block], none, some []] = .error (.runtimeError "AssertionError") :=
  ⟨⟨[.block, .unblock, .block], by decide, rfl⟩, betweenCalls_reached, ⟨rfl, by decide, by decide⟩, rfl⟩

end QCFuse.Guarantees
