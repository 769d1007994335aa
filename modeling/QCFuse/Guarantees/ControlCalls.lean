import Mathlib.Data.List.Nodup
import QCFuse.Library.Transition
import QCFuse.Source.Communicator

/-!
# Control calls get their own answers

Calls of a communicator against deliveries and wake-ups in any order. A queueing call that begins
while a woken one has not run yet, and a watching call that joins another, break it.
-/

set_option autoImplicit false

namespace QCFuse.Guarantees

open QCFuse.Library QCFuse.Source

inductive ControlLabel where
  | call (id : Nat) (sends : Bool)
  | resume (id : Nat)
  | deliver

namespace ControlLoop

def step : ControlLabel → ControlLoop → Option ControlLoop
  | .call id sends, w => w.call id sends
  | .resume id, w => w.resume id
  | .deliver, w => w.deliver

end ControlLoop

def controlMachine : Machine ControlLoop ControlLabel where
  step := ControlLoop.step

/-- A queueing call begins with no woken call waiting to run; a watching call begins alone. -/
def BeginsApart (w : ControlLoop) : ControlLabel → Prop
  | .call _ _ =>
    match w.communicator.mode with
    | .queueing => ∀ id sends, w.phase id ≠ .ready sends
    | .watching => w.communicator.resultEvent = none
  | _ => True

/-- The first answers of a message. -/
def answers (message count : Nat) : List CallResult := (List.range count).map fun k => (message, k)

/-- What every control call may rely on. -/
structure AnswersOwn (w : ControlLoop) : Prop where
  noFailure : ∀ id failure, w.phase id ≠ .failed failure
  received : w.recvFailed = false
  inFlight : w.sent.length ≤ 1
  returned : ∀ id event values, w.phase id = .returned event values →
    values = some (answers event w.communicator.fanOut) ∧ (w.communicator.mode = .queueing → event = id)

theorem answers_succ (message count : Nat) : answers message (count + 1) = answers message count ++ [(message, count)] := by
  rw [answers, List.range_succ, List.map_append]
  rfl

theorem answers_length (message count : Nat) : (answers message count).length = count := by
  rw [answers, List.length_map, List.length_range]

/-! ## The invariant -/

/-- What has come back of the message in flight. -/
inductive OnTheWay (w : ControlLoop) (message : Nat) : Prop
  | nothing : w.sent = [] → w.communicator.resultValues = some [] → message ∉ w.setEvents → OnTheWay w message
  | some (count : Nat) : count < w.communicator.fanOut ∨ count = 0 → w.sent = [(message, count)] →
      w.communicator.resultValues = some (answers message count) → message ∉ w.setEvents → OnTheWay w message
  | all : w.sent = [] → w.communicator.resultValues = some (answers message w.communicator.fanOut) →
      OnTheWay w message

structure ControlInv (w : ControlLoop) : Prop extends AnswersOwn w where
  idle : w.communicator.resultEvent = none → w.communicator.resultValues = none ∧ w.sent = [] ∧
    ∀ id event, w.phase id ≠ .awaitResult event
  busy : ∀ message, w.communicator.resultEvent = some message → OnTheWay w message ∧
    (∀ id sends, w.phase id ≠ .ready sends) ∧ ∀ id event, w.phase id = .awaitResult event → id = message ∧ event = message
  sender : ∀ message, w.communicator.resultEvent = some message → w.phase message = .awaitResult message
  oneReady : ∀ id id' sends sends', w.phase id = .ready sends → w.phase id' = .ready sends' → id = id'
  queued : ∀ id ∈ w.communicator.readyQueue, ∃ sends, w.phase id = .awaitReady sends
  queue : w.communicator.readyQueue.Nodup
  watching : w.communicator.mode = .watching → w.communicator.readyQueue = [] ∧ ∀ id sends, w.phase id ≠ .ready sends
  events : ∀ event ∈ w.setEvents, (∃ e, w.phase event = .awaitResult e) ∨ ∃ e values, w.phase event = .returned e values

namespace ControlInv

variable {w w' : ControlLoop}

theorem new (fanOut : Nat) (mode : CommunicatorMode) : ControlInv (ControlLoop.new fanOut mode) where
  noFailure _ _ h := by cases h
  received := rfl
  inFlight := Nat.zero_le 1
  returned _ _ _ h := by cases h
  idle _ := ⟨rfl, rfl, fun _ _ h => by cases h⟩
  busy _ h := by cases h
  sender _ h := by cases h
  oneReady _ _ _ _ h := by cases h
  queued _ h := by cases h
  queue := List.nodup_nil
  watching _ := ⟨rfl, fun _ _ h => by cases h⟩
  events _ h := by cases h

/-- A call that starts alone: nothing is in flight and no call is woken but itself. -/
theorem begin (h : ControlInv w) {id : Nat} {sends : Bool} (hidle : w.communicator.resultEvent = none)
    (hphase : w.phase id = .idle ∨ ∃ s, w.phase id = .ready s)
    (hready : ∀ other s, other ≠ id → w.phase other ≠ .ready s) : ControlInv (w.begin id sends) := by
  obtain ⟨hvalues, hsent, hawait⟩ := h.idle hidle
  have hnotSet : id ∉ w.setEvents := by
    intro hmem
    rcases h.events id hmem with ⟨e, he⟩ | ⟨e, values, he⟩ <;> rcases hphase with hp | ⟨s, hp⟩ <;>
      rw [he] at hp <;> cases hp
  have hother : ∀ other p, other ≠ id → (w.begin id sends).phase other = p → w.phase other = p := by
    intro other p hne hp
    exact (Function.update_of_ne hne _ _).symm.trans hp
  have hself : (w.begin id sends).phase id = .awaitResult id := Function.update_self id _ _
  have hready' : ∀ other s, (w.begin id sends).phase other ≠ .ready s := by
    intro other s hp
    by_cases hne : other = id
    · subst hne
      rw [hself] at hp
      cases hp
    · exact hready other s hne (hother other _ hne hp)
  have hflight : OnTheWay (w.begin id sends) id := by
    cases sends with
    | false => exact .nothing hsent rfl hnotSet
    | true =>
      refine .some 0 (Or.inr rfl) ?_ rfl hnotSet
      show w.sent ++ [(id, 0)] = [(id, 0)]
      rw [hsent]
      rfl
  refine ⟨⟨fun other f hp => ?_, h.received, ?_, fun other e v hp => ?_⟩, fun hnone => (by cases hnone),
    fun message hm => ?_, fun message hm => Option.some.inj hm ▸ hself, fun i _ s _ hi _ => absurd hi (hready' i s),
    fun other hmem => ?_, h.queue, fun hw => ⟨(h.watching hw).1, hready'⟩, fun event hmem => ?_⟩
  · by_cases hne : other = id
    · subst hne
      rw [hself] at hp
      cases hp
    · exact h.noFailure other f (hother other _ hne hp)
  · cases sends with
    | false =>
      show w.sent.length ≤ 1
      rw [hsent]
      exact Nat.zero_le 1
    | true =>
      show (w.sent ++ [(id, 0)]).length ≤ 1
      rw [hsent]
      exact Nat.le_refl 1
  · by_cases hne : other = id
    · subst hne
      rw [hself] at hp
      cases hp
    · exact h.returned other e v (hother other _ hne hp)
  · obtain rfl := Option.some.inj hm
    refine ⟨hflight, hready', fun other e hp => ?_⟩
    by_cases hne : other = id
    · subst hne
      rw [hself] at hp
      cases hp
      exact ⟨rfl, rfl⟩
    · exact absurd (hother other _ hne hp) (hawait other e)
  · obtain ⟨s, hs⟩ := h.queued other hmem
    have hne : other ≠ id := by
      rintro rfl
      rcases hphase with hp | ⟨s', hp⟩ <;> rw [hs] at hp <;> cases hp
    exact ⟨s, (Function.update_of_ne hne _ _).trans hs⟩
  · by_cases hne : event = id
    · subst hne
      exact absurd hmem hnotSet
    · rcases h.events event hmem with ⟨e, he⟩ | ⟨e, v, he⟩
      · exact absurd he (hawait event e)
      · exact Or.inr ⟨e, v, (Function.update_of_ne hne _ _).trans he⟩

/-- A call that waits its turn changes only its own phase. -/
theorem wait (h : ControlInv w) {id : Nat} {sends : Bool} (hphase : w.phase id = .idle)
    (hmode : w.communicator.mode = .queueing) : ControlInv { w with
      communicator := { w.communicator with readyQueue := w.communicator.readyQueue ++ [id] }
      phase := Function.update w.phase id (.awaitReady sends) } := by
  have hself : Function.update w.phase id (.awaitReady sends) id = .awaitReady sends := Function.update_self id _ _
  have hother : ∀ other p, p ≠ .awaitReady sends → Function.update w.phase id (.awaitReady sends) other = p →
      w.phase other = p := by
    intro other p hp hupdate
    by_cases hne : other = id
    · subst hne
      exact absurd (hself.symm.trans hupdate).symm hp
    · exact (Function.update_of_ne hne _ _).symm.trans hupdate
  have hkeep : ∀ other, w.phase other ≠ .idle →
      Function.update w.phase id (.awaitReady sends) other = w.phase other := by
    intro other hne
    refine Function.update_of_ne (fun heq => hne ?_) _ _
    rw [heq, hphase]
  refine ⟨⟨fun other f hp => h.noFailure other f (hother other _ (by simp) hp), h.received, h.inFlight,
    fun other e v hp => h.returned other e v (hother other _ (by simp) hp)⟩, fun hnone => ?_, fun message hm => ?_,
    fun message hm => (hkeep message (by rw [h.sender message hm]; simp)).trans (h.sender message hm),
    fun a b s s' ha hb => h.oneReady a b s s' (hother a _ (by simp) ha) (hother b _ (by simp) hb), fun other hmem => ?_,
    ?_, fun hw => ?_, fun event hmem => ?_⟩
  · obtain ⟨hvalues, hsent, hawait⟩ := h.idle hnone
    exact ⟨hvalues, hsent, fun other e hp => hawait other e (hother other _ (by simp) hp)⟩
  · obtain ⟨hflight, hready, hawait⟩ := h.busy message hm
    refine ⟨?_, fun other s hp => hready other s (hother other _ (by simp) hp),
      fun other e hp => hawait other e (hother other _ (by simp) hp)⟩
    cases hflight with
    | nothing hsent hvalues hset => exact .nothing hsent hvalues hset
    | some count hlt hsent hvalues hset => exact .some count hlt hsent hvalues hset
    | all hsent hvalues => exact .all hsent hvalues
  · rcases List.mem_append.mp hmem with hold | hnew
    · obtain ⟨s, hs⟩ := h.queued other hold
      exact ⟨s, (hkeep other (by rw [hs]; simp)).trans hs⟩
    · obtain rfl := List.mem_singleton.mp hnew
      exact ⟨sends, hself⟩
  · refine List.Nodup.append h.queue (List.nodup_singleton id) (List.disjoint_singleton.mpr fun hmem => ?_)
    obtain ⟨s, hs⟩ := h.queued id hmem
    rw [hphase] at hs
    cases hs
  · rw [show w.communicator.mode = .watching from hw] at hmode
    cases hmode
  · rcases h.events event hmem with ⟨e, he⟩ | ⟨e, v, he⟩
    · exact Or.inl ⟨e, (hkeep event (by rw [he]; simp)).trans he⟩
    · exact Or.inr ⟨e, v, (hkeep event (by rw [he]; simp)).trans he⟩

/-- The call whose event is set gets all answers to its message. -/
theorem finish (h : ControlInv w) {id event : Nat} (hphase : w.phase id = .awaitResult event)
    (hset : event ∈ w.setEvents) :
    ControlInv (w.finish id event) ∧ ∀ other s, (w.finish id event).phase other ≠ .ready s := by
  obtain ⟨message, hm⟩ : ∃ message, w.communicator.resultEvent = some message := by
    refine Option.ne_none_iff_exists'.mp fun hnone => ?_
    exact (h.idle hnone).2.2 id event hphase
  obtain ⟨hflight, hready, hawait⟩ := h.busy message hm
  obtain ⟨hid, hevent⟩ := hawait id event hphase
  have hall : w.sent = [] ∧ w.communicator.resultValues = some (answers event w.communicator.fanOut) := by
    cases hflight with
    | nothing hsent hvalues hnot => exact absurd (hevent ▸ hset) hnot
    | some count hlt hsent hvalues hnot => exact absurd (hevent ▸ hset) hnot
    | all hsent hvalues => exact ⟨hsent, hevent ▸ hvalues⟩
  have hself : (w.finish id event).phase id = .returned event w.communicator.resultValues := Function.update_self id _ _
  have hother : ∀ other p, other ≠ id → (w.finish id event).phase other = p → w.phase other = p := by
    intro other p hne hp
    exact (Function.update_of_ne hne _ _).symm.trans hp
  have hready' : ∀ other s, (w.finish id event).phase other ≠ .ready s := by
    intro other s hp
    by_cases hne : other = id
    · subst hne
      rw [hself] at hp
      cases hp
    · exact hready other s (hother other _ hne hp)
  refine ⟨⟨⟨fun other f hp => ?_, h.received, h.inFlight, fun other e v hp => ?_⟩,
    fun _ => ⟨rfl, hall.1, fun other e hp => ?_⟩, fun _ hnone => (by cases hnone),
    fun _ hnone => (by cases hnone), fun a _ s _ ha _ => absurd ha (hready' a s), fun other hmem => ?_, h.queue,
    fun hw => ⟨(h.watching hw).1, hready'⟩, fun other hmem => ?_⟩, hready'⟩
  · by_cases hne : other = id
    · subst hne
      rw [hself] at hp
      cases hp
    · exact h.noFailure other f (hother other _ hne hp)
  · by_cases hne : other = id
    · subst hne
      rw [hself] at hp
      cases hp
      exact ⟨hall.2, fun _ => hevent.trans hid.symm⟩
    · exact h.returned other e v (hother other _ hne hp)
  · by_cases hne : other = id
    · subst hne
      rw [hself] at hp
      cases hp
    · exact hne ((hawait other e (hother other _ hne hp)).1.trans hid.symm)
  · obtain ⟨s, hs⟩ := h.queued other hmem
    have hne : other ≠ id := by
      rintro rfl
      rw [hphase] at hs
      cases hs
    exact ⟨s, (Function.update_of_ne hne _ _).trans hs⟩
  · by_cases hne : other = id
    · subst hne
      exact Or.inr ⟨_, _, hself⟩
    · rcases h.events other hmem with ⟨e, he⟩ | ⟨e, v, he⟩
      · exact absurd ((hawait other e he).1.trans hid.symm) hne
      · exact Or.inr ⟨e, v, (Function.update_of_ne hne _ _).trans he⟩

/-- The next call in the queue becomes the only one that is woken. -/
theorem wakeNext (h : ControlInv w) (hidle : w.communicator.resultEvent = none)
    (hready : ∀ other s, w.phase other ≠ .ready s) : ControlInv w.wakeNext := by
  unfold ControlLoop.wakeNext
  cases hqueue : w.communicator.readyQueue with
  | nil => exact h
  | cons next rest =>
    obtain ⟨sends, hnext⟩ := h.queued next (hqueue ▸ List.mem_cons_self)
    obtain ⟨hvalues, hsent, hawait⟩ := h.idle hidle
    have hnodup := h.queue
    rw [hqueue] at hnodup
    obtain ⟨hnot, hrest⟩ := List.nodup_cons.mp hnodup
    simp only [hnext]
    have hself : Function.update w.phase next (.ready sends) next = .ready sends := Function.update_self next _ _
    have hother : ∀ other p, (∀ s, p ≠ .ready s) → Function.update w.phase next (.ready sends) other = p →
        w.phase other = p := by
      intro other p hp hupdate
      by_cases hne : other = next
      · subst hne
        exact absurd (hself.symm.trans hupdate).symm (hp sends)
      · exact (Function.update_of_ne hne _ _).symm.trans hupdate
    have hone : ∀ other s, Function.update w.phase next (.ready sends) other = .ready s → other = next := by
      intro other s hp
      by_contra hne
      exact hready other s ((Function.update_of_ne hne _ _).symm.trans hp)
    have hkeep : ∀ other, other ≠ next → Function.update w.phase next (.ready sends) other = w.phase other :=
      fun other hne => Function.update_of_ne hne _ _
    refine ⟨⟨fun other f hp => h.noFailure other f (hother other _ (by simp) hp), h.received, h.inFlight,
      fun other e v hp => h.returned other e v (hother other _ (by simp) hp)⟩,
      fun _ => ⟨hvalues, hsent, fun other e hp => hawait other e (hother other _ (by simp) hp)⟩,
      fun message hm => ?_, fun message hm => ?_, fun a b s s' ha hb => (hone a s ha).trans (hone b s' hb).symm, fun other hmem => ?_, hrest,
      fun hw => ?_, fun event hmem => ?_⟩
    · rw [show w.communicator.resultEvent = some message from hm] at hidle
      cases hidle
    · rw [show w.communicator.resultEvent = some message from hm] at hidle
      cases hidle
    · obtain ⟨s, hs⟩ := h.queued other (hqueue ▸ List.mem_cons_of_mem _ hmem)
      exact ⟨s, (hkeep other fun heq => hnot (heq ▸ hmem)).trans hs⟩
    · rw [(h.watching hw).1] at hqueue
      cases hqueue
    · have hne : event ≠ next := by
        rintro rfl
        rcases h.events event hmem with ⟨e, he⟩ | ⟨e, v, he⟩ <;> rw [hnext] at he <;> cases he
      rcases h.events event hmem with ⟨e, he⟩ | ⟨e, v, he⟩
      · exact Or.inl ⟨e, (hkeep event hne).trans he⟩
      · exact Or.inr ⟨e, v, (hkeep event hne).trans he⟩

/-- An answer goes to the end of the list of the message in flight. -/
theorem deliver (h : ControlInv w) (hstep : w.deliver = some w') : ControlInv w' := by
  unfold ControlLoop.deliver at hstep
  cases hsent : w.sent with
  | nil =>
    rw [hsent] at hstep
    cases hstep
  | cons head rest =>
    obtain ⟨message, answered⟩ := head
    rw [hsent] at hstep
    simp only at hstep
    split at hstep
    next hlt =>
      obtain ⟨current, hm⟩ : ∃ current, w.communicator.resultEvent = some current := by
        refine Option.ne_none_iff_exists'.mp fun hnone => ?_
        rw [(h.idle hnone).2.1] at hsent
        cases hsent
      obtain ⟨hflight, hready, hawait⟩ := h.busy current hm
      cases hflight with
      | nothing hnil _ _ =>
        rw [hnil] at hsent
        cases hsent
      | all hnil _ =>
        rw [hnil] at hsent
        cases hsent
      | some count hcount hone hvalues hset =>
        rw [hone] at hsent
        cases hsent
        have hstep' := (Option.some.inj hstep).symm
        simp only [ControlLoop.handleRecv, hvalues, hm, answers_length] at hstep'
        have hflight' : OnTheWay w' message := by
          rw [hstep', ← answers_succ]
          by_cases hlast : answered + 1 = w.communicator.fanOut
          · refine .all (if_pos hlast) ?_
            rw [← hlast]
          · refine .some (answered + 1) (Or.inl (Nat.lt_of_le_of_ne hlt hlast)) (if_neg hlast) rfl ?_
            rw [if_neg hlast]
            exact hset
        rw [hstep'] at hflight' ⊢
        refine ⟨⟨h.noFailure, h.received, ?_, h.returned⟩, fun hnone => (by cases hnone),
          fun current hcurrent => ?_, fun current hcurrent => Option.some.inj hcurrent ▸ h.sender message hm, h.oneReady,
          h.queued, h.queue, h.watching, fun event hmem => ?_⟩
        · show (if answered + 1 = w.communicator.fanOut then [] else [(message, answered + 1)]).length ≤ 1
          split
          next => exact Nat.zero_le 1
          next => exact Nat.le_refl 1
        · obtain rfl := Option.some.inj hcurrent
          exact ⟨hflight', hready, hawait⟩
        · have hcases : event = message ∨ event ∈ w.setEvents := by
            have hmem' : event ∈ if answered + 1 = w.communicator.fanOut then message :: w.setEvents else w.setEvents :=
              hmem
            split at hmem'
            next => exact List.mem_cons.mp hmem'
            next => exact Or.inr hmem'
          rcases hcases with rfl | hold
          · exact Or.inl ⟨_, h.sender event hm⟩
          · exact h.events event hold
    next => cases hstep

theorem call (h : ControlInv w) {id : Nat} {sends : Bool} (hguard : BeginsApart w (.call id sends))
    (hstep : w.call id sends = some w') : ControlInv w' := by
  unfold ControlLoop.call at hstep
  split at hstep
  next hphase =>
    unfold BeginsApart at hguard
    cases hmode : w.communicator.mode with
    | queueing =>
      simp only [hmode] at hstep hguard
      cases hstep
      unfold ControlLoop.queueingCall
      split
      next => exact h.wait hphase hmode
      next hfree =>
        rw [not_or] at hfree
        exact h.begin (Option.not_isSome_iff_eq_none.mp hfree.1) (Or.inl hphase) fun other s _ => hguard other s
    | watching =>
      simp only [hmode] at hstep hguard
      cases hstep
      unfold ControlLoop.watchingCall
      rw [hguard]
      simp only
      rw [if_pos (by rw [(h.idle hguard).1]; rfl)]
      exact h.begin hguard (Or.inl hphase) fun other s _ => (h.watching hmode).2 other s
  next => cases hstep

theorem resume (h : ControlInv w) {id : Nat} (hstep : w.resume id = some w') : ControlInv w' := by
  unfold ControlLoop.resume at hstep
  cases hphase : w.phase id with
  | ready sends =>
    have hidle : w.communicator.resultEvent = none := by
      refine Option.eq_none_iff_forall_not_mem.mpr fun message hm => ?_
      exact (h.busy message hm).2.1 id sends hphase
    rw [hphase] at hstep
    cases hstep
    unfold ControlLoop.queueingResume
    rw [if_pos ⟨by rw [hidle]; rfl, by rw [(h.idle hidle).1]; rfl⟩]
    exact h.begin hidle (Or.inr ⟨sends, hphase⟩) fun other s hne hready =>
      hne (h.oneReady other id s sends hready hphase)
  | awaitResult event =>
    rw [hphase] at hstep
    simp only at hstep
    split at hstep
    next hset =>
      cases hstep
      obtain ⟨hfinish, hready⟩ := h.finish hphase hset
      unfold ControlLoop.resultResume
      cases w.communicator.mode with
      | queueing => exact hfinish.wakeNext rfl hready
      | watching => exact hfinish
    next => cases hstep
  | idle | awaitReady _ | returned _ _ | failed _ =>
    rw [hphase] at hstep
    cases hstep

theorem step (h : ControlInv w) {label : ControlLabel} (hguard : BeginsApart w label)
    (hstep : ControlLoop.step label w = some w') : ControlInv w' := by
  cases label with
  | call id sends => exact h.call hguard hstep
  | resume id => exact h.resume hstep
  | deliver => exact h.deliver hstep

end ControlInv

/-- In every run whose calls begin apart, every call gets the answers to its own message. -/
theorem control_calls_answered {fanOut : Nat} {mode : CommunicatorMode} {w : ControlLoop}
    (h : controlMachine.Reach BeginsApart (· = ControlLoop.new fanOut mode) w) : AnswersOwn w := by
  refine (Machine.Reach.invariant (fun w hw => ?_) (fun _ _ _ hinv hguard hstep => hinv.step hguard hstep) h
    : ControlInv w).toAnswersOwn
  rw [hw]
  exact .new fanOut mode

/-! ### Two calls -/

/-- Two calls, the second of which waits. -/
def twoCallers : ControlLoop := ((ControlLoop.new 2 .queueing).begin 0 true).queueingCall 1 true

/-- The answers to the first message, its call, the woken call, and the answers to the second. -/
def twoAnswers : List ControlLabel :=
  [.deliver, .deliver, .resume 0, .resume 1, .deliver, .deliver, .resume 1]

theorem twoCallers_reached : controlMachine.Reach BeginsApart (· = ControlLoop.new 2 .queueing) twoCallers := by
  have hfirst : controlMachine.step (.call 0 true) (ControlLoop.new 2 .queueing) =
      some ((ControlLoop.new 2 .queueing).begin 0 true) := rfl
  have hsecond : controlMachine.step (.call 1 true) ((ControlLoop.new 2 .queueing).begin 0 true) = some twoCallers := rfl
  have hstart : BeginsApart (ControlLoop.new 2 .queueing) (.call 0 true) := fun id sends hready => (by cases hready)
  have hwait : BeginsApart ((ControlLoop.new 2 .queueing).begin 0 true) (.call 1 true) := by
    intro id sends hready
    by_cases hid : id = 0
    · subst hid
      cases hready
    · cases (Function.update_of_ne hid _ _).symm.trans hready
  exact .step (.step (.start rfl) hstart hfirst) hwait hsecond

theorem two_calls_answered : ∃ w, AnswersOwn w ∧ w.phase 0 = .returned 0 (some [(0, 0), (0, 1)]) ∧
    w.phase 1 = .returned 1 (some [(1, 0), (1, 1)]) := by
  have hview : (controlMachine.run twoAnswers twoCallers).map (fun w => (w.phase 0, w.phase 1)) =
      some (.returned 0 (some [(0, 0), (0, 1)]), .returned 1 (some [(1, 0), (1, 1)])) := by decide +kernel
  obtain ⟨w, hrun, hphases⟩ := Option.map_eq_some_iff.mp hview
  have hguard : ∀ label ∈ twoAnswers, ∀ w, BeginsApart w label := by simp [twoAnswers, BeginsApart]
  exact ⟨w, control_calls_answered (.of_run hguard twoCallers_reached hrun), congrArg Prod.fst hphases,
    congrArg Prod.snd hphases⟩

/-- A call between the wake-up of a queued call and its turn. -/
def overtaking : List ControlLabel := [.call 0 true, .call 1 true, .deliver, .resume 0, .call 2 true, .resume 1]

/-- A call that joins the one in flight. -/
def joining : List ControlLabel := [.call 0 true, .call 1 true, .deliver, .resume 0, .resume 1]

/-- The queued call that is overtaken fails, and the watching call that joined gets nothing. -/
theorem overtaken_and_joined_calls_break :
    (∃ w, controlMachine.Reach (fun _ _ => True) (· = ControlLoop.new 1 .queueing) w ∧
      w.phase 1 = .failed .assertionError) ∧
    ∃ w, controlMachine.Reach (fun _ _ => True) (· = ControlLoop.new 1 .watching) w ∧
      w.phase 1 = .returned 0 none := by
  have hqueueing : (controlMachine.run overtaking (ControlLoop.new 1 .queueing)).map (fun w => w.phase 1) =
      some (.failed .assertionError) := by decide +kernel
  have hwatching : (controlMachine.run joining (ControlLoop.new 1 .watching)).map (fun w => w.phase 1) =
      some (.returned 0 none) := by decide +kernel
  obtain ⟨w, hrun, hphase⟩ := Option.map_eq_some_iff.mp hqueueing
  obtain ⟨w', hrun', hphase'⟩ := Option.map_eq_some_iff.mp hwatching
  exact ⟨⟨w, .of_run (fun _ _ _ => trivial) (.start rfl) hrun, hphase⟩,
    ⟨w', .of_run (fun _ _ _ => trivial) (.start rfl) hrun', hphase'⟩⟩

end QCFuse.Guarantees
