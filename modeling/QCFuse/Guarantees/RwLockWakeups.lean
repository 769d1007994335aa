import Mathlib.Data.List.Perm.Basic
import QCFuse.Source.RwLock

/-!
# Exclusion and wake-ups of the read-write lock

Exclusion and the counts hold in every run. A wake-up is lost when a writer that was woken is cancelled before its
turn: the readers in front of it have gone back to sleep for it, and it lowers the count without a notification.
-/

set_option autoImplicit false

namespace QCFuse.Guarantees

open QCFuse.Library QCFuse.Source

/-- Nobody holds the lock. -/
def NoHolder (l : RwLock) : Prop := l.readHolders = 0 ∧ l.writeHolders = 0

/-- The tasks in `acquire_writer`. -/
def writersIn (l : RwLock) : Nat := l.sleeping.count .writer + (l.ready.map Prod.fst).count .writer

/-- A writer holds the lock alone. -/
def Exclusive (l : RwLock) : Prop := l.writeHolders ≤ 1 ∧ (0 < l.writeHolders → l.readHolders = 0)

/-- The counts of the lock are those of its tasks. -/
structure CountsHold (l : RwLock) : Prop where
  readers : l.readers = l.readHolders
  active : l.writerActive = true ↔ 0 < l.writeHolders
  waiting : l.waitingWriters = writersIn l

/-- A task sleeps, and nobody is there to wake it. -/
structure LostWakeup (l : RwLock) : Prop where
  noHolder : NoHolder l
  nobody : l.ready = [] ∧ l.lockWaiters = []
  asleep : l.sleeping ≠ []

/-- A woken task that is not cancelled. -/
def Alive (ready : List (RwRole × Bool)) : Prop := ∃ entry ∈ ready, entry.2 = false

/-- While nobody holds the lock and a task sleeps: the last waiting writer does not raise, and without a waiting writer
no woken task is cancelled, unless another woken task that is not cancelled still has its turn. -/
def LeavesWaker (l : RwLock) : RwLabel → Prop
  | .resume => ∀ ready, l.ready = (.writer, true) :: ready → NoHolder l → l.sleeping ≠ [] → l.waitingWriters ≤ 1 →
      Alive ready
  | .cancelReady i => NoHolder l → l.sleeping ≠ [] → l.waitingWriters ≤ 0 → Alive (l.ready.eraseIdx i)
  | _ => True

/-! ### The counts -/

/-- The counts, where `extra` writers are on their way out of a wait. -/
structure RwCounts (extra : Nat) (l : RwLock) : Prop where
  readers : l.readers = l.readHolders
  active : l.writeHolders = if l.writerActive then 1 else 0
  exclusive : l.writerActive = true → l.readHolders = 0
  waiting : l.waitingWriters = (writersIn l + extra : Nat)
  awake : NoHolder l → RwRole.writer ∉ l.sleeping

theorem RwCounts.noHolder_iff {extra : Nat} {l : RwLock} (h : RwCounts extra l) :
    NoHolder l ↔ l.writerActive = false ∧ l.readers = 0 := by
  have hreaders := h.readers
  have hactive := h.active
  unfold NoHolder
  cases hl : l.writerActive <;> rw [hl] at hactive <;> simp at hactive ⊢ <;> omega

theorem writersIn_wait (role : RwRole) (l : RwLock) :
    writersIn (l.wait role) = writersIn l + if role = .writer then 1 else 0 := by
  unfold writersIn RwLock.wait RwLock.unlock
  cases role
  · simp
  · simp
    omega

theorem writersIn_notifyAll (l : RwLock) : writersIn l.notifyAll.unlock = writersIn l := by
  unfold writersIn RwLock.notifyAll RwLock.unlock
  simp [List.map_append, List.count_append, Function.comp_def]
  omega

theorem readerLoop_counts {l : RwLock} (h : RwCounts 0 l) : RwCounts 0 l.readerLoop := by
  unfold RwLock.readerLoop
  split
  next =>
    refine ⟨h.readers, h.active, h.exclusive, ?_, fun hnone => ?_⟩
    · rw [writersIn_wait]
      exact h.waiting
    · have hawake := h.awake hnone
      simpa [RwLock.wait, RwLock.unlock] using hawake
  next hfree =>
    rw [not_or] at hfree
    have hreaders := h.readers
    refine ⟨?_, h.active, fun hactive => absurd hactive hfree.1, h.waiting, fun hnone => ?_⟩
    · simp only [RwLock.unlock]
      omega
    · exact absurd hnone.1 (Nat.succ_ne_zero _)

theorem writerLoop_counts {l : RwLock} (h : RwCounts 1 l) : RwCounts 0 l.writerLoop := by
  unfold RwLock.writerLoop
  split
  next hheld =>
    refine ⟨h.readers, h.active, h.exclusive, ?_, fun hnone => ?_⟩
    · rw [writersIn_wait]
      exact h.waiting
    · obtain ⟨hactive, hreaders⟩ := h.noHolder_iff.mp hnone
      rcases hheld with hheld | hheld
      · rw [hactive] at hheld
        cases hheld
      · omega
  next hfree =>
    rw [not_or] at hfree
    have hreaders := h.readers
    have hactive := h.active
    have hwaiting := h.waiting
    rw [if_neg hfree.1] at hactive
    refine ⟨h.readers, ?_, fun _ => ?_, ?_, fun hnone => ?_⟩
    · simp [RwLock.unlock, hactive]
    · simp only [RwLock.unlock]
      omega
    · have hsame : writersIn (RwLock.unlock { l with
          writerActive := true
          waitingWriters := l.waitingWriters - 1
          writeHolders := l.writeHolders + 1 }) = writersIn l := rfl
      simp only [RwLock.unlock] at hsame ⊢
      omega
    · exact absurd hnone.2 (Nat.succ_ne_zero _)

theorem releaseReader_counts {l : RwLock} (h : RwCounts 0 l) (hholds : 0 < l.readHolders) :
    RwCounts 0 l.releaseReader := by
  have hreaders := h.readers
  have hactive : ¬ l.writerActive = true := fun hactive => by
    have hnone := h.exclusive hactive
    omega
  unfold RwLock.releaseReader
  dsimp only
  split
  next hlast =>
    refine ⟨?_, h.active, fun hheld => absurd hheld hactive, ?_, fun _ => List.not_mem_nil⟩
    · simp only [RwLock.notifyAll, RwLock.unlock]
      omega
    · rw [writersIn_notifyAll]
      exact h.waiting
  next hmore =>
    refine ⟨?_, h.active, fun hheld => absurd hheld hactive, h.waiting, fun hnone => ?_⟩
    · simp only [RwLock.unlock]
      omega
    · have hzero : l.readHolders - 1 = 0 := hnone.1
      omega

theorem releaseWriter_counts {l : RwLock} (h : RwCounts 0 l) (hholds : 0 < l.writeHolders) :
    RwCounts 0 l.releaseWriter := by
  have hactive := h.active
  unfold RwLock.releaseWriter
  refine ⟨h.readers, ?_, fun hheld => ?_, ?_, fun _ => List.not_mem_nil⟩
  · simp only [RwLock.notifyAll, RwLock.unlock]
    split at hactive <;> simp <;> omega
  · cases hheld
  · rw [writersIn_notifyAll]
    exact h.waiting

/-- The lock itself is never waited for. -/
structure RwInv (l : RwLock) : Prop extends RwCounts 0 l where
  unlocked : l.locked = false
  noLockWaiters : l.lockWaiters = []

theorem enter_eq {l : RwLock} (hunlocked : l.locked = false) (hnone : l.lockWaiters = []) (sec : RwSection) :
    l.enter sec = { l with locked := true }.runSection sec := by
  simp [RwLock.enter, hunlocked, hnone]

/-- A section gives the lock back before it awaits. -/
theorem runSection_unlocked (l : RwLock) (sec : RwSection) :
    (l.runSection sec).locked = false ∧ (l.runSection sec).lockWaiters = l.lockWaiters := by
  have hreader (l : RwLock) : l.readerLoop.locked = false ∧ l.readerLoop.lockWaiters = l.lockWaiters := by
    unfold RwLock.readerLoop
    split <;> exact ⟨rfl, rfl⟩
  have hwriter (l : RwLock) : l.writerLoop.locked = false ∧ l.writerLoop.lockWaiters = l.lockWaiters := by
    unfold RwLock.writerLoop
    split <;> exact ⟨rfl, rfl⟩
  cases sec with
  | acquireReader => exact hreader l
  | acquireWriter => exact hwriter _
  | releaseWriter => exact ⟨rfl, rfl⟩
  | releaseReader =>
    unfold RwLock.runSection RwLock.releaseReader
    dsimp only
    split <;> exact ⟨rfl, rfl⟩
  | waited role cancelled =>
    cases role <;> cases cancelled
    · exact hreader l
    · exact ⟨rfl, rfl⟩
    · exact hwriter l
    · exact ⟨rfl, rfl⟩

/-- What a section starts from: the end of a writer's wait has its writer on the way. -/
def Enters (l : RwLock) : RwSection → Prop
  | .acquireReader | .acquireWriter | .waited .reader _ => RwCounts 0 l
  | .releaseReader => RwCounts 0 l ∧ 0 < l.readHolders
  | .releaseWriter => RwCounts 0 l ∧ 0 < l.writeHolders
  | .waited .writer _ => RwCounts 1 l

theorem acquireWriter_counts {l : RwLock} (h : RwCounts 0 l) :
    RwCounts 1 { l with waitingWriters := l.waitingWriters + 1 } := by
  refine ⟨h.readers, h.active, h.exclusive, ?_, h.awake⟩
  have hwaiting := h.waiting
  have hsame : writersIn { l with waitingWriters := l.waitingWriters + 1 } = writersIn l := rfl
  simp only [hsame]
  omega

theorem runSection_counts {l : RwLock} {sec : RwSection} (h : Enters l sec) : RwCounts 0 (l.runSection sec) := by
  cases sec with
  | acquireReader => exact readerLoop_counts h
  | acquireWriter => exact writerLoop_counts (acquireWriter_counts h)
  | releaseReader => exact releaseReader_counts h.1 h.2
  | releaseWriter => exact releaseWriter_counts h.1 h.2
  | waited role cancelled =>
    cases role <;> cases cancelled
    · exact readerLoop_counts h
    · exact ⟨h.readers, h.active, h.exclusive, h.waiting, h.awake⟩
    · exact writerLoop_counts h
    · refine ⟨h.readers, h.active, h.exclusive, ?_, h.awake⟩
      have hwaiting := h.waiting
      have hleft : l.waitingWriters - 1 = (writersIn l + 0 : Nat) := by omega
      exact hleft

theorem enter_inv {l : RwLock} (hunlocked : l.locked = false) (hnone : l.lockWaiters = []) {sec : RwSection}
    (h : Enters { l with locked := true } sec) : RwInv (l.enter sec) := by
  obtain ⟨hlocked, hwaiters⟩ := runSection_unlocked { l with locked := true } sec
  rw [enter_eq hunlocked hnone]
  exact ⟨runSection_counts h, hlocked, hwaiters.trans hnone⟩

/-- The counts do not see whether the lock is taken. -/
theorem RwCounts.take {extra : Nat} {l : RwLock} (h : RwCounts extra l) : RwCounts extra { l with locked := true } :=
  ⟨h.readers, h.active, h.exclusive, h.waiting, h.awake⟩

/-- The next task leaves the loop's queue. -/
theorem RwCounts.next {l : RwLock} (h : RwCounts 0 l) {role : RwRole} {cancelled : Bool}
    {ready : List (RwRole × Bool)} (hready : l.ready = (role, cancelled) :: ready) :
    RwCounts (if role = .writer then 1 else 0) { l with ready, locked := true } := by
  refine ⟨h.readers, h.active, h.exclusive, ?_, h.awake⟩
  have hwaiting := h.waiting
  unfold writersIn at hwaiting ⊢
  rw [hready] at hwaiting
  cases role
  · simpa using hwaiting
  · simp at hwaiting ⊢
    omega

theorem RwCounts.enters_next {l : RwLock} (h : RwCounts 0 l) {role : RwRole} {cancelled : Bool}
    {ready : List (RwRole × Bool)} (hready : l.ready = (role, cancelled) :: ready) :
    Enters { l with ready, locked := true } (.waited role cancelled) := by
  have hnext := h.next hready
  cases role
  · exact hnext
  · exact hnext

theorem count_eraseIdx {α : Type} [DecidableEq α] {xs : List α} {i : Nat} {x : α} (h : xs[i]? = some x) (y : α) :
    xs.count y = (xs.eraseIdx i).count y + if x = y then 1 else 0 := by
  obtain ⟨hi, rfl⟩ := List.getElem?_eq_some_iff.mp h
  have hperm := (List.getElem_cons_eraseIdx_perm hi).count_eq y
  rw [List.count_cons] at hperm
  simpa using hperm.symm

/-- The next task goes on. -/
theorem resume_cases {l l' : RwLock} (h : l.step .resume = some l') : ∃ role cancelled ready,
    l.ready = (role, cancelled) :: ready ∧ l' = { l with ready }.enter (.waited role cancelled) := by
  unfold RwLock.step at h
  dsimp only at h
  cases hready : l.ready with
  | nil =>
    rw [hready] at h
    cases h
  | cons entry ready =>
    rw [hready] at h
    cases h
    exact ⟨entry.1, entry.2, ready, rfl, rfl⟩

/-- Every step keeps the counts. -/
theorem rwStep_inv {l l' : RwLock} {label : RwLabel} (h : RwInv l) (hstep : l.step label = some l') : RwInv l' := by
  have htaken : RwCounts 0 { l with locked := true } := h.toRwCounts.take
  cases label with
  | acquireReader =>
    cases hstep
    exact enter_inv h.unlocked h.noLockWaiters htaken
  | acquireWriter =>
    cases hstep
    exact enter_inv h.unlocked h.noLockWaiters htaken
  | releaseReader =>
    obtain ⟨hholds, hstep⟩ := Option.ite_none_right_eq_some.mp hstep
    cases hstep
    exact enter_inv h.unlocked h.noLockWaiters ⟨htaken, hholds⟩
  | releaseWriter =>
    obtain ⟨hholds, hstep⟩ := Option.ite_none_right_eq_some.mp hstep
    cases hstep
    exact enter_inv h.unlocked h.noLockWaiters ⟨htaken, hholds⟩
  | resume =>
    obtain ⟨role, cancelled, ready, hready, rfl⟩ := resume_cases hstep
    have hunlocked : RwLock.locked { l with ready } = false := h.unlocked
    exact enter_inv hunlocked h.noLockWaiters (h.toRwCounts.enters_next hready)
  | resumeLock => simp [RwLock.step, h.noLockWaiters] at hstep
  | cancelLock i => simp [RwLock.step, RwLock.cancelLock, h.noLockWaiters] at hstep
  | cancelSleeping i =>
    obtain ⟨role, hrole, rfl⟩ := Option.map_eq_some_iff.mp hstep
    refine ⟨⟨h.readers, h.active, h.exclusive, ?_, fun hnone hmem => ?_⟩, h.unlocked, h.noLockWaiters⟩
    · have hwaiting := h.waiting
      have hcount := count_eraseIdx hrole .writer
      unfold writersIn at hwaiting ⊢
      rw [List.map_append, List.count_append]
      cases role <;> simp at hcount ⊢ <;> omega
    · exact h.awake hnone (List.mem_of_mem_eraseIdx hmem)
  | cancelReady i =>
    obtain ⟨entry, hentry, rfl⟩ := Option.map_eq_some_iff.mp hstep
    refine ⟨⟨h.readers, h.active, h.exclusive, ?_, h.awake⟩, h.unlocked, h.noLockWaiters⟩
    have hwaiting := h.waiting
    have hsame : (l.ready.set i (entry.1, true)).map Prod.fst = l.ready.map Prod.fst := by
      obtain ⟨hi, rfl⟩ := List.getElem?_eq_some_iff.mp hentry
      have hlength : i < (l.ready.map Prod.fst).length := by
        rw [List.length_map]
        exact hi
      have hset := List.set_getElem_self hlength
      rw [List.getElem_map] at hset
      rw [List.map_set]
      exact hset
    unfold writersIn at hwaiting ⊢
    dsimp only
    rw [hsame]
    exact hwaiting

/-! ### The wake-ups -/

/-- While nobody holds the lock and a task sleeps, a writer waits or a woken task has its turn. -/
def Chance (l : RwLock) : Prop := NoHolder l → l.sleeping ≠ [] → l.waitingWriters ≤ 0 → Alive l.ready

theorem readerLoop_chance {l : RwLock} (h : RwCounts 0 l) : Chance l.readerLoop := by
  unfold RwLock.readerLoop
  split
  next hheld =>
    intro hnone _ hwaiting
    rcases hheld with hheld | hheld
    · have hactive := (h.noHolder_iff.mp hnone).1
      rw [hactive] at hheld
      cases hheld
    · exact absurd hheld (Int.not_lt.mpr hwaiting)
  next => exact fun hnone => absurd hnone.1 (Nat.succ_ne_zero _)

theorem writerLoop_chance {l : RwLock} (h : RwCounts 1 l) : Chance l.writerLoop := by
  unfold RwLock.writerLoop
  split
  next hheld =>
    intro hnone
    obtain ⟨hactive, hreaders⟩ := h.noHolder_iff.mp hnone
    rcases hheld with hheld | hheld
    · rw [hactive] at hheld
      cases hheld
    · omega
  next => exact fun hnone => absurd hnone.2 (Nat.succ_ne_zero _)

theorem releaseReader_chance {l : RwLock} (h : RwCounts 0 l) (hholds : 0 < l.readHolders) :
    Chance l.releaseReader := by
  have hreaders := h.readers
  unfold RwLock.releaseReader
  dsimp only
  split
  next => exact fun _ hasleep => absurd rfl hasleep
  next hmore =>
    intro hnone
    have hzero : l.readHolders - 1 = 0 := hnone.1
    omega

/-- A section keeps the chance; at the end of a cancelled wait the tasks behind it are what is left. -/
theorem runSection_chance {l : RwLock} {sec : RwSection} (h : Enters l sec)
    (hcancelled : ∀ role, sec = .waited role true → NoHolder l → l.sleeping ≠ [] →
      l.waitingWriters ≤ (if role = .writer then 1 else 0) → Alive l.ready) : Chance (l.runSection sec) := by
  cases sec with
  | acquireReader => exact readerLoop_chance h
  | acquireWriter => exact writerLoop_chance (acquireWriter_counts h)
  | releaseReader => exact releaseReader_chance h.1 h.2
  | releaseWriter => exact fun _ hasleep => absurd rfl hasleep
  | waited role cancelled =>
    cases role <;> cases cancelled
    · exact readerLoop_chance h
    · exact fun hnone hasleep hwaiting => hcancelled .reader rfl hnone hasleep hwaiting
    · exact writerLoop_chance h
    · intro hnone hasleep hwaiting
      have hlast : l.waitingWriters - 1 ≤ 0 := hwaiting
      refine hcancelled .writer rfl hnone hasleep ?_
      rw [if_pos rfl]
      omega

theorem alive_append {ready : List (RwRole × Bool)} (h : Alive ready) (more : List (RwRole × Bool)) :
    Alive (ready ++ more) := by
  obtain ⟨entry, hmem, halive⟩ := h
  exact ⟨entry, List.mem_append_left _ hmem, halive⟩

theorem alive_of_cons {role : RwRole} {ready : List (RwRole × Bool)} (h : Alive ((role, true) :: ready)) :
    Alive ready := by
  obtain ⟨entry, hmem, halive⟩ := h
  rcases List.mem_cons.mp hmem with rfl | hmem
  · cases halive
  · exact ⟨entry, hmem, halive⟩

/-- The other woken tasks do not see a cancellation. -/
theorem alive_set {ready : List (RwRole × Bool)} {i : Nat} (h : Alive (ready.eraseIdx i)) (entry : RwRole × Bool) :
    Alive (ready.set i entry) := by
  obtain ⟨other, hmem, halive⟩ := h
  obtain ⟨j, hne, hother⟩ := List.mem_eraseIdx_iff_getElem?.mp hmem
  have hkept : (ready.set i entry)[j]? = some other := by
    rw [List.getElem?_set_ne (Ne.symm hne)]
    exact hother
  exact ⟨other, List.mem_of_getElem? hkept, halive⟩

/-- A step that leaves a waker keeps the chance. -/
theorem rwStep_chance {l l' : RwLock} {label : RwLabel} (h : RwInv l) (hchance : Chance l)
    (hleaves : LeavesWaker l label) (hstep : l.step label = some l') : Chance l' := by
  have htaken : RwCounts 0 { l with locked := true } := h.toRwCounts.take
  cases label with
  | acquireReader =>
    cases hstep
    rw [enter_eq h.unlocked h.noLockWaiters]
    exact runSection_chance htaken nofun
  | acquireWriter =>
    cases hstep
    rw [enter_eq h.unlocked h.noLockWaiters]
    exact runSection_chance htaken nofun
  | releaseReader =>
    obtain ⟨hholds, hstep⟩ := Option.ite_none_right_eq_some.mp hstep
    cases hstep
    rw [enter_eq h.unlocked h.noLockWaiters]
    exact runSection_chance ⟨htaken, hholds⟩ nofun
  | releaseWriter =>
    obtain ⟨hholds, hstep⟩ := Option.ite_none_right_eq_some.mp hstep
    cases hstep
    rw [enter_eq h.unlocked h.noLockWaiters]
    exact runSection_chance ⟨htaken, hholds⟩ nofun
  | resume =>
    obtain ⟨role, cancelled, ready, hready, rfl⟩ := resume_cases hstep
    have hunlocked : RwLock.locked { l with ready } = false := h.unlocked
    rw [enter_eq hunlocked h.noLockWaiters]
    refine runSection_chance (h.toRwCounts.enters_next hready) fun role' heq hnone hasleep hwaiting => ?_
    cases heq
    cases role with
    | reader => exact alive_of_cons (hready ▸ hchance hnone hasleep hwaiting)
    | writer => exact hleaves ready hready hnone hasleep hwaiting
  | resumeLock => simp [RwLock.step, h.noLockWaiters] at hstep
  | cancelLock i => simp [RwLock.step, RwLock.cancelLock, h.noLockWaiters] at hstep
  | cancelSleeping i =>
    obtain ⟨role, hrole, rfl⟩ := Option.map_eq_some_iff.mp hstep
    intro hnone hasleep hwaiting
    have hslept : l.sleeping ≠ [] := fun hnil => hasleep (by simp [hnil])
    exact alive_append (hchance hnone hslept hwaiting) _
  | cancelReady i =>
    obtain ⟨entry, hentry, rfl⟩ := Option.map_eq_some_iff.mp hstep
    exact fun hnone hasleep hwaiting => alive_set (hleaves hnone hasleep hwaiting) _

/-! ### Runs -/

theorem new_inv : RwInv RwLock.new := ⟨⟨rfl, rfl, fun _ => rfl, rfl, fun _ => List.not_mem_nil⟩, rfl, rfl⟩

theorem RwInv.exclusiveOf {l : RwLock} (h : RwInv l) : Exclusive l := by
  have hactive := h.active
  constructor
  · split at hactive <;> omega
  · intro hheld
    refine h.exclusive ?_
    by_contra hfree
    rw [if_neg hfree] at hactive
    omega

theorem RwInv.countsHold {l : RwLock} (h : RwInv l) : CountsHold l := by
  have hactive := h.active
  refine ⟨h.readers, ?_, h.waiting⟩
  split at hactive
  next hheld => exact iff_of_true hheld (by omega)
  next hfree => exact iff_of_false hfree (by omega)

/-- With a chance left, a task that sleeps will be woken. -/
theorem Chance.not_lost {l : RwLock} (h : Chance l) (hinv : RwInv l) : ¬ LostWakeup l := by
  intro hlost
  have hready := hlost.nobody.1
  have hwaiting := hinv.waiting
  have hnever : l.sleeping.count .writer = 0 := List.count_eq_zero.mpr (hinv.awake hlost.noHolder)
  have hzero : writersIn l = 0 := by simp [writersIn, hready, hnever]
  obtain ⟨entry, hmem, -⟩ := h hlost.noHolder hlost.asleep (by omega)
  rw [hready] at hmem
  cases hmem

/-- When every woken task is cancelled they all raise, and the sleepers stay behind. -/
theorem drain_lost (ready : List (RwRole × Bool)) : ∀ l : RwLock, l.ready = ready →
    (∀ entry ∈ ready, entry.2 = true) → l.locked = false → l.lockWaiters = [] → NoHolder l → l.sleeping ≠ [] →
      ∃ l', rwMachine.Reach (fun _ _ => True) (· = l) l' ∧ LostWakeup l' := by
  induction ready with
  | nil => exact fun l hready _ _ hwaiters hnone hasleep => ⟨l, .start rfl, hnone, ⟨hready, hwaiters⟩, hasleep⟩
  | cons entry ready ih =>
    intro l hready hcancelled hunlocked hwaiters hnone hasleep
    obtain ⟨role, cancelled⟩ := entry
    obtain rfl : cancelled = true := hcancelled _ List.mem_cons_self
    have hstep : rwMachine.step .resume l = some ({ l with ready }.enter (.waited role true)) := by
      simp only [rwMachine, RwLock.step, hready]
    have hopen : RwLock.locked { l with ready } = false := hunlocked
    have hrest : ∀ entry ∈ ready, entry.2 = true := fun e he => hcancelled e (List.mem_cons_of_mem _ he)
    obtain ⟨l', hreach, hlost⟩ : ∃ l', rwMachine.Reach (fun _ _ => True)
        (· = { l with ready }.enter (.waited role true)) l' ∧ LostWakeup l' := by
      rw [enter_eq hopen hwaiters]
      cases role
      · exact ih _ rfl hrest rfl hwaiters hnone hasleep
      · exact ih _ rfl hrest rfl hwaiters hnone hasleep
    refine ⟨l', ?_, hlost⟩
    clear hlost ih
    induction hreach with
    | start hs =>
      subst hs
      exact .step (.start rfl) trivial hstep
    | step _ hguard hnext ih => exact .step ih hguard hnext

/-- Where a step leaves no waker, the sleepers can be lost. -/
theorem lost_of_not_leaves {l l' : RwLock} {label : RwLabel} (h : RwInv l) (hleaves : ¬ LeavesWaker l label)
    (hstep : l.step label = some l') : ∃ l'', rwMachine.Reach (fun _ _ => True) (· = l') l'' ∧ LostWakeup l'' := by
  have hdead {ready : List (RwRole × Bool)} (hnot : ¬ Alive ready) : ∀ entry ∈ ready, entry.2 = true := by
    intro entry hmem
    by_contra hfalse
    exact hnot ⟨entry, hmem, by simpa using hfalse⟩
  cases label with
  | resume =>
    unfold LeavesWaker at hleaves
    push Not at hleaves
    obtain ⟨ready, hready, hnone, hasleep, -, hnot⟩ := hleaves
    obtain ⟨role, cancelled, rest, hrest, rfl⟩ := resume_cases hstep
    cases hready.symm.trans hrest
    have hunlocked : RwLock.locked { l with ready } = false := h.unlocked
    rw [enter_eq hunlocked h.noLockWaiters]
    exact drain_lost ready _ rfl (hdead hnot) rfl h.noLockWaiters hnone hasleep
  | cancelReady i =>
    unfold LeavesWaker at hleaves
    push Not at hleaves
    obtain ⟨hnone, hasleep, -, hnot⟩ := hleaves
    obtain ⟨entry, hentry, rfl⟩ := Option.map_eq_some_iff.mp hstep
    refine drain_lost _ _ rfl (fun other hmem => ?_) h.unlocked h.noLockWaiters hnone hasleep
    obtain ⟨j, hother⟩ := List.mem_iff_getElem?.mp hmem
    rcases eq_or_ne i j with rfl | hne
    · obtain ⟨hi, rfl⟩ := List.getElem?_eq_some_iff.mp hother
      simp
    · rw [List.getElem?_set_ne hne] at hother
      exact hdead hnot other (List.mem_eraseIdx_iff_getElem?.mpr ⟨j, Ne.symm hne, hother⟩)
  | _ => exact absurd trivial hleaves

theorem reach_inv {guard : RwLock → RwLabel → Prop} {l : RwLock} (h : rwMachine.Reach guard (· = RwLock.new) l) :
    RwInv l := by
  have hstart : ∀ s, s = RwLock.new → RwInv s := fun s hs => by
    subst hs
    exact new_inv
  have hkeep : ∀ s s' label, RwInv s → guard s label → rwMachine.step label s = some s' → RwInv s' :=
    fun _ _ _ hs _ hstep => rwStep_inv hs hstep
  exact Machine.Reach.invariant hstart hkeep h

theorem reach_chance {l : RwLock} (h : rwMachine.Reach LeavesWaker (· = RwLock.new) l) : Chance l := by
  induction h with
  | start hs =>
    subst hs
    exact fun _ hasleep => absurd rfl hasleep
  | step hreach hleaves hstep ih => exact rwStep_chance (reach_inv hreach) ih hleaves hstep

/-- In every run the lock is exclusive and its counts hold; no wake-up is lost when its steps leave a waker, and a step
that does not leads to a lost one. -/
theorem rwLock_wakeups {l : RwLock} (h : rwMachine.Reach (fun _ _ => True) (· = RwLock.new) l) :
    Exclusive l ∧ CountsHold l ∧ (rwMachine.Reach LeavesWaker (· = RwLock.new) l → ¬ LostWakeup l) ∧
      ∀ label l', ¬ LeavesWaker l label → l.step label = some l' →
        ∃ l'', rwMachine.Reach (fun _ _ => True) (· = l') l'' ∧ LostWakeup l'' :=
  ⟨(reach_inv h).exclusiveOf, (reach_inv h).countsHold, fun hleaves => (reach_chance hleaves).not_lost (reach_inv h),
    fun _ _ hleaves hstep => lost_of_not_leaves (reach_inv h) hleaves hstep⟩

/-- A writer holds the lock while a reader and a writer come to wait, and lets it go. -/
def releasedRun : List RwLabel := [.acquireWriter, .acquireReader, .acquireWriter, .releaseWriter]

/-- Both are woken, and nobody holds the lock. -/
def releasedLock : RwLock := ⟨false, [], 0, false, 1, [], [(.reader, false), (.writer, false)], 0, 0⟩

/-- The writer was cancelled before its turn, and the reader sleeps again for it. -/
def cancelledLock : RwLock := ⟨false, [], 0, false, 1, [.reader], [(.writer, true)], 0, 0⟩

/-- The writer raises. -/
def leftLock : RwLock := ⟨false, [], 0, false, 0, [.reader], [], 0, 0⟩

theorem rwLock_wakeups_released : (Exclusive releasedLock ∧ CountsHold releasedLock ∧ ¬ LostWakeup releasedLock) ∧
    ∃ l, rwMachine.Reach (fun _ _ => True) (· = leftLock) l ∧ LostWakeup l := by
  have hreleased : rwMachine.run releasedRun RwLock.new = some releasedLock := by decide
  have hcancelled : rwMachine.run (releasedRun ++ [.cancelReady 1, .resume]) RwLock.new = some cancelledLock := by
    decide
  have hguarded : rwMachine.Reach LeavesWaker (· = RwLock.new) releasedLock := by
    refine .of_run (fun label hmem l => ?_) (.start rfl) hreleased
    simp only [releasedRun, List.mem_cons, List.not_mem_nil, or_false] at hmem
    rcases hmem with rfl | rfl | rfl | rfl <;> trivial
  obtain ⟨hexclusive, hcounts, hwoken, -⟩ := rwLock_wakeups (.of_run (fun _ _ _ => trivial) (.start rfl) hreleased)
  have hlost := (rwLock_wakeups (.of_run (fun _ _ _ => trivial) (.start rfl) hcancelled)).2.2.2
  refine ⟨⟨hexclusive, hcounts, hwoken hguarded⟩, hlost .resume leftLock (fun hleaves => ?_) rfl⟩
  obtain ⟨entry, hmem, -⟩ := hleaves [] rfl ⟨rfl, rfl⟩ (by decide) (by decide)
  cases hmem

/-- The reader sleeps for good. -/
theorem cancelled_writer_loses_wakeup :
    rwMachine.run (releasedRun ++ [.cancelReady 1, .resume, .resume]) RwLock.new = some leftLock ∧
      LostWakeup leftLock :=
  ⟨by decide, ⟨rfl, rfl⟩, ⟨rfl, rfl⟩, by decide⟩

end QCFuse.Guarantees
