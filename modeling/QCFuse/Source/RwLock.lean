import QCFuse.Library.Transition
import Mathlib.Data.List.Basic

/-!
# The read-write lock of the tokenizer manager

`RWLock` on the `Lock` and the `Condition` of asyncio. A task runs until it awaits a future that is not done, so a step
is what one task does between two such awaits. The waiters of the condition are kept in two lists: those that sleep,
and those whose future is done, in the order in which the event loop resumes them. A wait that is cancelled takes the
lock again and raises; it notifies nobody.
-/

set_option autoImplicit false

namespace QCFuse.Source

open QCFuse.Library

inductive RwRole where
  | reader
  | writer
  deriving DecidableEq, Repr

/-- What a task does with `_lock` in its hands. -/
inductive RwSection where
  | acquireReader
  | releaseReader
  | acquireWriter
  | releaseWriter
  /-- The end of `_cond.wait()`, of a cancelled task or not. -/
  | waited (role : RwRole) (cancelled : Bool)
  deriving DecidableEq, Repr

structure RwLock where
  /-- `_lock`, and the tasks that wait in its `acquire()`. -/
  locked : Bool
  lockWaiters : List RwSection
  readers : Int
  writerActive : Bool
  waitingWriters : Int
  sleeping : List RwRole
  /-- Whether a task is cancelled stands with it. -/
  ready : List (RwRole × Bool)
  /-- The tasks between their acquire and their release. -/
  readHolders : Nat
  writeHolders : Nat
  deriving DecidableEq, Repr

namespace RwLock

/-- `__init__`. -/
def new : RwLock := ⟨false, [], 0, false, 0, [], [], 0, 0⟩

/-- `_cond.notify_all()`. -/
def notifyAll (l : RwLock) : RwLock :=
  { l with sleeping := [], ready := l.ready ++ l.sleeping.map fun role => (role, false) }

/-- `_lock.release()`, at the end of `async with` or in `_cond.wait()`. -/
def unlock (l : RwLock) : RwLock := { l with locked := false }

/-- The first half of `_cond.wait()`. -/
def wait (role : RwRole) (l : RwLock) : RwLock := { l with sleeping := l.sleeping ++ [role] }.unlock

/-- The loop of `acquire_reader`. -/
def readerLoop (l : RwLock) : RwLock :=
  if l.writerActive ∨ 0 < l.waitingWriters then l.wait .reader
  else { l with readers := l.readers + 1, readHolders := l.readHolders + 1 }.unlock

/-- The loop of `acquire_writer`, and its `finally`. -/
def writerLoop (l : RwLock) : RwLock :=
  if l.writerActive ∨ 0 < l.readers then l.wait .writer
  else
    { l with
      writerActive := true
      waitingWriters := l.waitingWriters - 1
      writeHolders := l.writeHolders + 1 }.unlock

/-- `release_reader` with the lock taken. -/
def releaseReader (l : RwLock) : RwLock :=
  let l := { l with readers := l.readers - 1, readHolders := l.readHolders - 1 }
  if l.readers = 0 then l.notifyAll.unlock else l.unlock

/-- `release_writer` with the lock taken. -/
def releaseWriter (l : RwLock) : RwLock :=
  { l with writerActive := false, writeHolders := l.writeHolders - 1 }.notifyAll.unlock

/-- A section, until it awaits or ends. -/
def runSection (l : RwLock) : RwSection → RwLock
  | .acquireReader => l.readerLoop
  | .releaseReader => l.releaseReader
  | .acquireWriter => { l with waitingWriters := l.waitingWriters + 1 }.writerLoop
  | .releaseWriter => l.releaseWriter
  | .waited .reader false => l.readerLoop
  | .waited .writer false => l.writerLoop
  | .waited .reader true => l.unlock
  -- Only the `finally` of `acquire_writer` runs.
  | .waited .writer true => { l with waitingWriters := l.waitingWriters - 1 }.unlock

/-- `await _lock.acquire()` and the section behind it: a lock that is free is taken without a suspension. -/
def enter (l : RwLock) (section_ : RwSection) : RwLock :=
  if l.locked || !l.lockWaiters.isEmpty then { l with lockWaiters := l.lockWaiters ++ [section_] }
  else { l with locked := true }.runSection section_

/-- The cancellation of a task that waits for `_lock`: the end of a wait tries again. -/
def cancelLock (l : RwLock) (i : Nat) : Option RwLock :=
  l.lockWaiters[i]?.map fun
    | .waited role _ => { l with lockWaiters := l.lockWaiters.eraseIdx i ++ [.waited role true] }
    | _ => { l with lockWaiters := l.lockWaiters.eraseIdx i }

end RwLock

inductive RwLabel where
  | acquireReader
  | releaseReader
  | acquireWriter
  | releaseWriter
  /-- The event loop resumes the next task whose future is done. -/
  | resume
  | resumeLock
  | cancelSleeping (i : Nat)
  | cancelReady (i : Nat)
  | cancelLock (i : Nat)
  deriving DecidableEq, Repr

def RwLock.step (l : RwLock) : RwLabel → Option RwLock
  | .acquireReader => some (l.enter .acquireReader)
  | .releaseReader => if 0 < l.readHolders then some (l.enter .releaseReader) else none
  | .acquireWriter => some (l.enter .acquireWriter)
  | .releaseWriter => if 0 < l.writeHolders then some (l.enter .releaseWriter) else none
  | .resume =>
    match l.ready with
    | [] => none
    | (role, cancelled) :: ready => some ({ l with ready }.enter (.waited role cancelled))
  | .resumeLock =>
    match l.locked, l.lockWaiters with
    | false, section_ :: lockWaiters => some ({ l with locked := true, lockWaiters }.runSection section_)
    | _, _ => none
  | .cancelSleeping i =>
    l.sleeping[i]?.map fun role =>
      { l with sleeping := l.sleeping.eraseIdx i, ready := l.ready ++ [(role, true)] }
  | .cancelReady i => l.ready[i]?.map fun entry => { l with ready := l.ready.set i (entry.1, true) }
  | .cancelLock i => l.cancelLock i

def rwMachine : Machine RwLock RwLabel where
  step label l := l.step label

end QCFuse.Source
