import Mathlib.Data.List.Basic

/-!
# Control calls

`_Communicator` and the calls suspended in it. A call, the message it sends and the event it
creates share one number; a result is the message it answers and its place among the answers. A
call runs from one `await` to the next without interruption.
-/

set_option autoImplicit false

namespace QCFuse.Source

inductive CommunicatorMode where
  | queueing
  | watching
  deriving DecidableEq, Repr

abbrev CallResult := Nat × Nat

inductive CallFailure where
  | assertionError
  deriving DecidableEq, Repr

/-- Where a call is suspended, or how it ended. `sends` says whether `obj` is truthy. -/
inductive CallPhase where
  | idle
  | awaitReady (sends : Bool)
  | ready (sends : Bool)
  | awaitResult (event : Nat)
  | returned (event : Nat) (values : Option (List CallResult))
  | failed (failure : CallFailure)
  deriving DecidableEq, Repr

/-- `_Communicator`. -/
structure Communicator where
  fanOut : Nat
  mode : CommunicatorMode
  resultEvent : Option Nat
  resultValues : Option (List CallResult)
  readyQueue : List Nat
  deriving DecidableEq, Repr

/-- The communicator with its calls, the events that are set, the messages that still have
answers to come, and whether `handle_recv` raised. -/
structure ControlLoop where
  communicator : Communicator
  phase : Nat → CallPhase
  setEvents : List Nat
  sent : List (Nat × Nat)
  recvFailed : Bool

namespace ControlLoop

def new (fanOut : Nat) (mode : CommunicatorMode) : ControlLoop :=
  ⟨⟨fanOut, mode, none, none, []⟩, fun _ => .idle, [], [], false⟩

def setPhase (w : ControlLoop) (id : Nat) (phase : CallPhase) : ControlLoop :=
  { w with phase := Function.update w.phase id phase }

/-- Sending, the new event and the empty list, up to the wait. -/
def begin (w : ControlLoop) (id : Nat) (sends : Bool) : ControlLoop :=
  { w with
    communicator := { w.communicator with resultEvent := some id, resultValues := some [] }
    sent := if sends then w.sent ++ [(id, 0)] else w.sent
    phase := Function.update w.phase id (.awaitResult id) }

/-- `queueing_call`, up to its first wait. -/
def queueingCall (w : ControlLoop) (id : Nat) (sends : Bool) : ControlLoop :=
  if w.communicator.resultEvent.isSome ∨ w.communicator.readyQueue.length > 0 then
    { w with
      communicator := { w.communicator with readyQueue := w.communicator.readyQueue ++ [id] }
      phase := Function.update w.phase id (.awaitReady sends) }
  else w.begin id sends

/-- `queueing_call` after `ready_event`. -/
def queueingResume (w : ControlLoop) (id : Nat) (sends : Bool) : ControlLoop :=
  if w.communicator.resultEvent.isNone ∧ w.communicator.resultValues.isNone then w.begin id sends
  else w.setPhase id (.failed .assertionError)

/-- `watching_call`, up to its wait. -/
def watchingCall (w : ControlLoop) (id : Nat) (sends : Bool) : ControlLoop :=
  match w.communicator.resultEvent with
  | some event => w.setPhase id (.awaitResult event)
  | none =>
    if w.communicator.resultValues.isNone then w.begin id sends
    else w.setPhase id (.failed .assertionError)

/-- The list is handed out and both fields are cleared. -/
def finish (w : ControlLoop) (id event : Nat) : ControlLoop :=
  { w with
    communicator := { w.communicator with resultEvent := none, resultValues := none }
    phase := Function.update w.phase id (.returned event w.communicator.resultValues) }

/-- `self._ready_queue.popleft().set()`. -/
def wakeNext (w : ControlLoop) : ControlLoop :=
  match w.communicator.readyQueue with
  | [] => w
  | next :: rest =>
    { w with
      communicator := { w.communicator with readyQueue := rest }
      phase := Function.update w.phase next
        (match w.phase next with
        | .awaitReady sends => .ready sends
        | phase => phase) }

/-- Either call after `_result_event`. -/
def resultResume (w : ControlLoop) (id event : Nat) : ControlLoop :=
  match w.communicator.mode with
  | .queueing => (w.finish id event).wakeNext
  | .watching => w.finish id event

/-- `handle_recv`. -/
def handleRecv (w : ControlLoop) (result : CallResult) : ControlLoop :=
  match w.communicator.resultValues, w.communicator.resultEvent with
  | some values, some event =>
    { w with
      communicator := { w.communicator with resultValues := some (values ++ [result]) }
      setEvents := if values.length + 1 = w.communicator.fanOut then event :: w.setEvents else w.setEvents }
  | some values, none =>
    { w with
      communicator := { w.communicator with resultValues := some (values ++ [result]) }
      recvFailed := w.recvFailed || decide (values.length + 1 = w.communicator.fanOut) }
  | none, _ => { w with recvFailed := true }

/-- The next answer of the oldest message arrives. -/
def deliver (w : ControlLoop) : Option ControlLoop :=
  match w.sent with
  | (message, answered) :: rest =>
    if answered < w.communicator.fanOut then
      some ({ w with sent := if answered + 1 = w.communicator.fanOut then rest else (message, answered + 1) :: rest }
        |>.handleRecv (message, answered))
    else none
  | [] => none

/-- A suspended call goes on, if what it waits for has happened. -/
def resume (w : ControlLoop) (id : Nat) : Option ControlLoop :=
  match w.phase id with
  | .ready sends => some (w.queueingResume id sends)
  | .awaitResult event => if event ∈ w.setEvents then some (w.resultResume id event) else none
  | _ => none

/-- `__call__`. -/
def call (w : ControlLoop) (id : Nat) (sends : Bool) : Option ControlLoop :=
  if w.phase id = .idle then
    match w.communicator.mode with
    | .queueing => some (w.queueingCall id sends)
    | .watching => some (w.watchingCall id sends)
  else none

end ControlLoop

end QCFuse.Source
