import Mathlib.Logic.Function.Basic
import Tpcc.Support.Wheels
import Tpcc.Transition.System

/-!
# `Tinyfibers.Scheduler` — fibers, the run loop and what blocks a fiber

`Scheduler`, `Fiber`, `ParkingLot`, `JoinHandle`, `WaitQueue::Impl` and `tinyfibers::Future`. A program of
fibers is whatever the running fibers do: at each moment the running fiber makes any system call.

`asio` is not part of the repository. `io_context::run` runs one handler at a time: a posted one in posting
order, or that of a timer, of a socket operation or of the program, at any moment. A context switch goes
on where the target left off (`Point`).

## Contents
- **State.** `Fiber`, `JoinHandle`, `Future`, `State`. A pointer to a fiber or a handle is its number, and
  no number is used twice.
- **Faults.** What stops the process: a failed check, or a pointer followed to something destroyed.
- **Operations**, under the names they have in the source.
- **Runs.** `next` and `system`, with a condition on the calls that a program makes.
-/

namespace Tpcc
namespace Tinyfibers

open Transition

/-! ## State -/

/-- `Fiber*`. -/
abbrev FiberId := Nat

/-- `JoinHandle*`. -/
abbrev HandleId := Nat

/-- A `WaitQueue`. -/
abbrev QueueId := Nat

/-- A `tinyfibers::Future`: one the fibers share, or the local one of a socket operation. -/
inductive FutureId where
  | shared (n : Nat)
  | operation (n : Nat)
  deriving DecidableEq

inductive FiberState where
  | starting
  | runnable
  | running
  | suspended
  | terminated
  deriving DecidableEq

/-- Where a fiber goes on when it is switched to. -/
inductive Point where
  /-- In `Trampoline`. -/
  | start
  /-- In its routine, behind `Yield`. -/
  | routine
  /-- In `SleepFor`, behind `Suspend`. -/
  | sleep
  /-- In `JoinHandle::Join`, behind `Park`. -/
  | join (handle : HandleId)
  /-- In `WaitQueue::Impl::Park`, behind `Suspend`. -/
  | queue (queue : QueueId)
  /-- In `Future::Get`, behind `Park`. -/
  | get (future : FutureId)
  deriving DecidableEq

/-- The members of `Fiber`, and where it goes on. -/
structure Fiber where
  state_ : FiberState := .starting
  watcher_ : Option HandleId := none
  point : Point := .start
  deriving DecidableEq

/-- `ParkingLot`. -/
structure ParkingLot where
  waitee_ : Option FiberId := none
  deriving DecidableEq

/-- The members of `JoinHandle`. -/
structure JoinHandle where
  fiber_ : Option FiberId
  completed_ : Bool := false
  waitee_ : ParkingLot := {}
  deriving DecidableEq

/-- The members of `tinyfibers::Future`. -/
structure Future (V E : Type) where
  result_ : Option (Result V E) := none
  wait_for_promise_ : ParkingLot := {}

/-- Where the thread is: in `io_context::run` between two handlers, in the fiber `running_`, or back from
    it, in front of `Reschedule`. -/
inductive Control where
  | loop
  | fiber (running : FiberId)
  | back (fiber : FiberId)
  deriving DecidableEq

/-- The scheduler, what its fibers share, and the handlers that wait to run: `posted` in posting order,
    `timers` by the fiber they resume, `operations` by the future they fulfil. `finished` (whose routine
    has returned), `destroyed` and `returned` (what `Get` returned) are history. -/
structure State (V E : Type) where
  fibers : FiberId → Option Fiber := fun _ => none
  nextId : FiberId := 0
  control : Control := .loop
  posted : List FiberId := []
  timers : List FiberId := []
  operations : List Nat := []
  nextOperation : Nat := 0
  queues : QueueId → List FiberId := fun _ => []
  handles : HandleId → Option JoinHandle := fun _ => none
  nextHandle : HandleId := 0
  futures : FutureId → Future V E := fun _ => {}
  finished : List FiberId := []
  destroyed : List FiberId := []
  returned : List (FutureId × Option (Result V E)) := []

/-! ## Faults -/

/-- What stops the process. -/
inductive Fault where
  /-- The assertion in `Resume`: "Expected fiber in Suspended state". -/
  | notSuspended
  /-- The panic in `Reschedule`: "Unexpected fiber state". -/
  | unexpectedState
  /-- The scheduler follows a pointer to a destroyed fiber. -/
  | deadFiber
  /-- `~Fiber` calls `OnCompleted` of a destroyed handle. -/
  | deadWatcher
  /-- `JoinHandle` dereferences `fiber_`, and the fiber is destroyed. -/
  | danglingHandle
  /-- `JoinHandle` dereferences `fiber_`, and it is null. -/
  | nullHandle
  /-- `Join` goes on in a handle that is destroyed. -/
  | deadHandle
  /-- The check in `CheckAttached`: "Detached JoinHandle". -/
  | detached
  /-- The check in `~JoinHandle`: "Explicit Join or Detach required". -/
  | attached
  deriving DecidableEq

/-! ## Operations -/

namespace State

variable {V E : Type}

def setFiber (s : State V E) (f : FiberId) (fiber : Fiber) : State V E :=
  { s with fibers := Function.update s.fibers f (some fiber) }

def setHandle (s : State V E) (h : HandleId) (handle : JoinHandle) : State V E :=
  { s with handles := Function.update s.handles h (some handle) }

def setFuture (s : State V E) (p : FutureId) (future : Future V E) : State V E :=
  { s with futures := Function.update s.futures p future }

/-- `Schedule`. -/
def schedule (s : State V E) (f : FiberId) : State V E := { s with posted := s.posted ++ [f] }

/-- `Resume`. -/
def resume (s : State V E) (f : FiberId) : Except Fault (State V E) :=
  match s.fibers f with
  | none => .error .deadFiber
  | some fiber =>
      if fiber.state_ = .suspended then .ok ((s.setFiber f { fiber with state_ := .runnable }).schedule f)
      else .error .notSuspended

/-- The running fiber sets its state and switches to the scheduler. -/
def switch (s : State V E) (f : FiberId) (fiber : Fiber) : State V E :=
  { s.setFiber f fiber with control := .back f }

/-- `Suspend`, called at `point`. -/
def suspend (s : State V E) (f : FiberId) (fiber : Fiber) (point : Point) : State V E :=
  s.switch f { fiber with state_ := .suspended, point }

/-- `ParkingLot::Wake`. -/
def wake (s : State V E) (lot : ParkingLot) : Except Fault (State V E) :=
  match lot.waitee_ with
  | none => .ok s
  | some f => s.resume f

/-- `fiber_->SetWatcher(watcher)`. -/
def setWatcher (s : State V E) (fiber_ : Option FiberId) (watcher : Option HandleId) :
    Except Fault (State V E) :=
  match fiber_ with
  | none => .error .nullHandle
  | some f =>
      match s.fibers f with
      | none => .error .danglingHandle
      | some fiber => .ok (s.setFiber f { fiber with watcher_ := watcher })

/-- `Scheduler::Spawn`. -/
def spawn (s : State V E) : State V E :=
  { s.setFiber s.nextId {} with nextId := s.nextId + 1 }.schedule s.nextId

/-- The constructor of `JoinHandle`. -/
def newHandle (s : State V E) (f : FiberId) : Except Fault (State V E) :=
  { s.setHandle s.nextHandle { fiber_ := some f } with nextHandle := s.nextHandle + 1 }.setWatcher (some f)
    (some s.nextHandle)

/-- The move constructor of `JoinHandle`, from handle `h`. -/
def move (s : State V E) (h : HandleId) (that : JoinHandle) : Except Fault (State V E) :=
  let s' := s.setHandle h { that with fiber_ := none }
  let s' := { s'.setHandle s.nextHandle { fiber_ := that.fiber_, completed_ := that.completed_ } with
    nextHandle := s.nextHandle + 1 }
  if that.completed_ then .ok s' else s'.setWatcher that.fiber_ (some s.nextHandle)

/-- `Join`, called by fiber `f`. -/
def join (s : State V E) (f : FiberId) (fiber : Fiber) (h : HandleId) (handle : JoinHandle) :
    Except Fault (State V E) :=
  if handle.fiber_ = none then .error .detached
  else if handle.completed_ then .ok (s.setHandle h { handle with fiber_ := none })
  else .ok ((s.setHandle h { handle with waitee_ := ⟨some f⟩ }).suspend f fiber (.join h))

/-- `Detach`. -/
def detach (s : State V E) (h : HandleId) (handle : JoinHandle) : Except Fault (State V E) :=
  if handle.fiber_ = none then .error .detached
  else (s.setWatcher handle.fiber_ none).map fun s => s.setHandle h { handle with fiber_ := none }

/-- `~JoinHandle`. -/
def drop (s : State V E) (h : HandleId) (handle : JoinHandle) : Except Fault (State V E) :=
  if handle.fiber_ = none then .ok { s with handles := Function.update s.handles h none }
  else .error .attached

/-- `OnCompleted`. -/
def onCompleted (s : State V E) (h : HandleId) : Except Fault (State V E) :=
  match s.handles h with
  | none => .error .deadWatcher
  | some handle => (s.setHandle h { handle with completed_ := true }).wake handle.waitee_

/-- The memory of fiber `f` is released. -/
def delete (s : State V E) (f : FiberId) : State V E :=
  { s with fibers := Function.update s.fibers f none, destroyed := s.destroyed ++ [f] }

/-- `Destroy`, with `~Fiber` in front of the release. -/
def destroy (s : State V E) (f : FiberId) (fiber : Fiber) : Except Fault (State V E) :=
  match fiber.watcher_ with
  | none => .ok (s.delete f)
  | some h => (s.onCompleted h).map fun s => s.delete f

/-- `Reschedule`. -/
def reschedule (s : State V E) (f : FiberId) : Except Fault (State V E) :=
  match s.fibers f with
  | none => .error .deadFiber
  | some fiber =>
      match fiber.state_ with
      | .runnable => .ok (s.schedule f)
      | .suspended => .ok s
      | .terminated => s.destroy f fiber
      | .starting => .error .unexpectedState
      | .running => .error .unexpectedState

/-- Fiber `f` is switched to and goes on at `point`, to its routine. -/
def goOn (s : State V E) : Point → Except Fault (State V E)
  | .join h =>
      match s.handles h with
      | none => .error .deadHandle
      | some handle => .ok (s.setHandle h { handle with fiber_ := none })
  | .get p => .ok { s with returned := s.returned ++ [(p, (s.futures p).result_)] }
  | .start => .ok s
  | .routine => .ok s
  | .sleep => .ok s
  | .queue _ => .ok s

/-- `Step`, up to the next system call of fiber `f`. -/
def step (s : State V E) (f : FiberId) : Except Fault (State V E) :=
  match s.fibers f with
  | none => .error .deadFiber
  | some fiber =>
      { s.setFiber f { fiber with state_ := .running, point := .routine } with control := .fiber f }.goOn
        fiber.point

/-- `WaitQueue::Impl::WakeOne`. -/
def wakeOne (s : State V E) (q : QueueId) : Except Fault (State V E) :=
  match s.queues q with
  | [] => .ok s
  | f :: rest => { s with queues := Function.update s.queues q rest }.resume f

/-- The loop of `WaitQueue::Impl::WakeAll`, with what is left of queue `q`. -/
def wakeAllLoop (q : QueueId) : List FiberId → State V E → Except Fault (State V E)
  | [], s => .ok s
  | f :: rest, s => ({ s with queues := Function.update s.queues q rest }.resume f).bind (wakeAllLoop q rest)

/-- `WaitQueue::Impl::WakeAll`. -/
def wakeAll (s : State V E) (q : QueueId) : Except Fault (State V E) := wakeAllLoop q (s.queues q) s

/-- `ParkingLot::Park` in `Get`, called by fiber `f`. -/
def get (s : State V E) (f : FiberId) (fiber : Fiber) (p : FutureId) : State V E :=
  (s.setFuture p { s.futures p with wait_for_promise_ := ⟨some f⟩ }).suspend f fiber (.get p)

/-- `Set`. -/
def set (s : State V E) (p : FutureId) (result : Result V E) : Except Fault (State V E) :=
  (s.setFuture p { s.futures p with result_ := some result }).wake (s.futures p).wait_for_promise_

end State

/-! ## Runs -/

/-- What a running fiber can do. -/
inductive Call (V E : Type) where
  | spawn
  | yield
  | sleepFor
  | park (q : QueueId)
  | wakeOne (q : QueueId)
  | wakeAll (q : QueueId)
  | join (h : HandleId)
  | detach (h : HandleId)
  | move (h : HandleId)
  | drop (h : HandleId)
  | get (n : Nat)
  | set (n : Nat) (result : Result V E)
  /-- A socket operation: it is initiated with a `Future` of its own, and `Get` is called. -/
  | operation
  /-- The routine returns, and `Trampoline` calls `Terminate`. -/
  | ret

/-- What the run loop can do: a posted handler, a timer, a completed socket operation, or a handler of the
    program. -/
inductive Event (V E : Type) where
  | posted
  | timer (f : FiberId)
  | complete (n : Nat) (result : Result V E)
  | wakeOne (q : QueueId)
  | wakeAll (q : QueueId)
  | set (n : Nat) (result : Result V E)

inductive Action (V E : Type) where
  | call (c : Call V E)
  | event (e : Event V E)
  | reschedule

variable {V E : Type}

/-- Fiber `f` makes a system call. A call on a handle needs one that exists. -/
def call (s : State V E) (f : FiberId) (fiber : Fiber) : Call V E → Option (Except Fault (State V E))
  | .spawn => some (s.spawn.newHandle s.nextId)
  | .yield => some (.ok (s.switch f { fiber with state_ := .runnable, point := .routine }))
  | .sleepFor => some (.ok ({ s with timers := f :: s.timers }.suspend f fiber .sleep))
  | .park q =>
      some (.ok ({ s with queues := Function.update s.queues q (s.queues q ++ [f]) }.suspend f fiber (.queue q)))
  | .wakeOne q => some (s.wakeOne q)
  | .wakeAll q => some (s.wakeAll q)
  | .join h => (s.handles h).map (s.join f fiber h)
  | .detach h => (s.handles h).map (s.detach h)
  | .move h => (s.handles h).map (s.move h)
  | .drop h => (s.handles h).map (s.drop h)
  | .get n => some (.ok (s.get f fiber (.shared n)))
  | .set n result => some (s.set (.shared n) result)
  | .operation =>
      some (.ok ({ s with operations := s.nextOperation :: s.operations, nextOperation := s.nextOperation + 1 }.get
        f fiber (.operation s.nextOperation)))
  | .ret => some (.ok { s.switch f { fiber with state_ := .terminated } with finished := s.finished ++ [f] })

def event (s : State V E) : Event V E → Option (Except Fault (State V E))
  | .posted =>
      match s.posted with
      | [] => none
      | f :: rest => some ({ s with posted := rest }.step f)
  | .timer f => if f ∈ s.timers then some ({ s with timers := s.timers.erase f }.resume f) else none
  | .complete n result =>
      if n ∈ s.operations then
        some ({ s with operations := s.operations.erase n }.set (.operation n) result)
      else none
  | .wakeOne q => some (s.wakeOne q)
  | .wakeAll q => some (s.wakeAll q)
  | .set n result => some (s.set (.shared n) result)

/-- One step of the thread. -/
def next (s : State V E) : Action V E → Option (Except Fault (State V E))
  | .call c =>
      match s.control with
      | .fiber f => (s.fibers f).bind fun fiber => call s f fiber c
      | _ => none
  | .event e =>
      match s.control with
      | .loop => event s e
      | _ => none
  | .reschedule =>
      match s.control with
      | .back f => some ((s.reschedule f).map fun s => { s with control := .loop })
      | _ => none

/-- A fault ends the run. -/
def step : Except Fault (State V E) → Action V E → Option (Except Fault (State V E))
  | .ok s, a => next s a
  | .error _, _ => none

/-- `Run`, in front of `RunLoop`. -/
def initial (V E : Type) : State V E := State.spawn {}

/-- A condition on what a program does. -/
def meets (ok : State V E → Action V E → Bool) : Except Fault (State V E) → Action V E → Bool
  | .ok s, a => ok s a
  | .error _, _ => true

/-- All runs of a scheduler, of the programs whose actions meet `ok`. -/
def system (ok : State V E → Action V E → Bool) : System (Except Fault (State V E)) :=
  System.ofNextIf (.ok (initial V E)) step fun c a => meets ok c a = true

theorem reachable_of_run {ok : State V E → Action V E → Bool} (as : List (Action V E))
    {c : Except Fault (State V E)} (h : System.runWhile (meets ok) step (.ok (initial V E)) as = some c) :
    (system ok).Reachable c :=
  ⟨_, rfl, System.steps_of_runWhile (fun _ _ hok => hok) h⟩

end Tinyfibers
end Tpcc
