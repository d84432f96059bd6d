import Tpcc.Executors.BlockingQueue
import Tpcc.Transition.Exclusive
import Tpcc.Transition.Total

/-!
# `Executors.StaticThreadPool` — the fixed-size pool

`StaticThreadPool` of the executors, and the first pool (`tp`), which is the same without
`executed_counter_`. A fixed set of workers takes tasks from `task_queue_`; `workers_manager_` counts the
work that is queued, running or being submitted, and `Join` waits until there is none.

Each critical section of `task_queue_` and `workers_manager_` is one step, as is each access to
`executed_counter_`. A task is a number, in the order of the calls of `Execute`. What a task does is up to
the run: it may call `Execute` any number of times, and it returns or throws at any moment.

Both counters are a `size_t`. What `current_number_` counts has taken memory, so it does not overflow (`fits`);
`executed_counter_` may.

## Contents
- **The pool.** `State`, `next`, and `Stepped`, what a step can do.
- **The accounts.** `Counted`: what `current_number_` counts. `Conserved`: where each task is.
- **`Join`.** `Home`: what `Join` has waited for stays done. `join_waits_for_all`.
- **`Shutdown`.** `accounts_match`: the counter is right unless `Cancel` discards a task.
-/

namespace Tpcc
namespace Executors
namespace StaticThreadPool

open Transition

/-- A call of `Execute` in progress, by what it does next. -/
inductive Submission where
  /-- `task_queue_.Put(std::move(task))`. -/
  | put (task : Nat)
  /-- `workers_manager_.ReleaseWorker()`, after `Put` has returned false. -/
  | releaseWorker (task : Nat)
  deriving DecidableEq

/-- A worker's place in `worker_brain`. -/
inductive Worker where
  /-- `task_queue_.Take()`. -/
  | take
  /-- `ExecuteHere(*task)`. -/
  | executeHere (task : Nat)
  /-- `++executed_counter_`. -/
  | count
  /-- `workers_manager_.ReleaseWorker()`. -/
  | releaseWorker
  | exited
  deriving DecidableEq

/-- The thread that calls `Join`. -/
inductive Join where
  | notCalled
  /-- In `EverybodyHome`, about to look at `current_number_`. -/
  | everybodyHome
  /-- Asleep in `enough_tokens_.wait`. -/
  | asleep
  /-- `task_queue_.Close()`. -/
  | close
  /-- `worker.join()` for each worker. -/
  | joinWorkers
  | returned
  deriving DecidableEq

/-- The thread that calls `Shutdown`. -/
inductive Shutdown where
  | notCalled
  | joinWorkers
  | returned
  deriving DecidableEq

/-- `enough_tokens_.notify_one()`: the thread in `Join` is the only one that waits. -/
def Join.notified : Join → Join
  | .asleep => .everybodyHome
  | j => j

/-- `Join` is past `EverybodyHome`. -/
def Join.home : Join → Bool
  | .close => true
  | .joinWorkers => true
  | .returned => true
  | _ => false

/-- `Join` has closed the queue. -/
def Join.closed : Join → Bool
  | .joinWorkers => true
  | .returned => true
  | _ => false

/-- A pool with workers `ι`, and the external threads `κ`. A caller of `Execute` is an external thread or
    the task on a worker. The lists record the tasks that were submitted before `Join` was called, or by
    such a task; those `Put` accepted and refused; those that have run; and those `Cancel` discarded. -/
structure State (κ ι : Type) where
  current_number_ : UInt64 := 0
  task_queue_ : UnboundedBlockingQueue Nat := {}
  executed_counter_ : UInt64 := 0
  calls : κ ⊕ ι → Option Submission := fun _ => none
  workers : ι → Worker := fun _ => .take
  join : Join := .notCalled
  shutdown : Shutdown := .notCalled
  submitted : Nat := 0
  before : List Nat := []
  accepted : List Nat := []
  refused : List Nat := []
  executed : List Nat := []
  discarded : List Nat := []

/-- Who takes the next step. -/
inductive Action (κ ι : Type) where
  | execute (p : κ ⊕ ι)
  | put (p : κ ⊕ ι)
  | releaseWorker (p : κ ⊕ ι)
  | take (w : ι)
  /-- The task on worker `w` ends, by an exception or not. -/
  | finish (w : ι) (throws : Bool)
  | count (w : ι)
  | release (w : ι)
  | join
  | everybodyHome
  /-- The thread in `Join` wakes for no reason. -/
  | wake
  | close
  | joinWorkers
  | shutdown
  | shutdownWorkers

namespace State

variable {κ ι : Type}

/-- An external thread can call `Execute` at any moment, a worker while it runs a task. -/
def mayExecute (s : State κ ι) : κ ⊕ ι → Bool
  | .inl _ => true
  | .inr w => match s.workers w with
    | .executeHere _ => true
    | _ => false

/-- Whether what `p` submits now counts as submitted before `Join`. -/
def submitsBefore (s : State κ ι) : κ ⊕ ι → Bool
  | .inl _ => s.join == .notCalled
  | .inr w => match s.workers w with
    | .executeHere t => s.join == .notCalled || s.before.contains t
    | _ => false

/-- `WorkersHandler::AcquireWorker`. -/
def acquireWorker (s : State κ ι) : State κ ι :=
  { s with current_number_ := s.current_number_ + 1, join := s.join.notified }

/-- `WorkersHandler::ReleaseWorker`. -/
def release (s : State κ ι) : State κ ι :=
  { s with current_number_ := s.current_number_ - 1, join := s.join.notified }

/-- `ExecuteHere`: the exception is ignored. -/
def executeHere (_throws : Bool) : Worker := .count

end State

section

variable {κ ι : Type} [DecidableEq κ] [DecidableEq ι] [Fintype ι]

def next (s : State κ ι) : Action κ ι → Option (State κ ι)
  | .execute p =>
      if s.calls p = none ∧ s.mayExecute p then
        some { s.acquireWorker with
          calls := Function.update s.calls p (some (.put s.submitted))
          submitted := s.submitted + 1
          before := if s.submitsBefore p then s.before ++ [s.submitted] else s.before }
      else none
  | .put p =>
      match s.calls p with
      | some (.put t) =>
          match s.task_queue_.put t with
          | (true, task_queue_) =>
              some { s with
                task_queue_
                calls := Function.update s.calls p none
                accepted := s.accepted ++ [t] }
          | (false, task_queue_) =>
              some { s with
                task_queue_
                calls := Function.update s.calls p (some (.releaseWorker t))
                refused := s.refused ++ [t] }
      | _ => none
  | .releaseWorker p =>
      match s.calls p with
      | some (.releaseWorker _) => some { s.release with calls := Function.update s.calls p none }
      | _ => none
  | .take w =>
      match s.workers w, s.task_queue_.take with
      | .take, some (some t, task_queue_) =>
          some { s with task_queue_, workers := Function.update s.workers w (.executeHere t) }
      | .take, some (none, task_queue_) =>
          some { s with task_queue_, workers := Function.update s.workers w .exited }
      | _, _ => none
  | .finish w throws =>
      match s.workers w, s.calls (.inr w) with
      | .executeHere t, none =>
          some { s with
            workers := Function.update s.workers w (State.executeHere throws)
            executed := s.executed ++ [t] }
      | _, _ => none
  | .count w =>
      match s.workers w with
      | .count =>
          some { s with
            executed_counter_ := s.executed_counter_ + 1
            workers := Function.update s.workers w .releaseWorker }
      | _ => none
  | .release w =>
      match s.workers w with
      | .releaseWorker => some { s.release with workers := Function.update s.workers w .take }
      | _ => none
  | .join => if s.join = .notCalled then some { s with join := .everybodyHome } else none
  | .everybodyHome =>
      if s.join = .everybodyHome then
        some { s with join := if s.current_number_ = 0 then .close else .asleep }
      else none
  | .wake => if s.join = .asleep then some { s with join := .everybodyHome } else none
  | .close =>
      if s.join = .close then
        some { s with join := .joinWorkers, task_queue_ := s.task_queue_.closeImpl false }
      else none
  | .joinWorkers =>
      if s.join = .joinWorkers ∧ ∀ w, s.workers w = .exited then some { s with join := .returned }
      else none
  | .shutdown =>
      if s.shutdown = .notCalled then
        some { s with
          shutdown := .joinWorkers
          task_queue_ := s.task_queue_.closeImpl true
          discarded := s.discarded ++ s.task_queue_.buffer_ }
      else none
  | .shutdownWorkers =>
      if s.shutdown = .joinWorkers ∧ ∀ w, s.workers w = .exited then
        some { s with shutdown := .returned }
      else none

/-- There is memory for one more task: those that `current_number_` counts have taken theirs. -/
def fits (s : State κ ι) : Action κ ι → Bool
  | .execute _ => s.current_number_ + 1 ≠ 0
  | _ => true

/-- All runs of a pool with workers `ι` and external threads `κ`. -/
def system (κ ι : Type) [DecidableEq κ] [DecidableEq ι] [Fintype ι] : System (State κ ι) :=
  System.ofNextIf {} next fun s a => fits s a = true

/-! ## What a step can do -/

/-- The kinds of step. -/
inductive Stepped (s : State κ ι) : State κ ι → Prop where
  | execute (p : κ ⊕ ι) (idle : s.calls p = none) (may : s.mayExecute p = true) (room : s.current_number_ + 1 ≠ 0) :
      Stepped s { s.acquireWorker with
        calls := Function.update s.calls p (some (.put s.submitted))
        submitted := s.submitted + 1
        before := if s.submitsBefore p then s.before ++ [s.submitted] else s.before }
  | put (p : κ ⊕ ι) (t : Nat) (call : s.calls p = some (.put t)) (opened : s.task_queue_.closed_ = false) :
      Stepped s { s with
        task_queue_ := { s.task_queue_ with buffer_ := s.task_queue_.buffer_ ++ [t] }
        calls := Function.update s.calls p none
        accepted := s.accepted ++ [t] }
  | refuse (p : κ ⊕ ι) (t : Nat) (call : s.calls p = some (.put t))
      (closed : s.task_queue_.closed_ = true) :
      Stepped s { s with
        calls := Function.update s.calls p (some (.releaseWorker t))
        refused := s.refused ++ [t] }
  | releaseWorker (p : κ ⊕ ι) (t : Nat) (call : s.calls p = some (.releaseWorker t)) :
      Stepped s { s.release with calls := Function.update s.calls p none }
  | take (w : ι) (t : Nat) (task_queue_ : UnboundedBlockingQueue Nat) (worker : s.workers w = .take)
      (front : s.task_queue_.buffer_ = t :: task_queue_.buffer_)
      (closed : task_queue_.closed_ = s.task_queue_.closed_) :
      Stepped s { s with task_queue_, workers := Function.update s.workers w (.executeHere t) }
  | exit (w : ι) (worker : s.workers w = .take) (empty : s.task_queue_.buffer_ = [])
      (closed : s.task_queue_.closed_ = true) :
      Stepped s { s with workers := Function.update s.workers w .exited }
  | finish (w : ι) (t : Nat) (worker : s.workers w = .executeHere t) (idle : s.calls (.inr w) = none) :
      Stepped s { s with
        workers := Function.update s.workers w .count
        executed := s.executed ++ [t] }
  | count (w : ι) (worker : s.workers w = .count) :
      Stepped s { s with
        executed_counter_ := s.executed_counter_ + 1
        workers := Function.update s.workers w .releaseWorker }
  | release (w : ι) (worker : s.workers w = .releaseWorker) :
      Stepped s { s.release with workers := Function.update s.workers w .take }
  | join (notCalled : s.join = .notCalled) : Stepped s { s with join := .everybodyHome }
  | home (waits : s.join = .everybodyHome) (zero : s.current_number_ = 0) :
      Stepped s { s with join := .close }
  | sleep (waits : s.join = .everybodyHome) (work : s.current_number_ ≠ 0) :
      Stepped s { s with join := .asleep }
  | wake (asleep : s.join = .asleep) : Stepped s { s with join := .everybodyHome }
  | close (home : s.join = .close) :
      Stepped s { s with join := .joinWorkers, task_queue_ := s.task_queue_.closeImpl false }
  | joined (closed : s.join = .joinWorkers) (exited : ∀ w, s.workers w = .exited) :
      Stepped s { s with join := .returned }
  | shutdown (notCalled : s.shutdown = .notCalled) :
      Stepped s { s with
        shutdown := .joinWorkers
        task_queue_ := s.task_queue_.closeImpl true
        discarded := s.discarded ++ s.task_queue_.buffer_ }
  | shutdownJoined (cancelled : s.shutdown = .joinWorkers) (exited : ∀ w, s.workers w = .exited) :
      Stepped s { s with shutdown := .returned }

theorem next_stepped {s s' : State κ ι} {a : Action κ ι} (hfits : fits s a = true) (h : next s a = some s') :
    Stepped s s' := by
  cases a with
  | execute p =>
      simp only [next, Option.ite_none_right_eq_some, Option.some.injEq] at h
      obtain ⟨⟨hidle, hmay⟩, rfl⟩ := h
      exact .execute p hidle hmay (of_decide_eq_true hfits)
  | put p =>
      simp only [next] at h
      split at h
      · next t hcall =>
          rcases s.task_queue_.put_cases t with ⟨hclosed, hput⟩ | ⟨hopen, hput⟩
          · rw [hput] at h
            obtain rfl := Option.some.inj h
            exact .refuse p t hcall hclosed
          · rw [hput] at h
            obtain rfl := Option.some.inj h
            exact .put p t hcall hopen
      · cases h
  | releaseWorker p =>
      simp only [next] at h
      split at h
      · next t hcall =>
          obtain rfl := Option.some.inj h
          exact .releaseWorker p t hcall
      · cases h
  | take w =>
      simp only [next] at h
      split at h
      · next t q hworker htake =>
          obtain rfl := Option.some.inj h
          rcases UnboundedBlockingQueue.take_eq_some htake with ⟨hnone, -⟩ | ⟨v, hv, hfront, hclosed⟩
          · cases hnone
          · obtain rfl := Option.some.inj hv
            exact .take w t q hworker hfront hclosed
      · next q hworker htake =>
          obtain rfl := Option.some.inj h
          rcases UnboundedBlockingQueue.take_eq_some htake with ⟨-, hempty, hclosed, rfl⟩ | ⟨v, hv, -⟩
          · exact .exit w hworker hempty hclosed
          · cases hv
      · cases h
  | finish w throws =>
      simp only [next] at h
      split at h
      · next t hworker hidle =>
          obtain rfl := Option.some.inj h
          exact .finish w t hworker hidle
      · cases h
  | count w =>
      simp only [next] at h
      split at h
      · next hworker =>
          obtain rfl := Option.some.inj h
          exact .count w hworker
      · cases h
  | release w =>
      simp only [next] at h
      split at h
      · next hworker =>
          obtain rfl := Option.some.inj h
          exact .release w hworker
      · cases h
  | join =>
      simp only [next, Option.ite_none_right_eq_some, Option.some.injEq] at h
      obtain ⟨hjoin, rfl⟩ := h
      exact .join hjoin
  | everybodyHome =>
      simp only [next, Option.ite_none_right_eq_some, Option.some.injEq] at h
      obtain ⟨hjoin, rfl⟩ := h
      by_cases hzero : s.current_number_ = 0
      · rw [if_pos hzero]
        exact .home hjoin hzero
      · rw [if_neg hzero]
        exact .sleep hjoin hzero
  | wake =>
      simp only [next, Option.ite_none_right_eq_some, Option.some.injEq] at h
      obtain ⟨hjoin, rfl⟩ := h
      exact .wake hjoin
  | close =>
      simp only [next, Option.ite_none_right_eq_some, Option.some.injEq] at h
      obtain ⟨hjoin, rfl⟩ := h
      exact .close hjoin
  | joinWorkers =>
      simp only [next, Option.ite_none_right_eq_some, Option.some.injEq] at h
      obtain ⟨⟨hjoin, hexited⟩, rfl⟩ := h
      exact .joined hjoin hexited
  | shutdown =>
      simp only [next, Option.ite_none_right_eq_some, Option.some.injEq] at h
      obtain ⟨hshutdown, rfl⟩ := h
      exact .shutdown hshutdown
  | shutdownWorkers =>
      simp only [next, Option.ite_none_right_eq_some, Option.some.injEq] at h
      obtain ⟨⟨hshutdown, hexited⟩, rfl⟩ := h
      exact .shutdownJoined hshutdown hexited

/-! ## What the counter counts -/

/-- A worker counts from `Take` to `ReleaseWorker`. -/
def Worker.weight : Worker → Nat
  | .take => 0
  | .exited => 0
  | _ => 1

/-- A call of `Execute` counts from `AcquireWorker` to `Put`, and on to `ReleaseWorker` if `Put` fails. -/
def Submission.weight : Option Submission → Nat
  | none => 0
  | some _ => 1

variable [Fintype κ]

/-- `current_number_` counts the tasks in the queue, those taken and not yet released, and the calls of
    `Execute` in progress. -/
def Accounted (s : State κ ι) : Prop :=
  s.current_number_.toNat =
    s.task_queue_.buffer_.length + total Worker.weight s.workers + total Submission.weight s.calls

theorem toNat_succ {n : UInt64} (h : n + 1 ≠ 0) : (n + 1).toNat = n.toNat + 1 := by
  have hlt := n.toNat_lt
  have hne : (n + 1).toNat ≠ 0 := fun hzero => h (UInt64.toNat_inj.mp hzero)
  rw [UInt64.toNat_add, UInt64.toNat_one] at hne ⊢
  omega

theorem toNat_pred {n : UInt64} (h : 0 < n.toNat) : (n - 1).toNat = n.toNat - 1 := by
  have hle : 1 ≤ n := UInt64.le_iff_toNat_le.mpr h
  rw [UInt64.toNat_sub_of_le _ _ hle, UInt64.toNat_one]

/-- What `current_number_` really counts, and when `Join` sleeps. -/
structure Counted (s : State κ ι) : Prop where
  number : s.current_number_.toNat =
    s.task_queue_.buffer_.length + total Worker.weight s.workers + total Submission.weight s.calls +
      s.discarded.length
  asleep : s.join = .asleep → s.current_number_ ≠ 0

theorem Join.notified_ne (j : Join) : j.notified ≠ .asleep := by
  cases j <;> simp [Join.notified]

omit [DecidableEq κ] [DecidableEq ι] in
theorem counted_init : Counted ({} : State κ ι) where
  number := by
    have hworkers : total Worker.weight (fun _ : ι => Worker.take) = 0 := total_eq_zero fun _ => rfl
    have hcalls : total Submission.weight (fun _ : κ ⊕ ι => none) = 0 := total_eq_zero fun _ => rfl
    simp [hworkers, hcalls]
  asleep h := by cases h

omit [DecidableEq κ] [DecidableEq ι] in
/-- A worker or a call that counts makes the counter positive. -/
theorem Counted.pos_of_worker {s : State κ ι} (h : Counted s) {w : ι}
    (hw : (s.workers w).weight = 1) : 0 < s.current_number_.toNat := by
  have hle := le_total Worker.weight s.workers w
  have hnumber := h.number
  omega

omit [DecidableEq κ] [DecidableEq ι] in
theorem Counted.pos_of_call {s : State κ ι} (h : Counted s) {p : κ ⊕ ι} {c : Submission}
    (hp : s.calls p = some c) : 0 < s.current_number_.toNat := by
  have hle := le_total Submission.weight s.calls p
  rw [hp] at hle
  have hnumber := h.number
  simp only [Submission.weight] at hle
  omega

/-- **One step keeps the accounts.** -/
theorem Counted.stepped {s s' : State κ ι} (h : Counted s) (hstep : Stepped s s') : Counted s' := by
  have hnumber := h.number
  cases hstep with
  | execute p idle may room =>
      have hcalls := total_step Submission.weight idle (some (.put s.submitted))
      simp only [Submission.weight] at hcalls
      refine ⟨?_, fun hasleep => absurd hasleep s.join.notified_ne⟩
      simp only [State.acquireWorker, toNat_succ room]
      omega
  | put p t call opened =>
      have hcalls := total_step Submission.weight call none
      simp only [Submission.weight] at hcalls
      refine ⟨?_, h.asleep⟩
      simp only [List.length_append, List.length_singleton]
      omega
  | refuse p t call closed =>
      have hcalls := total_step Submission.weight call (some (.releaseWorker t))
      simp only [Submission.weight] at hcalls
      refine ⟨?_, h.asleep⟩
      dsimp only
      omega
  | releaseWorker p t call =>
      have hcalls := total_step Submission.weight call none
      have hpos := h.pos_of_call call
      simp only [Submission.weight] at hcalls
      refine ⟨?_, fun hasleep => absurd hasleep s.join.notified_ne⟩
      simp only [State.release, toNat_pred hpos]
      omega
  | take w t queue worker front closed =>
      have hworkers := total_step Worker.weight worker (.executeHere t)
      simp only [Worker.weight] at hworkers
      rw [front, List.length_cons] at hnumber
      refine ⟨?_, h.asleep⟩
      dsimp only
      omega
  | exit w worker empty closed =>
      have hworkers := total_step Worker.weight worker .exited
      simp only [Worker.weight] at hworkers
      refine ⟨?_, h.asleep⟩
      dsimp only
      omega
  | finish w t worker idle =>
      have hworkers := total_step Worker.weight worker .count
      simp only [Worker.weight] at hworkers
      refine ⟨?_, h.asleep⟩
      dsimp only
      omega
  | count w worker =>
      have hworkers := total_step Worker.weight worker .releaseWorker
      simp only [Worker.weight] at hworkers
      refine ⟨?_, h.asleep⟩
      dsimp only
      omega
  | release w worker =>
      have hworkers := total_step Worker.weight worker .take
      have hpos := h.pos_of_worker (w := w) (by rw [worker]; rfl)
      simp only [Worker.weight] at hworkers
      refine ⟨?_, fun hasleep => absurd hasleep s.join.notified_ne⟩
      simp only [State.release, toNat_pred hpos]
      omega
  | sleep waits work => exact ⟨hnumber, fun _ => work⟩
  | join | home | wake | close | joined => exact ⟨hnumber, by simp⟩
  | shutdown notCalled =>
      refine ⟨?_, h.asleep⟩
      simp only [UnboundedBlockingQueue.closeImpl, List.length_append]
      simp only [if_true, List.length_nil]
      omega
  | shutdownJoined => exact ⟨hnumber, h.asleep⟩

theorem reachable_counted {s : State κ ι} (h : (system κ ι).Reachable s) : Counted s :=
  h.invariant_nextIf counted_init fun _ _ _ hinv hfits hnext => hinv.stepped (next_stepped hfits hnext)

/-! ## Where each task is -/

/-- The worker runs task `t`. -/
def Worker.runs (t : Nat) : Worker → Nat
  | .executeHere u => if u = t then 1 else 0
  | _ => 0

/-- The worker has run a task that it has not counted yet. -/
def Worker.uncounted : Worker → Nat
  | .count => 1
  | _ => 0

/-- The call has yet to `Put` task `t`. -/
def Submission.pending (t : Nat) : Option Submission → Nat
  | some (.put u) => if u = t then 1 else 0
  | _ => 0

/-- Each task submitted is in one place. -/
structure Conserved (s : State κ ι) : Prop where
  tasks : ∀ t, s.accepted.count t = s.task_queue_.buffer_.count t + total (Worker.runs t) s.workers +
    s.executed.count t + s.discarded.count t
  ids : ∀ t, s.accepted.count t + s.refused.count t + total (Submission.pending t) s.calls =
    if t < s.submitted then 1 else 0
  counter : ∃ n, s.executed_counter_ = .ofNat n ∧ s.executed.length = n + total Worker.uncounted s.workers
  exited : ∀ w, s.workers w = .exited → s.task_queue_.closed_ = true ∧ s.task_queue_.buffer_ = []
  closed : s.task_queue_.closed_ = true ↔ s.join.closed = true ∨ s.shutdown ≠ .notCalled
  returned : s.join = .returned → ∀ w, s.workers w = .exited
  cancelled : s.shutdown ≠ .notCalled → s.task_queue_.buffer_ = []
  kept : s.shutdown = .notCalled → s.discarded = []

omit [DecidableEq κ] [DecidableEq ι] in
theorem conserved_init : Conserved ({} : State κ ι) where
  tasks t := by
    have hworkers : total (Worker.runs t) (fun _ : ι => Worker.take) = 0 := total_eq_zero fun _ => rfl
    simp [hworkers]
  ids t := by
    have hcalls : total (Submission.pending t) (fun _ : κ ⊕ ι => none) = 0 :=
      total_eq_zero fun _ => rfl
    simp [hcalls]
  counter := by
    have hworkers : total Worker.uncounted (fun _ : ι => Worker.take) = 0 := total_eq_zero fun _ => rfl
    exact ⟨0, rfl, by simp [hworkers]⟩
  exited w h := by cases h
  closed := by simp [Join.closed]
  returned h := by cases h
  cancelled h := absurd rfl h
  kept _ := rfl

omit [DecidableEq κ] [DecidableEq ι] in
/-- Nobody accepts a task twice. -/
theorem Conserved.count_le {s : State κ ι} (h : Conserved s) (t : Nat) : s.accepted.count t ≤ 1 := by
  have hid := h.ids t
  split at hid <;> omega

theorem Join.closed_notified (j : Join) : j.notified.closed = j.closed := by
  cases j <;> rfl

theorem Join.notified_returned {j : Join} (h : j.notified = .returned) : j = .returned := by
  cases j <;> simp [Join.notified] at h ⊢

omit [DecidableEq κ] in
/-- A worker that has not exited goes on, and the pool keeps what it says of the others. -/
theorem Conserved.exited_update {s : State κ ι} (h : Conserved s) {w : ι} {x : Worker}
    (hx : x ≠ .exited) (v : ι) (hv : Function.update s.workers w x v = .exited) :
    s.task_queue_.closed_ = true ∧ s.task_queue_.buffer_ = [] :=
  h.exited v (of_update (P := fun x : Worker => x = .exited) hx hv).2

omit [DecidableEq κ] [DecidableEq ι] in
/-- After `Join` has returned no worker is left to take a step. -/
theorem Conserved.not_returned {s : State κ ι} (h : Conserved s) {w : ι}
    (hw : s.workers w ≠ .exited) : s.join ≠ .returned :=
  fun hreturned => hw (h.returned hreturned w)

/-- A step moves at most one task, or `Cancel` discards those in the queue. -/
theorem Conserved.tasks_stepped {s s' : State κ ι} (h : Conserved s) (hstep : Stepped s s') (u : Nat) :
    s'.accepted.count u = s'.task_queue_.buffer_.count u + total (Worker.runs u) s'.workers +
      s'.executed.count u + s'.discarded.count u := by
  have htasks := h.tasks u
  cases hstep with
  | put p t call opened =>
      simp only [List.count_append]
      omega
  | take w t queue worker front closed =>
      have hworkers := total_step (Worker.runs u) worker (.executeHere t)
      rw [front, List.count_cons] at htasks
      simp only [Worker.runs] at hworkers
      simp only [beq_iff_eq] at htasks
      dsimp only
      omega
  | exit w worker empty closed =>
      have hworkers := total_step (Worker.runs u) worker .exited
      simp only [Worker.runs] at hworkers
      dsimp only
      omega
  | finish w t worker idle =>
      have hworkers := total_step (Worker.runs u) worker .count
      simp only [Worker.runs] at hworkers
      simp only [List.count_append, List.count_singleton, beq_iff_eq]
      omega
  | count w worker =>
      have hworkers := total_step (Worker.runs u) worker .releaseWorker
      simp only [Worker.runs] at hworkers
      dsimp only
      omega
  | release w worker =>
      have hworkers := total_step (Worker.runs u) worker .take
      simp only [Worker.runs] at hworkers
      simp only [State.release]
      omega
  | shutdown notCalled =>
      simp only [UnboundedBlockingQueue.closeImpl, List.count_append, if_true, List.count_nil]
      omega
  | execute | refuse | releaseWorker | join | home | sleep | wake | close | joined | shutdownJoined =>
      exact htasks

/-- A task number is given once, and `Put` accepts or refuses it. -/
theorem Conserved.ids_stepped {s s' : State κ ι} (h : Conserved s) (hstep : Stepped s s') (u : Nat) :
    s'.accepted.count u + s'.refused.count u + total (Submission.pending u) s'.calls =
      if u < s'.submitted then 1 else 0 := by
  have hid := h.ids u
  cases hstep with
  | execute p idle may room =>
      have hcalls := total_step (Submission.pending u) idle (some (.put s.submitted))
      simp only [Submission.pending] at hcalls
      simp only [State.acquireWorker]
      split at hid <;> split at hcalls <;> split <;> omega
  | put p t call opened =>
      have hcalls := total_step (Submission.pending u) call none
      simp only [Submission.pending] at hcalls
      simp only [List.count_append, List.count_singleton, beq_iff_eq]
      omega
  | refuse p t call closed =>
      have hcalls := total_step (Submission.pending u) call (some (.releaseWorker t))
      simp only [Submission.pending] at hcalls
      simp only [List.count_append, List.count_singleton, beq_iff_eq]
      omega
  | releaseWorker p t call =>
      have hcalls := total_step (Submission.pending u) call none
      simp only [Submission.pending] at hcalls
      show s.accepted.count u + s.refused.count u +
        total (Submission.pending u) (Function.update s.calls p none) = if u < s.submitted then 1 else 0
      omega
  | take | exit | finish | count | release | join | home | sleep | wake | close | joined | shutdown
  | shutdownJoined => exact hid

/-- `executed_counter_` lags behind by the workers that have run a task and not counted it. -/
theorem Conserved.counter_stepped {s s' : State κ ι} (h : Conserved s) (hstep : Stepped s s') :
    ∃ n, s'.executed_counter_ = .ofNat n ∧ s'.executed.length = n + total Worker.uncounted s'.workers := by
  obtain ⟨n, hn, hcounter⟩ := h.counter
  cases hstep with
  | take w t queue worker front closed =>
      have hworkers := total_step Worker.uncounted worker (.executeHere t)
      simp only [Worker.uncounted] at hworkers
      refine ⟨n, hn, ?_⟩
      dsimp only
      omega
  | exit w worker empty closed =>
      have hworkers := total_step Worker.uncounted worker .exited
      simp only [Worker.uncounted] at hworkers
      refine ⟨n, hn, ?_⟩
      dsimp only
      omega
  | finish w t worker idle =>
      have hworkers := total_step Worker.uncounted worker .count
      simp only [Worker.uncounted] at hworkers
      refine ⟨n, hn, ?_⟩
      simp only [List.length_append, List.length_singleton]
      omega
  | count w worker =>
      have hworkers := total_step Worker.uncounted worker .releaseWorker
      simp only [Worker.uncounted] at hworkers
      refine ⟨n + 1, ?_, ?_⟩
      · rw [UInt64.ofNat_add, hn]
        rfl
      · dsimp only
        omega
  | release w worker =>
      have hworkers := total_step Worker.uncounted worker .take
      simp only [Worker.uncounted] at hworkers
      refine ⟨n, hn, ?_⟩
      simp only [State.release]
      omega
  | execute | put | refuse | releaseWorker | join | home | sleep | wake | close | joined | shutdown
  | shutdownJoined => exact ⟨n, hn, hcounter⟩

/-- A worker exits only when the queue is closed and empty, and then nothing is put into it. -/
theorem Conserved.exited_stepped {s s' : State κ ι} (h : Conserved s) (hstep : Stepped s s') (v : ι)
    (hv : s'.workers v = .exited) : s'.task_queue_.closed_ = true ∧ s'.task_queue_.buffer_ = [] := by
  cases hstep with
  | put p t call opened =>
      have hclosed := (h.exited v hv).1
      rw [opened] at hclosed
      cases hclosed
  | take w t queue worker front closed =>
      -- an exited worker has seen an empty queue
      have hempty := (h.exited_update (by simp) v hv).2
      rw [front] at hempty
      cases hempty
  | exit w worker empty closed => exact ⟨closed, empty⟩
  | finish | count | release => exact h.exited_update (by simp) v hv
  | close hjoin => exact ⟨rfl, (h.exited v hv).2⟩
  | shutdown notCalled => exact ⟨rfl, rfl⟩
  | execute | refuse | releaseWorker | join | home | sleep | wake | joined | shutdownJoined =>
      exact h.exited v hv

/-- The queue is closed by `Join` and `Shutdown`, and by nobody else. -/
theorem Conserved.closed_stepped {s s' : State κ ι} (h : Conserved s) (hstep : Stepped s s') :
    s'.task_queue_.closed_ = true ↔ s'.join.closed = true ∨ s'.shutdown ≠ .notCalled := by
  have hclosed := h.closed
  cases hstep with
  | execute | releaseWorker | release =>
      simp only [State.acquireWorker, State.release, Join.closed_notified]
      exact hclosed
  | take w t queue worker front closed =>
      rw [closed]
      exact hclosed
  | join hjoin | home hjoin | sleep hjoin | wake hjoin | joined hjoin =>
      rw [hclosed, hjoin]
      simp [Join.closed]
  | close hjoin => simp [UnboundedBlockingQueue.closeImpl, Join.closed]
  | shutdown notCalled => simp [UnboundedBlockingQueue.closeImpl]
  | shutdownJoined cancelled exited =>
      rw [hclosed, cancelled]
      simp
  | put | refuse | exit | finish | count => exact hclosed

/-- After `Join` has returned, the workers stay where they are. -/
theorem Conserved.returned_stepped {s s' : State κ ι} (h : Conserved s) (hstep : Stepped s s')
    (hreturned : s'.join = .returned) (v : ι) : s'.workers v = .exited := by
  have hnot : ∀ {w x}, s.workers w = x → x ≠ .exited → s.join ≠ .returned := fun hw hx =>
    h.not_returned (hw ▸ hx)
  cases hstep with
  | execute | releaseWorker => exact h.returned (Join.notified_returned hreturned) v
  | take w t queue worker | exit w worker | finish w t worker | count w worker =>
      exact absurd hreturned (hnot worker (by simp))
  | release w worker => exact absurd (Join.notified_returned hreturned) (hnot worker (by simp))
  | join | home | sleep | wake | close => cases hreturned
  | joined hjoin exited => exact exited v
  | put | refuse | shutdown | shutdownJoined => exact h.returned hreturned v

/-- After `Shutdown` the queue stays empty. -/
theorem Conserved.cancelled_stepped {s s' : State κ ι} (h : Conserved s) (hstep : Stepped s s')
    (hcancelled : s'.shutdown ≠ .notCalled) : s'.task_queue_.buffer_ = [] := by
  cases hstep with
  | put p t call opened =>
      have hclosed := h.closed.mpr (.inr hcancelled)
      rw [opened] at hclosed
      cases hclosed
  | take w t queue worker front closed =>
      have hempty := h.cancelled hcancelled
      rw [front] at hempty
      cases hempty
  | shutdown notCalled => rfl
  | shutdownJoined cancelled exited => exact h.cancelled (by rw [cancelled]; simp)
  | execute | refuse | releaseWorker | exit | finish | count | release | join | home | sleep | wake | close
  | joined => exact h.cancelled hcancelled

/-- **A step keeps each task in one place.** -/
theorem Conserved.stepped {s s' : State κ ι} (h : Conserved s) (hstep : Stepped s s') : Conserved s' where
  tasks := h.tasks_stepped hstep
  ids := h.ids_stepped hstep
  counter := h.counter_stepped hstep
  exited := h.exited_stepped hstep
  closed := h.closed_stepped hstep
  returned := h.returned_stepped hstep
  cancelled := h.cancelled_stepped hstep
  kept hshutdown := by
    cases hstep with
    | shutdown | shutdownJoined => cases hshutdown
    | _ => exact h.kept hshutdown

theorem reachable_conserved {s : State κ ι} (h : (system κ ι).Reachable s) : Conserved s :=
  h.invariant_nextIf conserved_init fun _ _ _ hinv hfits hnext => hinv.stepped (next_stepped hfits hnext)

/-! ## `Join` -/

/-- What has been submitted before `Join`, or by such a task, is accepted, and done when `Join` is past
    `EverybodyHome`. -/
structure Home (s : State κ ι) : Prop where
  all : s.join = .notCalled → ∀ t < s.submitted, t ∈ s.before
  accepted : ∀ t ∈ s.before, t ∈ s.accepted ∨ ∃ p, s.calls p = some (.put t)
  executed : s.join.home = true → ∀ t ∈ s.before, t ∈ s.executed

omit [DecidableEq κ] [DecidableEq ι] [Fintype ι] [Fintype κ] in
theorem home_init : Home ({} : State κ ι) := by
  constructor <;> simp

theorem Join.home_of_closed {j : Join} (h : j.closed = true) : j.home = true := by
  cases j <;> simp [Join.closed, Join.home] at h ⊢

theorem Join.home_notified (j : Join) : j.notified.home = j.home := by
  cases j <;> rfl

theorem Join.notified_notCalled {j : Join} (h : j.notified = .notCalled) : j = .notCalled := by
  cases j <;> simp [Join.notified] at h ⊢

omit [DecidableEq κ] [DecidableEq ι] in
/-- A task that has run and one that is run are two tasks. -/
theorem Conserved.not_executed {s : State κ ι} (h : Conserved s) {w : ι} {t : Nat}
    (hw : s.workers w = .executeHere t) : t ∉ s.executed := by
  intro hmem
  have htasks := h.tasks t
  have hle := h.count_le t
  have hruns := le_total (Worker.runs t) s.workers w
  rw [hw] at hruns
  simp only [Worker.runs, if_pos] at hruns
  have hpos := List.count_pos_iff.mpr hmem
  omega

omit [DecidableEq κ] [DecidableEq ι] in
/-- So are a task that has been accepted and one that has yet to be. -/
theorem Conserved.not_accepted {s : State κ ι} (h : Conserved s) {p : κ ⊕ ι} {t : Nat}
    (hp : s.calls p = some (.put t)) : t ∉ s.accepted := by
  intro hmem
  have hid := h.ids t
  have hpending := le_total (Submission.pending t) s.calls p
  rw [hp] at hpending
  simp only [Submission.pending, if_pos] at hpending
  have hpos := List.count_pos_iff.mpr hmem
  split at hid <;> omega

omit [DecidableEq κ] [DecidableEq ι] in
theorem Conserved.accepted_of_executed {s : State κ ι} (h : Conserved s) {t : Nat}
    (ht : t ∈ s.executed) : t ∈ s.accepted := by
  have htasks := h.tasks t
  have hpos := List.count_pos_iff.mpr ht
  apply List.count_pos_iff.mp
  omega

omit [DecidableEq κ] [DecidableEq ι] in
/-- With the counter at zero, nothing is queued, running or being submitted. -/
theorem Counted.idle {s : State κ ι} (h : Counted s) (hzero : s.current_number_ = 0) :
    s.task_queue_.buffer_ = [] ∧ (∀ w, (s.workers w).weight = 0) ∧ (∀ p, s.calls p = none) ∧
      s.discarded = [] := by
  have hnumber := h.number
  rw [hzero, UInt64.toNat_zero] at hnumber
  refine ⟨List.length_eq_zero_iff.mp (by omega), ?_, ?_, List.length_eq_zero_iff.mp (by omega)⟩
  · exact eq_zero_of_total (by omega)
  · intro p
    have hweight : Submission.weight (s.calls p) = 0 := eq_zero_of_total (by omega) p
    cases hp : s.calls p with
    | none => rfl
    | some c =>
        rw [hp] at hweight
        cases hweight

theorem Worker.runs_of_weight {x : Worker} (h : x.weight = 0) (t : Nat) : x.runs t = 0 := by
  cases x <;> simp [Worker.weight, Worker.runs] at h ⊢

theorem Worker.uncounted_of_weight {x : Worker} (h : x.weight = 0) : x.uncounted = 0 := by
  cases x <;> simp [Worker.weight, Worker.uncounted] at h ⊢

omit [DecidableEq κ] [DecidableEq ι] in
/-- With no worker at work and nothing queued or discarded, what was accepted has run. -/
theorem Conserved.executed_count {s : State κ ι} (h : Conserved s)
    (hempty : s.task_queue_.buffer_ = []) (hidle : ∀ w, (s.workers w).weight = 0)
    (hkept : s.discarded = []) (t : Nat) : s.executed.count t = s.accepted.count t := by
  have htasks := h.tasks t
  have hruns : total (Worker.runs t) s.workers = 0 :=
    total_eq_zero fun w => Worker.runs_of_weight (hidle w) t
  rw [hempty, hkept, hruns, List.count_nil] at htasks
  omega

omit [DecidableEq κ] [DecidableEq ι] [Fintype ι] [Fintype κ] in
/-- Before `Join` is called, whatever is submitted counts. -/
theorem State.submitsBefore_of_notCalled {s : State κ ι} {p : κ ⊕ ι} (hjoin : s.join = .notCalled)
    (may : s.mayExecute p = true) : s.submitsBefore p = true := by
  cases p with
  | inl k => simp [submitsBefore, hjoin]
  | inr w =>
      cases hw : s.workers w with
      | executeHere t => simp [submitsBefore, hw, hjoin]
      | take | count | releaseWorker | exited => simp [mayExecute, hw] at may

omit [DecidableEq κ] [DecidableEq ι] in
/-- Past `EverybodyHome` nobody is left who could submit a task that counts. -/
theorem Home.not_submitsBefore {s : State κ ι} (h : Home s) (hconserved : Conserved s)
    (hhome : s.join.home = true) (p : κ ⊕ ι) : s.submitsBefore p = false := by
  have hcalled : s.join ≠ .notCalled := by
    intro hjoin
    rw [hjoin] at hhome
    cases hhome
  cases p with
  | inl k => simp [State.submitsBefore, hcalled]
  | inr w =>
      cases hw : s.workers w with
      | executeHere t =>
          have hnot : t ∉ s.before := fun hmem => hconserved.not_executed hw (h.executed hhome t hmem)
          simp [State.submitsBefore, hw, hcalled, hnot]
      | take | count | releaseWorker | exited => simp [State.submitsBefore, hw]

omit [DecidableEq κ] [DecidableEq ι] [Fintype ι] [Fintype κ] in
/-- Steps that leave the tasks submitted before `Join` where they are. -/
theorem Home.congr {s s' : State κ ι} (h : Home s) (hbefore : s'.before = s.before)
    (hsubmitted : s'.submitted = s.submitted) (haccepted : s'.accepted = s.accepted)
    (hput : ∀ p t, s.calls p = some (.put t) → s'.calls p = some (.put t))
    (hexecuted : ∀ t ∈ s.executed, t ∈ s'.executed)
    (hall : s'.join = .notCalled → s.join = .notCalled)
    (hhome : s'.join.home = true → s.join.home = true) : Home s' where
  all hjoin := by
    rw [hsubmitted, hbefore]
    exact h.all (hall hjoin)
  accepted t ht := by
    rw [haccepted]
    rw [hbefore] at ht
    rcases h.accepted t ht with hmem | ⟨p, hp⟩
    · exact .inl hmem
    · exact .inr ⟨p, hput p t hp⟩
  executed hjoin t ht := by
    rw [hbefore] at ht
    exact hexecuted t (h.executed (hhome hjoin) t ht)

omit [Fintype ι] [Fintype κ] in
/-- The others stay in `Put`, when thread `p` makes or leaves another call. -/
theorem put_update {s : State κ ι} {p q : κ ⊕ ι} {t : Nat} {call : Option Submission} (hq : s.calls q = some (.put t))
    (hp : s.calls p ≠ some (.put t)) : Function.update s.calls p call q = some (.put t) := by
  have hne : q ≠ p := by
    rintro rfl
    exact hp hq
  rwa [Function.update_of_ne hne]

/-- A task is submitted: it counts, or `EverybodyHome` has returned. -/
theorem Home.execute {s : State κ ι} (h : Home s) (hconserved : Conserved s) {p : κ ⊕ ι} (idle : s.calls p = none)
    (may : s.mayExecute p = true) :
    Home { s.acquireWorker with
      calls := Function.update s.calls p (some (.put s.submitted))
      submitted := s.submitted + 1
      before := if s.submitsBefore p then s.before ++ [s.submitted] else s.before } where
  all hnotified t ht := by
    have hjoin : s.join = .notCalled := Join.notified_notCalled hnotified
    have hbefore := State.submitsBefore_of_notCalled hjoin may
    rw [if_pos hbefore, List.mem_append, List.mem_singleton]
    rcases Nat.lt_or_eq_of_le (Nat.le_of_lt_succ ht) with hlt | heq
    · exact .inl (h.all hjoin t hlt)
    · exact .inr heq
  accepted t ht := by
    have hmem : t ∈ s.before ∨ t = s.submitted := by
      split at ht
      · simpa using ht
      · exact .inl ht
    rcases hmem with hmem | rfl
    · refine (h.accepted t hmem).imp id ?_
      rintro ⟨q, hq⟩
      exact ⟨q, put_update hq (by simp [idle])⟩
    · exact .inr ⟨p, Function.update_self ..⟩
  executed hnotified t ht := by
    have hhome : s.join.home = true := (Join.home_notified s.join).symm.trans hnotified
    rw [h.not_submitsBefore hconserved hhome p, if_neg Bool.false_ne_true] at ht
    exact h.executed hhome t ht

/-- The queue refuses a task: it is closed, so `Join` has waited for every task it promises. -/
theorem Home.refuse {s : State κ ι} (h : Home s) (hconserved : Conserved s) (hshutdown : s.shutdown = .notCalled)
    {p : κ ⊕ ι} {t : Nat} (call : s.calls p = some (.put t)) (closed : s.task_queue_.closed_ = true) :
    Home { s with
      calls := Function.update s.calls p (some (.releaseWorker t))
      refused := s.refused ++ [t] } := by
  have hclosed : s.join.closed = true := by
    rcases hconserved.closed.mp closed with hclosed | hcalled
    · exact hclosed
    · exact absurd hshutdown hcalled
  have hhome := Join.home_of_closed hclosed
  have hnot : t ∉ s.before := fun hmem =>
    hconserved.not_accepted call (hconserved.accepted_of_executed (h.executed hhome t hmem))
  refine ⟨h.all, ?_, h.executed⟩
  intro u hu
  refine (h.accepted u hu).imp id ?_
  rintro ⟨q, hq⟩
  refine ⟨q, put_update hq ?_⟩
  rintro hp
  rw [call] at hp
  cases hp
  exact hnot hu

omit [DecidableEq κ] [DecidableEq ι] in
/-- Where the counter is zero, `EverybodyHome` returns. -/
theorem Home.home {s : State κ ι} (h : Home s) (hcounted : Counted s) (hconserved : Conserved s)
    (zero : s.current_number_ = 0) : Home { s with join := .close } := by
  obtain ⟨hempty, hidle, hcalls, hkept⟩ := hcounted.idle zero
  refine ⟨by simp, h.accepted, ?_⟩
  intro _ t ht
  have hmem : t ∈ s.accepted := by
    rcases h.accepted t ht with hmem | ⟨p, hp⟩
    · exact hmem
    · rw [hcalls p] at hp
      cases hp
  apply List.count_pos_iff.mp
  rw [hconserved.executed_count hempty hidle hkept]
  exact List.count_pos_iff.mpr hmem

/-- **One step keeps the promise of `Join`**, as long as `Shutdown` has not been called. -/
theorem Home.stepped {s s' : State κ ι} (h : Home s) (hcounted : Counted s) (hconserved : Conserved s)
    (hshutdown : s.shutdown = .notCalled) (hstep : Stepped s s') : Home s' := by
  cases hstep with
  | execute p idle may room => exact h.execute hconserved idle may
  | put p t call opened =>
      refine ⟨h.all, ?_, h.executed⟩
      intro u hu
      dsimp only
      rw [List.mem_append, List.mem_singleton]
      rcases h.accepted u hu with hmem | ⟨q, hq⟩
      · exact .inl (.inl hmem)
      · by_cases hqp : q = p
        · subst hqp
          rw [call] at hq
          cases hq
          exact .inl (.inr rfl)
        · exact .inr ⟨q, by rwa [Function.update_of_ne hqp]⟩
  | refuse p t call closed => exact h.refuse hconserved hshutdown call closed
  | releaseWorker p t call =>
      refine h.congr rfl rfl rfl ?_ (fun _ => id) Join.notified_notCalled
        (fun hhome => by rwa [← Join.home_notified])
      intro q u hq
      exact put_update hq (by simp [call])
  | finish w t worker idle =>
      exact h.congr rfl rfl rfl (fun _ _ => id) (fun _ hu => List.mem_append_left _ hu) id id
  | release w worker =>
      exact h.congr rfl rfl rfl (fun _ _ => id) (fun _ => id) Join.notified_notCalled
        (fun hhome => by rwa [← Join.home_notified])
  | home waits zero => exact h.home hcounted hconserved zero
  | close hjoin | joined hjoin =>
      exact h.congr rfl rfl rfl (fun _ _ => id) (fun _ => id) (by simp) (by rw [hjoin]; exact fun _ => rfl)
  | join | sleep | wake =>
      exact h.congr rfl rfl rfl (fun _ _ => id) (fun _ => id) (by simp) (by simp [Join.home])
  | take | exit | count | shutdown | shutdownJoined =>
      exact h.congr rfl rfl rfl (fun _ _ => id) (fun _ => id) id id

omit [Fintype ι] [Fintype κ] in
/-- `Shutdown` is not undone. -/
theorem Stepped.notCalled {s s' : State κ ι} (hstep : Stepped s s') (h : s'.shutdown = .notCalled) :
    s.shutdown = .notCalled := by
  cases hstep with
  | shutdown | shutdownJoined => cases h
  | _ => exact h

theorem reachable_home {s : State κ ι} (h : (system κ ι).Reachable s)
    (hshutdown : s.shutdown = .notCalled) : Home s := by
  refine h.invariant_reachable (P := fun s => s.shutdown = .notCalled → Home s) ?_ ?_ hshutdown
  · rintro s rfl -
    exact home_init
  · rintro s s' hs hinv ⟨a, hfits, hnext⟩ hnot
    have hstep := next_stepped hfits hnext
    have hnot' := hstep.notCalled hnot
    exact (hinv hnot').stepped (reachable_counted hs) (reachable_conserved hs) hnot' hstep

/-- **`Join` is a graceful shutdown.** For every number of workers, every external threads, every tasks
    and every interleaving without a call of `Shutdown`: a task counted as submitted before `Join`, which
    until `Join` is called is every task, and from then on every task such a task submits, is accepted by
    the queue, or still on its way into it, and never refused. When `Join` has returned, these have all
    been accepted, every accepted task has run exactly once, no task is queued or running, and
    `ExecutedTaskCount()` is the number of accepted tasks. -/
theorem join_waits_for_all [Nonempty ι] {s : State κ ι} (h : (system κ ι).Reachable s)
    (hshutdown : s.shutdown = .notCalled) :
    (s.join = .notCalled → ∀ t < s.submitted, t ∈ s.before) ∧
      (∀ t ∈ s.before, t ∉ s.refused ∧ (t ∈ s.accepted ∨ ∃ p, s.calls p = some (.put t))) ∧
      (s.join = .returned →
        (∀ t ∈ s.before, t ∈ s.accepted) ∧ s.accepted.Nodup ∧ s.executed.Perm s.accepted ∧
          s.task_queue_.buffer_ = [] ∧ (∀ w, s.workers w = .exited) ∧
          s.executed_counter_ = .ofNat s.accepted.length) := by
  have hconserved := reachable_conserved h
  have hhome := reachable_home h hshutdown
  refine ⟨hhome.all, ?_, ?_⟩
  · intro t ht
    refine ⟨?_, hhome.accepted t ht⟩
    intro hrefused
    have hid := hconserved.ids t
    have hpos := List.count_pos_iff.mpr hrefused
    rcases hhome.accepted t ht with hmem | ⟨p, hp⟩
    · have hpos' := List.count_pos_iff.mpr hmem
      split at hid <;> omega
    · have hpending := le_total (Submission.pending t) s.calls p
      rw [hp] at hpending
      simp only [Submission.pending, if_pos] at hpending
      split at hid <;> omega
  · intro hreturned
    have hexited := hconserved.returned hreturned
    obtain ⟨w⟩ := ‹Nonempty ι›
    have hempty := (hconserved.exited w (hexited w)).2
    have hidle : ∀ v, (s.workers v).weight = 0 := fun v => by rw [hexited v]; rfl
    have hcount := hconserved.executed_count hempty hidle (hconserved.kept hshutdown)
    have hperm : s.executed.Perm s.accepted := List.perm_iff_count.mpr hcount
    refine ⟨?_, List.nodup_iff_count_le_one.mpr hconserved.count_le, hperm, hempty, hexited, ?_⟩
    · intro t ht
      exact hconserved.accepted_of_executed (hhome.executed (by rw [hreturned]; rfl) t ht)
    · have huncounted : total Worker.uncounted s.workers = 0 :=
        total_eq_zero fun v => Worker.uncounted_of_weight (hidle v)
      obtain ⟨n, hn, hcounter⟩ := hconserved.counter
      rw [huncounted, Nat.add_zero] at hcounter
      rw [hn, ← hcounter, hperm.length_eq]

/-- Task `0` submits task `1` while `Join` sleeps, and throws; then `Join` returns. -/
theorem join_waits_for_all_transitive :
    ∃ s, (system Unit (Fin 2)).Reachable s ∧ s.join = .returned ∧ s.executed.Perm s.accepted ∧
      s.executed_counter_ = 2 := by
  have hrun : ∃ s, System.runWhile fits next ({} : State Unit (Fin 2))
      [.execute (.inl ()), .put (.inl ()), .take 0, .join, .everybodyHome, .execute (.inr 0),
        .everybodyHome, .put (.inr 0), .finish 0 true, .count 0, .release 0, .everybodyHome, .take 1,
        .finish 1 false, .count 1, .release 1, .everybodyHome, .close, .take 0, .take 1,
        .joinWorkers] = some s ∧
      s.join = .returned ∧ s.shutdown = .notCalled ∧ s.accepted.length = 2 := ⟨_, rfl, rfl, rfl, rfl⟩
  obtain ⟨s, hs, hreturned, hshutdown, haccepted⟩ := hrun
  have h : (system Unit (Fin 2)).Reachable s := System.reachable_of_runWhile (fun _ _ => id) _ hs
  obtain ⟨-, -, hperm, -, -, hcounter⟩ := (join_waits_for_all h hshutdown).2.2 hreturned
  exact ⟨s, h, hreturned, hperm, hcounter.trans (congrArg UInt64.ofNat haccepted)⟩

/-! ## `Shutdown` -/

/-- The step does not cancel a queue that holds a task. -/
def CancelsNothing (s s' : State κ ι) : Prop :=
  s.shutdown = .notCalled → s'.shutdown ≠ .notCalled → s.task_queue_.buffer_ = []

omit [DecidableEq κ] [DecidableEq ι] in
/-- The counter is right as long as nothing has been discarded, and no longer. -/
theorem Counted.accounted_iff {s : State κ ι} (h : Counted s) : Accounted s ↔ s.discarded = [] := by
  have hnumber := h.number
  unfold Accounted
  rw [← List.length_eq_zero_iff]
  constructor <;> intro h <;> omega

omit [Fintype κ] in
theorem reachable_discarded {s : State κ ι} (h : ((system κ ι).restrict CancelsNothing).Reachable s) :
    s.discarded = [] := by
  refine h.invariant_restrict (P := fun s => s.discarded = []) ?_ ?_
  · rintro s rfl
    rfl
  · rintro s s' - hnone hcancels ⟨a, hfits, hnext⟩
    cases next_stepped hfits hnext with
    | shutdown notCalled =>
        have hempty := hcancels notCalled (by simp)
        dsimp only
        rw [hnone, hempty]
        rfl
    | _ => exact hnone

/-- `Join` does not sleep; and without a step of another thread it gets past `EverybodyHome`, if it has been called or
    when it is. -/
def GoesHome (s : State κ ι) : Prop :=
  s.join ≠ .asleep ∧ ∃ as s', (∀ a ∈ as, a = .join ∨ a = .everybodyHome) ∧ System.run next s as = some s' ∧
    s'.join.home = true

omit [Fintype κ] in
theorem goesHome_of_zero {s : State κ ι} (hzero : s.current_number_ = 0) (hasleep : s.join ≠ .asleep) : GoesHome s := by
  refine ⟨hasleep, ?_⟩
  cases hjoin : s.join with
  | notCalled =>
      refine ⟨[.join, .everybodyHome], { s with join := .close }, by simp, ?_, rfl⟩
      simp [System.run, next, hjoin, hzero]
  | everybodyHome =>
      refine ⟨[.everybodyHome], { s with join := .close }, by simp, ?_, rfl⟩
      simp [System.run, next, hjoin, hzero]
  | asleep => exact absurd hjoin hasleep
  | close | joinWorkers | returned => exact ⟨[], s, nofun, rfl, by rw [hjoin]; rfl⟩

/-- **The accounts survive `Shutdown` if `Cancel` finds the queue empty.** In every run the counter is
    right exactly as long as no task has been discarded. So in every run in which `Cancel` finds the queue
    empty it is right in every state, and positive wherever it is about to be lowered; and once the workers
    have exited and no call of `Execute` is in progress, it is zero if and only if there was a worker to empty the
    queue, or `Shutdown` has been called, or the queue is empty. `Join` then does not sleep, and goes home when it
    looks at the counter. -/
theorem accounts_match :
    (∀ s, (system κ ι).Reachable s → (Accounted s ↔ s.discarded = [])) ∧
      ∀ s, ((system κ ι).restrict CancelsNothing).Reachable s →
        Accounted s ∧
          (∀ w, s.workers w = .releaseWorker → 0 < s.current_number_.toNat) ∧
          (∀ p t, s.calls p = some (.releaseWorker t) → 0 < s.current_number_.toNat) ∧
          ((∀ w, s.workers w = .exited) → (∀ p, s.calls p = none) →
            (s.current_number_ = 0 ↔ Nonempty ι ∨ s.shutdown ≠ .notCalled ∨ s.task_queue_.buffer_ = []) ∧
              (s.current_number_ = 0 → GoesHome s)) := by
  refine ⟨fun s h => (reachable_counted h).accounted_iff, ?_⟩
  intro s h
  have hcounted := reachable_counted h.of_restrict
  have hconserved := reachable_conserved h.of_restrict
  have haccounted := hcounted.accounted_iff.mpr (reachable_discarded h)
  refine ⟨haccounted, ?_, ?_, ?_⟩
  · intro w hw
    exact hcounted.pos_of_worker (w := w) (by rw [hw]; rfl)
  · intro p t hp
    exact hcounted.pos_of_call hp
  · intro hexited hcalls
    refine ⟨?_, fun hzero => goesHome_of_zero hzero fun hasleep => hcounted.asleep hasleep hzero⟩
    have hworkers : total Worker.weight s.workers = 0 :=
      total_eq_zero fun w => by rw [hexited w]; rfl
    have hcalls : total Submission.weight s.calls = 0 := total_eq_zero fun p => by rw [hcalls p]; rfl
    have hnumber : s.current_number_.toNat = s.task_queue_.buffer_.length := by
      unfold Accounted at haccounted
      omega
    have hempty : s.current_number_ = 0 ↔ s.task_queue_.buffer_ = [] := by
      rw [← UInt64.toNat_inj, hnumber]
      exact List.length_eq_zero_iff
    rw [hempty]
    refine ⟨fun hnil => .inr (.inr hnil), ?_⟩
    rintro (⟨⟨w⟩⟩ | hcancelled | hnil)
    · exact (hconserved.exited w (hexited w)).2
    · exact hconserved.cancelled hcancelled
    · exact hnil

omit [Fintype κ] in
/-- A step of `next` for which there is memory. -/
theorem step_of_fits {s s' : State κ ι} {a : Action κ ι} (hroom : s.current_number_ + 1 ≠ 0) (h : next s a = some s') :
    (system κ ι).step s s' := by
  refine ⟨a, ?_, h⟩
  cases a with
  | execute p => exact decide_eq_true hroom
  | _ => rfl

/-- `Join` sleeps while the last task runs; `Shutdown` finds the queue empty, and `Join` goes home. -/
theorem accounts_match_empty :
    ∃ s, ((system Unit Unit).restrict CancelsNothing).Reachable s ∧ s.shutdown = .returned ∧
      s.current_number_ = 0 ∧ s.join = .everybodyHome ∧ GoesHome s := by
  have hrun : ∃ s, System.runIf
      (fun s s' => (s.shutdown != .notCalled || s'.shutdown == .notCalled || s.task_queue_.buffer_ == []) &&
        s.current_number_ + 1 != 0)
      next ({} : State Unit Unit)
      [.execute (.inl ()), .put (.inl ()), .join, .everybodyHome, .take (), .shutdown, .finish () false,
        .count (), .release (), .take (), .shutdownWorkers] = some s ∧
      s.shutdown = .returned ∧ s.join = .everybodyHome ∧ (∀ w, s.workers w = .exited) ∧ ∀ p, s.calls p = none :=
    ⟨_, rfl, rfl, rfl, fun _ => rfl, fun p => by cases p <;> rfl⟩
  obtain ⟨s, hs, hreturned, hjoin, hexited, hcalls⟩ := hrun
  have hsteps : ((system Unit Unit).restrict CancelsNothing).Steps {} s := by
    refine System.restrict_steps_of_runIf ?_ hs
    intro s a s' hnext hok
    obtain ⟨hcancels, hroom⟩ := Bool.and_eq_true_iff.mp hok
    refine ⟨fun hnot hcalled => ?_, step_of_fits (by simpa using hroom) hnext⟩
    simpa [hnot, hcalled] using hcancels
  have h : ((system Unit Unit).restrict CancelsNothing).Reachable s := ⟨_, rfl, hsteps⟩
  obtain ⟨hzero, hhome⟩ := (accounts_match.2 s h).2.2.2 hexited hcalls
  have hnumber := hzero.mpr (.inl ⟨()⟩)
  exact ⟨s, h, hreturned, hnumber, hjoin, hhome hnumber⟩

/-- `Shutdown` meets a queued task: the counter stays at one after the workers have exited. -/
theorem shutdown_not_accounted :
    ¬ ∀ s, (system Unit Unit).Reachable s →
      Accounted s ∧ ((∀ w, s.workers w = .exited) → (∀ p, s.calls p = none) → s.current_number_ = 0) := by
  intro hclaim
  have hrun : ∃ s, System.runWhile fits next ({} : State Unit Unit)
      [.execute (.inl ()), .put (.inl ()), .join, .everybodyHome, .shutdown, .take (),
        .shutdownWorkers] = some s ∧
      (∀ w, s.workers w = .exited) ∧ (∀ p, s.calls p = none) ∧ s.current_number_ = 1 :=
    ⟨_, rfl, fun _ => rfl, fun p => by cases p <;> rfl, rfl⟩
  obtain ⟨s, hs, hexited, hcalls, hone⟩ := hrun
  have hzero := (hclaim s (System.reachable_of_runWhile (fun _ _ => id) _ hs)).2 hexited hcalls
  rw [hone] at hzero
  exact absurd hzero (by decide)

end

end StaticThreadPool
end Executors
end Tpcc
