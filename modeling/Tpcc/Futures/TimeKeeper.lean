import Mathlib.Algebra.Group.Int.Defs
import Mathlib.Data.List.Nodup
import Tpcc.Support.PriorityQueue
import Tpcc.Transition.System

/-!
# `Futures.TimeKeeper` — timers, fired by the polls of one thread

`TimeKeeper`: the worker thread that polls, with the operations of a poll one at a time, and the calls of `After`
by any threads. A subscriber that calls `After` from inside a poll is among them: the poll holds `mutex_` only while
it grabs, and delivers after that. Time is in nanoseconds, and a promise is the number of the call that made it.

The comparison of timers is turned round, so the top of the queue is a timer with the earliest deadline. The loop
that grabs stops at the first top that is not due, and then nothing below it is (`Drained`).

## Contents
- **The code.** `Timer.lt`, `Worker`, `State`, `next`.
- **Polls.** `Poll`, the history of one poll, and what it is to fulfil (`Due`).
- **The invariant.** `Stepped`, `Inv`.
- **Results.** `timers_fired`.
-/

namespace Tpcc
namespace Futures
namespace TimeKeeper

open Transition PriorityQueue

/-- `promise_` is mutable, and empty once the promise is moved out. -/
structure Timer where
  deadline_ : Int
  promise_ : Option Nat
  deriving DecidableEq

/-- `Timer::operator<`. -/
def Timer.lt (t rhs : Timer) : Prop := t.deadline_ > rhs.deadline_

instance : DecidableRel Timer.lt := fun t rhs => inferInstanceAs (Decidable (t.deadline_ > rhs.deadline_))

/-- A time point is a 64-bit count. -/
def Representable (t : Int) : Prop := -2 ^ 63 ≤ t ∧ t < 2 ^ 63

instance : DecidablePred Representable := fun t => inferInstanceAs (Decidable (-2 ^ 63 ≤ t ∧ t < 2 ^ 63))

/-- `ToDeadLine`, at this clock. A sum that overflows has no meaning. -/
def toDeadLine (now d : Int) : Option Int := if Representable (now + d) then some (now + d) else none

theorem toDeadLine_eq {now d deadline : Int} (h : toDeadLine now d = some deadline) : deadline = now + d := by
  unfold toDeadLine at h
  split at h
  · exact (Option.some.inj h).symm
  · cases h

/-- What the worker thread does next. -/
inductive Worker where
  /-- `Work`: `stop_requested_.load()`. -/
  | work
  /-- `GrabReadyTimers`: `auto now = Clock::now()`. -/
  | now
  /-- `GrabReadyTimers`: `std::lock_guard guard(mutex_)`. -/
  | lock (now : Int)
  /-- The loop of `GrabReadyTimers`: `queue_.empty()`, the test of `queue_.top()`, and the move of its promise. -/
  | grab (now : Int) (promises : List (Option Nat))
  /-- The loop of `GrabReadyTimers`: `queue_.pop()`. -/
  | pop (now : Int) (promises : List (Option Nat))
  /-- `GrabReadyTimers`: `return promises`, where the guard goes. -/
  | unlock (now : Int) (promises : List (Option Nat))
  /-- The loop of `PollTimerQueue`: `std::move(p).SetValue({})`. -/
  | deliver (promises : List (Option Nat))
  /-- `Work`: `sleep_for(10ms)`. -/
  | sleep
  /-- `Work` has returned. -/
  | stopped
  deriving DecidableEq

/-- Who holds `mutex_`: the worker, or a call of `AddTimer` that is about to push, or to return. -/
inductive Holder where
  | worker
  | push (timer : Timer)
  | pushed
  deriving DecidableEq

/-- History: a call of `After`, with this delay, at this clock. -/
structure Call where
  clock : Int
  delay : Int
  deriving DecidableEq

/-- When the future of the call is to be fulfilled at the earliest. -/
def Call.due (c : Call) : Int := c.clock + c.delay

/-- History: a poll, at clock `now`, that found the timers `found` when it took `mutex_`, and has fulfilled the
    promises `fulfilled`. -/
structure Poll where
  now : Int
  found : List Timer
  fulfilled : List Nat

/-- `calls` are the timers of the calls of `AddTimer` that have yet to take `mutex_`. The history has the calls of
    `After`, one a promise, and the polls, the last one first. -/
structure State where
  queue_ : List Timer := []
  mutex_ : Option Holder := none
  stop_requested_ : Bool := false
  clock : Int := 0
  worker : Worker := .work
  calls : List Timer := []
  afters : List Call := []
  polls : List Poll := []

/-- Time passes; someone calls `After` or `Stop`, or takes the next step of a call; or the worker does. A push and a
    pop have the arrangement that the queue is left in. -/
inductive Action where
  | tick (clock : Int)
  | after (d : Int)
  | lockAdd (timer : Timer)
  | push (queue : List Timer)
  | unlockAdd
  | stop
  | step
  | pop (queue : List Timer)

/-- The history of a `SetValue`. -/
def fulfil (p : Nat) : List Poll → List Poll
  | [] => []
  | x :: polls => { x with fulfilled := x.fulfilled ++ [p] } :: polls

/-- The next operation of the worker, but for the pop. -/
def step (s : State) : Option State :=
  match s.worker with
  | .work => some { s with worker := if s.stop_requested_ then .stopped else .now }
  | .now => some { s with worker := .lock s.clock }
  | .lock now =>
      match s.mutex_ with
      | none =>
          some { s with mutex_ := some .worker, worker := .grab now [], polls := ⟨now, s.queue_, []⟩ :: s.polls }
      | some _ => none
  | .grab now promises =>
      match s.queue_ with
      | [] => some { s with worker := .unlock now promises }
      | top :: queue =>
          if top.deadline_ > now then some { s with worker := .unlock now promises }
          -- the promise is moved out, and the timer stays on top until the pop
          else some { s with
            worker := .pop now (promises ++ [top.promise_]), queue_ := { top with promise_ := none } :: queue }
  | .pop _ _ => none
  | .unlock _ promises => some { s with mutex_ := none, worker := .deliver promises }
  | .deliver [] => some { s with worker := .sleep }
  -- a promise that was moved out before
  | .deliver (none :: _) => none
  | .deliver (some p :: promises) => some { s with worker := .deliver promises, polls := fulfil p s.polls }
  | .sleep => some { s with worker := .work }
  | .stopped => none

def next (s : State) : Action → Option State
  | .tick clock => if s.clock ≤ clock ∧ Representable clock then some { s with clock := clock } else none
  | .after d =>
      (toDeadLine s.clock d).map fun deadline =>
        { s with calls := s.calls ++ [⟨deadline, some s.afters.length⟩], afters := s.afters ++ [⟨s.clock, d⟩] }
  | .lockAdd timer =>
      if s.mutex_ = none ∧ timer ∈ s.calls then
        some { s with mutex_ := some (.push timer), calls := s.calls.erase timer }
      else none
  | .push queue =>
      match s.mutex_ with
      | some (.push timer) =>
          if Pushed Timer.lt s.queue_ timer queue then some { s with queue_ := queue, mutex_ := some .pushed } else none
      | _ => none
  | .unlockAdd =>
      match s.mutex_ with
      | some .pushed => some { s with mutex_ := none }
      | _ => none
  | .stop => some { s with stop_requested_ := true }
  | .step => step s
  | .pop queue =>
      match s.worker with
      | .pop now promises =>
          if s.queue_ ≠ [] ∧ Popped Timer.lt s.queue_ queue then
            some { s with queue_ := queue, worker := .grab now promises }
          else none
      | _ => none

/-- All runs of a `TimeKeeper` that is constructed at clock `start`. -/
def system (start : Int) : System State := System.ofNext { clock := start } next

/-! ## Polls -/

namespace Poll

/-- The timers that the poll found and that are due, in an order in which it may fulfil them. -/
structure Due (x : Poll) (due : List Timer) : Prop where
  perm : due.Perm (x.found.filter fun t => t.deadline_ ≤ x.now)
  ordered : due.Pairwise fun t u => t.deadline_ ≤ u.deadline_

/-- What the poll has fulfilled and what it has yet to, in this order, are the promises of the due timers. -/
def Owes (x : Poll) (promises : List (Option Nat)) : Prop :=
  ∃ due, x.Due due ∧ due.map Timer.promise_ = x.fulfilled.map some ++ promises

/-- In the loop that grabs: the poll has taken `promises` out, and left `queue`. -/
def Grabs (x : Poll) (promises : List (Option Nat)) (queue : List Timer) : Prop :=
  x.fulfilled = [] ∧ ∃ out, promises = out.map Timer.promise_ ∧ Drained Timer.lt x.found out queue ∧
    ∀ t ∈ out, t.deadline_ ≤ x.now

variable {x : Poll} {promises : List (Option Nat)} {queue : List Timer}

theorem Grabs.start {now : Int} (h : Heap Timer.lt queue) : Grabs ⟨now, queue, []⟩ [] queue :=
  ⟨rfl, [], rfl, .start h, nofun⟩

theorem Grabs.pop {top : Timer} {queue' : List Timer} (h : x.Grabs promises (top :: queue))
    (hdue : top.deadline_ ≤ x.now) (hpop : Popped Timer.lt (top :: queue) queue') :
    x.Grabs (promises ++ [top.promise_]) queue' := by
  obtain ⟨hfulfilled, out, rfl, hdrained, hout⟩ := h
  refine ⟨hfulfilled, out ++ [top], by rw [List.map_append, List.map_singleton], hdrained.pop hpop, fun t ht => ?_⟩
  rcases List.mem_append.mp ht with ht | ht
  · exact hout t ht
  · rw [List.mem_singleton.mp ht]
    exact hdue

/-- What is left, the poll found. -/
theorem Grabs.mem_found (h : x.Grabs promises queue) {t : Timer} (ht : t ∈ queue) : t ∈ x.found := by
  obtain ⟨-, out, -, hdrained, -⟩ := h
  exact hdrained.perm.mem_iff.mp (List.mem_append_right out ht)

/-- **Nothing below a top that is not due is due.** -/
theorem Grabs.later (h : x.Grabs promises queue) (htop : ∀ top ∈ queue.head?, x.now < top.deadline_) :
    ∀ t ∈ queue, x.now < t.deadline_ := by
  obtain ⟨-, out, -, hdrained, -⟩ := h
  have hheap := hdrained.heap
  cases queue with
  | nil => exact nofun
  | cons top queue =>
      intro t ht
      apply Int.lt_of_lt_of_le (htop top rfl)
      exact Int.not_lt.mp (hheap t ht)

/-- **The promises that are grabbed are those of the due timers.** -/
theorem Grabs.owes (h : x.Grabs promises queue) (hlater : ∀ t ∈ queue, x.now < t.deadline_) : x.Owes promises := by
  obtain ⟨hfulfilled, out, rfl, hdrained, hout⟩ := h
  refine ⟨out, ⟨?_, hdrained.ordered.imp fun hlt => Int.not_lt.mp hlt⟩, by rw [hfulfilled]; rfl⟩
  have hperm := hdrained.perm.filter fun t => decide (t.deadline_ ≤ x.now)
  have hleft : queue.filter (fun t => decide (t.deadline_ ≤ x.now)) = [] := by
    rw [List.filter_eq_nil_iff]
    intro t ht
    simpa using hlater t ht
  have htaken : out.filter (fun t => decide (t.deadline_ ≤ x.now)) = out := by
    rw [List.filter_eq_self]
    intro t ht
    simpa using hout t ht
  rw [List.filter_append, hleft, htaken, List.append_nil] at hperm
  exact hperm

theorem Owes.fulfil {p : Nat} (h : x.Owes (some p :: promises)) :
    Owes { x with fulfilled := x.fulfilled ++ [p] } promises := by
  obtain ⟨due, hdue, hmap⟩ := h
  refine ⟨due, ⟨hdue.perm, hdue.ordered⟩, ?_⟩
  rw [hmap, List.map_append, List.append_assoc]
  rfl

end Poll

/-! ## Steps -/

/-- What one step does. -/
inductive Stepped (s : State) : State → Prop where
  | tick (clock : Int) (le : s.clock ≤ clock) : Stepped s { s with clock := clock }
  | after (d deadline : Int) (sum : toDeadLine s.clock d = some deadline) : Stepped s { s with
      calls := s.calls ++ [⟨deadline, some s.afters.length⟩], afters := s.afters ++ [⟨s.clock, d⟩] }
  | lockAdd (timer : Timer) (free : s.mutex_ = none) (call : timer ∈ s.calls) :
      Stepped s { s with mutex_ := some (.push timer), calls := s.calls.erase timer }
  | push (timer : Timer) (queue : List Timer) (holds : s.mutex_ = some (.push timer))
      (pushed : Pushed Timer.lt s.queue_ timer queue) : Stepped s { s with queue_ := queue, mutex_ := some .pushed }
  | unlockAdd (holds : s.mutex_ = some .pushed) : Stepped s { s with mutex_ := none }
  | stop : Stepped s { s with stop_requested_ := true }
  /-- A step between two polls, or before the next one takes `mutex_`. -/
  | between (worker : Worker) (apart : s.worker = .work ∨ s.worker = .now ∨ s.worker = .sleep)
      (next : worker = .stopped ∨ worker = .now ∨ worker = .lock s.clock ∨ worker = .work) :
      Stepped s { s with worker := worker }
  | lock (now : Int) (at_ : s.worker = .lock now) (free : s.mutex_ = none) :
      Stepped s { s with mutex_ := some .worker, worker := .grab now [], polls := ⟨now, s.queue_, []⟩ :: s.polls }
  | stopGrab (now : Int) (promises : List (Option Nat)) (at_ : s.worker = .grab now promises)
      (later : ∀ top ∈ s.queue_.head?, now < top.deadline_) : Stepped s { s with worker := .unlock now promises }
  | grab (now : Int) (promises : List (Option Nat)) (top : Timer) (queue : List Timer)
      (at_ : s.worker = .grab now promises) (found : s.queue_ = top :: queue) (due : top.deadline_ ≤ now) :
      Stepped s { s with
        worker := .pop now (promises ++ [top.promise_]), queue_ := { top with promise_ := none } :: queue }
  | pop (now : Int) (promises : List (Option Nat)) (queue : List Timer) (at_ : s.worker = .pop now promises)
      (popped : Popped Timer.lt s.queue_ queue) : Stepped s { s with queue_ := queue, worker := .grab now promises }
  | unlock (now : Int) (promises : List (Option Nat)) (at_ : s.worker = .unlock now promises) :
      Stepped s { s with mutex_ := none, worker := .deliver promises }
  | deliver (p : Nat) (promises : List (Option Nat)) (at_ : s.worker = .deliver (some p :: promises)) :
      Stepped s { s with worker := .deliver promises, polls := fulfil p s.polls }
  | delivered (at_ : s.worker = .deliver []) : Stepped s { s with worker := .sleep }

theorem step_stepped {s s' : State} (h : step s = some s') : Stepped s s' := by
  unfold step at h
  cases hworker : s.worker with
  | work =>
      rw [hworker] at h
      obtain rfl := Option.some.inj h
      apply Stepped.between _ (.inl hworker)
      split
      · exact .inl rfl
      · exact .inr (.inl rfl)
  | now =>
      rw [hworker] at h
      obtain rfl := Option.some.inj h
      exact .between _ (.inr (.inl hworker)) (.inr (.inr (.inl rfl)))
  | lock now =>
      simp only [hworker] at h
      split at h
      · next hfree =>
          obtain rfl := Option.some.inj h
          exact .lock now hworker hfree
      · cases h
  | grab now promises =>
      simp only [hworker] at h
      split at h
      · next hqueue =>
          obtain rfl := Option.some.inj h
          apply Stepped.stopGrab now promises hworker
          rw [hqueue]
          exact nofun
      · next top queue hqueue =>
          split at h
          · next hlater =>
              obtain rfl := Option.some.inj h
              apply Stepped.stopGrab now promises hworker
              rw [hqueue]
              rintro _ ⟨⟩
              exact hlater
          · next hdue =>
              obtain rfl := Option.some.inj h
              exact .grab now promises top queue hworker hqueue (Int.not_lt.mp hdue)
  | pop | stopped =>
      rw [hworker] at h
      cases h
  | unlock now promises =>
      rw [hworker] at h
      obtain rfl := Option.some.inj h
      exact .unlock now promises hworker
  | deliver promises =>
      rcases promises with _ | ⟨_ | p, promises⟩
      · rw [hworker] at h
        obtain rfl := Option.some.inj h
        exact .delivered hworker
      · rw [hworker] at h
        cases h
      · rw [hworker] at h
        obtain rfl := Option.some.inj h
        exact .deliver p promises hworker
  | sleep =>
      rw [hworker] at h
      obtain rfl := Option.some.inj h
      exact .between _ (.inr (.inr hworker)) (.inr (.inr (.inr rfl)))

theorem next_stepped {s s' : State} {a : Action} (h : next s a = some s') : Stepped s s' := by
  cases a with
  | tick clock =>
      simp only [next] at h
      split at h
      · next hle =>
          obtain rfl := Option.some.inj h
          exact .tick clock hle.1
      · cases h
  | after d =>
      obtain ⟨deadline, hsum, rfl⟩ := Option.map_eq_some_iff.mp h
      exact .after d deadline hsum
  | lockAdd timer =>
      simp only [next] at h
      split at h
      · next hcall =>
          obtain rfl := Option.some.inj h
          exact .lockAdd timer hcall.1 hcall.2
      · cases h
  | push queue =>
      simp only [next] at h
      split at h
      · next timer hholds =>
          split at h
          · next hpushed =>
              obtain rfl := Option.some.inj h
              exact .push timer queue hholds hpushed
          · cases h
      · cases h
  | unlockAdd =>
      simp only [next] at h
      split at h
      · next hholds =>
          obtain rfl := Option.some.inj h
          exact .unlockAdd hholds
      · cases h
  | stop =>
      obtain rfl := Option.some.inj h
      exact .stop
  | step => exact step_stepped h
  | pop queue =>
      simp only [next] at h
      split at h
      · next now promises hworker =>
          split at h
          · next hpopped =>
              obtain rfl := Option.some.inj h
              exact .pop now promises queue hworker hpopped.2
          · cases h
      · cases h

/-! ## The invariant -/

/-- The timer has its promise, and is due when the call of `After` that made it says. -/
def Timer.Good (t : Timer) (afters : List Call) : Prop :=
  ∃ p c, t.promise_ = some p ∧ afters[p]? = some c ∧ t.deadline_ = c.due

theorem Timer.Good.append {t : Timer} {afters : List Call} (h : t.Good afters) (new : Call) :
    t.Good (afters ++ [new]) := by
  obtain ⟨p, c, hp, hc, hdeadline⟩ := h
  refine ⟨p, c, hp, ?_, hdeadline⟩
  rw [List.getElem?_append_left (List.getElem?_eq_some_iff.mp hc).1]
  exact hc

namespace Worker

/-- The promises that the worker has taken out of the queue. -/
def promises : Worker → List (Option Nat)
  | .work => []
  | .now => []
  | .lock _ => []
  | .grab _ promises => promises
  | .pop _ promises => promises
  | .unlock _ promises => promises
  | .deliver promises => promises
  | .sleep => []
  | .stopped => []

/-- The worker holds `mutex_`. -/
def Holds : Worker → Prop
  | .work => False
  | .now => False
  | .lock _ => False
  | .grab _ _ => True
  | .pop _ _ => True
  | .unlock _ _ => True
  | .deliver _ => False
  | .sleep => False
  | .stopped => False

end Worker

namespace Holder

/-- The promise of the timer that the holder of `mutex_` is about to push. -/
def promise : Holder → Option Nat
  | .worker => none
  | .push timer => timer.promise_
  | .pushed => none

end Holder

namespace State

/-- How often a promise is somewhere: in a call, in the queue, with the worker, or fulfilled. -/
def places (s : State) (p : Nat) : Nat :=
  (s.calls.map Timer.promise_).count (some p) + (s.mutex_.bind Holder.promise).toList.count p +
    (s.queue_.map Timer.promise_).count (some p) + s.worker.promises.count (some p) +
    (s.polls.flatMap Poll.fulfilled).count p

end State

/-- The last poll is like this, and those before it are over. -/
def Last (polls : List Poll) (P : Poll → Prop) : Prop := ∃ x past, polls = x :: past ∧ P x ∧ ∀ y ∈ past, y.Owes []

/-- What the worker knows of the polls and of the queue when it is here. -/
def At (polls : List Poll) (queue : List Timer) : Worker → Prop
  | .grab now promises => Last polls fun x => x.now = now ∧ x.Grabs promises queue
  | .pop now promises => Last polls fun x => x.now = now ∧ ∃ earlier top rest, promises = earlier ++ [top.promise_] ∧
      queue = { top with promise_ := none } :: rest ∧ x.Grabs earlier (top :: rest) ∧ top.deadline_ ≤ now
  | .unlock now promises => Last polls fun x => x.now = now ∧ x.Grabs promises queue ∧ ∀ t ∈ queue, now < t.deadline_
  | .deliver promises => Last polls fun x => x.Owes promises
  | .work => ∀ x ∈ polls, x.Owes []
  | .now => ∀ x ∈ polls, x.Owes []
  | .lock _ => ∀ x ∈ polls, x.Owes []
  | .sleep => ∀ x ∈ polls, x.Owes []
  | .stopped => ∀ x ∈ polls, x.Owes []

/-- The queue matters only to a worker that holds `mutex_`. -/
theorem At.of_not_holds {polls : List Poll} {queue queue' : List Timer} {w : Worker} (h : At polls queue w)
    (hw : ¬ w.Holds) : At polls queue' w := by
  cases w with
  | grab | pop | unlock => exact absurd trivial hw
  | work | now | lock | deliver | sleep | stopped => exact h

structure Inv (s : State) : Prop where
  heap : Heap Timer.lt s.queue_
  holds : s.mutex_ = some .worker ↔ s.worker.Holds
  at_ : At s.polls s.queue_ s.worker
  once : ∀ p, s.places p = if p < s.afters.length then 1 else 0
  calls : ∀ t ∈ s.calls, t.Good s.afters
  pushing : ∀ t, s.mutex_ = some (.push t) → t.Good s.afters
  queue : ¬ s.worker.Holds → ∀ t ∈ s.queue_, t.Good s.afters
  found : ∀ x ∈ s.polls, ∀ t ∈ x.found, t.Good s.afters

theorem inv_init (start : Int) : Inv { clock := start } where
  heap := trivial
  holds := ⟨nofun, nofun⟩
  at_ := nofun
  once _ := rfl
  calls := nofun
  pushing := nofun
  queue _ := nofun
  found := nofun

/-! ## One step -/

theorem Inv.heap_stepped {s s' : State} (h : Inv s) (hstep : Stepped s s') : Heap Timer.lt s'.queue_ := by
  cases hstep with
  | push timer queue holds pushed => exact pushed.heap
  | pop now promises queue at_ popped => exact popped.heap
  | grab now promises top queue at_ found due =>
      -- a move leaves the deadline
      have hheap := h.heap
      rw [found] at hheap
      intro t ht
      rcases List.mem_cons.mp ht with rfl | ht
      · exact Int.lt_irrefl top.deadline_
      · exact hheap t (List.mem_cons_of_mem _ ht)
  | tick | after | lockAdd | unlockAdd | stop | between | lock | stopGrab | unlock | deliver | delivered => exact h.heap

/-- A worker that does not hold `mutex_` where someone else does. -/
theorem Inv.not_holds {s : State} (h : Inv s) (hmutex : s.mutex_ ≠ some .worker) : ¬ s.worker.Holds :=
  fun hw => hmutex (h.holds.mpr hw)

theorem Inv.holds_stepped {s s' : State} (h : Inv s) (hstep : Stepped s s') :
    s'.mutex_ = some .worker ↔ s'.worker.Holds := by
  have hholds := h.holds
  cases hstep with
  | tick | after | stop => exact hholds
  | lockAdd timer free call => exact ⟨nofun, fun hw => absurd hw (h.not_holds (by rw [free]; exact nofun))⟩
  | push timer queue holds pushed => exact ⟨nofun, fun hw => absurd hw (h.not_holds (by rw [holds]; exact nofun))⟩
  | unlockAdd holds => exact ⟨nofun, fun hw => absurd hw (h.not_holds (by rw [holds]; exact nofun))⟩
  | between worker apart next =>
      have hbefore : ¬ s.worker.Holds := by
        rcases apart with hw | hw | hw <;> rw [hw] <;> exact id
      have hafter : ¬ worker.Holds := by
        rcases next with rfl | rfl | rfl | rfl <;> exact id
      exact ⟨fun hmutex => absurd (hholds.mp hmutex) hbefore, fun hw => absurd hw hafter⟩
  | lock now at_ free => exact ⟨fun _ => trivial, fun _ => rfl⟩
  | stopGrab _ _ at_ | grab _ _ _ _ at_ | pop _ _ _ at_ =>
      rw [at_] at hholds
      exact hholds
  | unlock now promises at_ => exact ⟨nofun, nofun⟩
  | deliver _ _ at_ | delivered at_ =>
      rw [at_] at hholds
      exact hholds

theorem Inv.at_stepped {s s' : State} (h : Inv s) (hstep : Stepped s s') : At s'.polls s'.queue_ s'.worker := by
  have hat := h.at_
  cases hstep with
  | tick | after | lockAdd | unlockAdd | stop => exact hat
  | push timer queue holds pushed =>
      -- no poll is inside of `GrabReadyTimers`
      exact hat.of_not_holds (h.not_holds (by rw [holds]; exact nofun))
  | between worker apart next =>
      have hover : ∀ x ∈ s.polls, x.Owes [] := by
        rcases apart with hw | hw | hw <;> rw [hw] at hat <;> exact hat
      rcases next with rfl | rfl | rfl | rfl <;> exact hover
  | lock now at_ free =>
      -- a new poll, and the one before is over
      rw [at_] at hat
      exact ⟨_, _, rfl, ⟨rfl, .start h.heap⟩, hat⟩
  | stopGrab now promises at_ later =>
      rw [at_] at hat
      obtain ⟨x, past, hpolls, ⟨rfl, hgrabs⟩, hpast⟩ := hat
      exact ⟨x, past, hpolls, ⟨rfl, hgrabs, hgrabs.later later⟩, hpast⟩
  | grab now promises top queue at_ found due =>
      rw [at_, found] at hat
      obtain ⟨x, past, hpolls, ⟨hnow, hgrabs⟩, hpast⟩ := hat
      exact ⟨x, past, hpolls, ⟨hnow, promises, top, queue, rfl, rfl, hgrabs, due⟩, hpast⟩
  | pop now promises queue at_ popped =>
      rw [at_] at hat
      obtain ⟨x, past, hpolls, ⟨hnow, earlier, top, rest, rfl, hqueue, hgrabs, hdue⟩, hpast⟩ := hat
      rw [hqueue] at popped
      exact ⟨x, past, hpolls, ⟨hnow, hgrabs.pop (hnow ▸ hdue) ⟨popped.perm, popped.heap⟩⟩, hpast⟩
  | unlock now promises at_ =>
      rw [at_] at hat
      obtain ⟨x, past, hpolls, ⟨rfl, hgrabs, hlater⟩, hpast⟩ := hat
      exact ⟨x, past, hpolls, hgrabs.owes hlater, hpast⟩
  | deliver p promises at_ =>
      rw [at_] at hat
      obtain ⟨x, past, hpolls, howes, hpast⟩ := hat
      show Last (fulfil p s.polls) _
      rw [hpolls]
      exact ⟨_, past, rfl, howes.fulfil, hpast⟩
  | delivered at_ =>
      rw [at_] at hat
      obtain ⟨x, past, hpolls, howes, hpast⟩ := hat
      show ∀ y ∈ s.polls, y.Owes []
      rw [hpolls]
      exact List.forall_mem_cons.mpr ⟨howes, hpast⟩

theorem found_of_mem_fulfil {p : Nat} {polls : List Poll} {y : Poll} (h : y ∈ fulfil p polls) :
    ∃ x ∈ polls, y.found = x.found := by
  cases polls with
  | nil => cases h
  | cons x polls =>
      rcases List.mem_cons.mp h with rfl | h
      · exact ⟨x, List.mem_cons_self, rfl⟩
      · exact ⟨y, List.mem_cons_of_mem _ h, rfl⟩

theorem Inv.found_stepped {s s' : State} (h : Inv s) (hstep : Stepped s s') :
    ∀ x ∈ s'.polls, ∀ t ∈ x.found, t.Good s'.afters := by
  cases hstep with
  | after d deadline sum => exact fun x hx t ht => (h.found x hx t ht).append ⟨s.clock, d⟩
  | lock now at_ free =>
      show ∀ x ∈ ⟨now, s.queue_, []⟩ :: s.polls, _
      rw [List.forall_mem_cons]
      exact ⟨h.queue (by rw [at_]; exact id), h.found⟩
  | deliver p promises at_ =>
      intro y hy
      obtain ⟨x, hx, hfound⟩ := found_of_mem_fulfil hy
      rw [hfound]
      exact h.found x hx
  | tick | lockAdd | push | unlockAdd | stop | between | stopGrab | grab | pop | unlock | delivered => exact h.found

theorem Inv.queue_stepped {s s' : State} (h : Inv s) (hstep : Stepped s s') (hw : ¬ s'.worker.Holds) :
    ∀ t ∈ s'.queue_, t.Good s'.afters := by
  cases hstep with
  | tick | lockAdd | unlockAdd | stop => exact h.queue hw
  | after d deadline sum => exact fun t ht => (h.queue hw t ht).append ⟨s.clock, d⟩
  | push timer queue holds pushed =>
      intro t ht
      rcases List.mem_cons.mp (pushed.perm.mem_iff.mp ht) with rfl | ht
      · exact h.pushing t holds
      · exact h.queue hw t ht
  | between worker apart next =>
      apply h.queue
      rcases apart with hw | hw | hw <;> rw [hw] <;> exact id
  | lock | stopGrab | grab | pop => exact absurd trivial hw
  | unlock now promises at_ =>
      -- what is left of the queue is among what the poll found
      have hat := h.at_
      rw [at_] at hat
      obtain ⟨x, past, hpolls, ⟨-, hgrabs, -⟩, -⟩ := hat
      exact fun t ht => h.found x (by rw [hpolls]; exact List.mem_cons_self) t (hgrabs.mem_found ht)
  | deliver _ _ at_ | delivered at_ => exact h.queue (by rw [at_]; exact id)

theorem Inv.calls_stepped {s s' : State} (h : Inv s) (hstep : Stepped s s') : ∀ t ∈ s'.calls, t.Good s'.afters := by
  cases hstep with
  | after d deadline sum =>
      intro t ht
      rcases List.mem_append.mp ht with ht | ht
      · exact (h.calls t ht).append ⟨s.clock, d⟩
      · rw [List.mem_singleton.mp ht]
        exact ⟨s.afters.length, ⟨s.clock, d⟩, rfl, List.getElem?_concat_length, toDeadLine_eq sum⟩
  | lockAdd timer free call => exact fun t ht => h.calls t (List.mem_of_mem_erase ht)
  | tick | push | unlockAdd | stop | between | lock | stopGrab | grab | pop | unlock | deliver | delivered =>
      exact h.calls

theorem Inv.pushing_stepped {s s' : State} (h : Inv s) (hstep : Stepped s s') {t : Timer}
    (ht : s'.mutex_ = some (.push t)) : t.Good s'.afters := by
  cases hstep with
  | after d deadline sum => exact (h.pushing t ht).append ⟨s.clock, d⟩
  | lockAdd timer free call =>
      obtain rfl : timer = t := Holder.push.inj (Option.some.inj ht)
      exact h.calls timer call
  | push | unlockAdd | lock | unlock => cases ht
  | tick | stop | between | stopGrab | grab | pop | deliver | delivered => exact h.pushing t ht

/-- **A step moves promises**, unless it is a call of `After`. -/
theorem Inv.places_stepped {s s' : State} (h : Inv s) (hstep : Stepped s s') (p : Nat) :
    s'.afters = s.afters ∧ s'.places p = s.places p ∨
      s'.afters.length = s.afters.length + 1 ∧
        s'.places p = s.places p + if s.afters.length = p then 1 else 0 := by
  have hat := h.at_
  cases hstep with
  | tick | stop => exact .inl ⟨rfl, rfl⟩
  | after d deadline sum =>
      -- the promise of the new call
      refine .inr ⟨by rw [List.length_append]; rfl, ?_⟩
      unfold State.places
      simp only [List.map_append, List.map_cons, List.map_nil, List.count_append, List.count_singleton, beq_iff_eq,
        Option.some.injEq]
      omega
  | lockAdd timer free call =>
      refine .inl ⟨rfl, ?_⟩
      obtain ⟨q, -, hq, -, -⟩ := h.calls timer call
      have hcalls := ((List.perm_cons_erase call).map Timer.promise_).count_eq (some p)
      unfold State.places
      simp only [free, hcalls, hq, List.map_cons, List.count_cons, Option.bind_some, Option.bind_none, Holder.promise,
        Option.toList_some, Option.toList_none, List.count_nil, beq_iff_eq, Option.some.injEq]
      omega
  | push timer queue holds pushed =>
      refine .inl ⟨rfl, ?_⟩
      obtain ⟨q, -, hq, -, -⟩ := h.pushing timer holds
      have hqueue := (pushed.perm.map Timer.promise_).count_eq (some p)
      unfold State.places
      simp only [holds, hqueue, hq, List.map_cons, List.count_cons, Option.bind_some, Holder.promise,
        Option.toList_some, Option.toList_none, List.count_nil, beq_iff_eq, Option.some.injEq]
      omega
  | unlockAdd holds =>
      refine .inl ⟨rfl, ?_⟩
      unfold State.places
      simp only [holds, Option.bind_some, Option.bind_none, Holder.promise]
  | between worker apart next =>
      refine .inl ⟨rfl, ?_⟩
      have hbefore : s.worker.promises = [] := by
        rcases apart with hw | hw | hw <;> rw [hw] <;> rfl
      have hafter : worker.promises = [] := by
        rcases next with rfl | rfl | rfl | rfl <;> rfl
      unfold State.places
      rw [hbefore, hafter]
  | lock now at_ free =>
      refine .inl ⟨rfl, ?_⟩
      unfold State.places
      simp only [at_, free, Option.bind_some, Option.bind_none, Holder.promise, Worker.promises, List.flatMap_cons,
        List.nil_append]
  | stopGrab now promises at_ later =>
      refine .inl ⟨rfl, ?_⟩
      unfold State.places
      rw [at_]
      rfl
  | grab now promises top queue at_ found due =>
      refine .inl ⟨rfl, ?_⟩
      unfold State.places
      simp only [at_, found, Worker.promises, List.map_cons, List.count_cons, List.count_append, List.count_nil]
      simp only [beq_iff_eq, reduceCtorEq, if_false]
      omega
  | pop now promises queue at_ popped =>
      refine .inl ⟨rfl, ?_⟩
      -- the entry that is popped has no promise
      rw [at_] at hat
      obtain ⟨-, -, -, ⟨-, earlier, top, rest, -, hqueue, -, -⟩, -⟩ := hat
      have hrest := (popped.perm.map Timer.promise_).count_eq (some p)
      unfold State.places
      simp only [at_, hrest, hqueue, Worker.promises, List.tail_cons, List.map_cons, List.count_cons, beq_iff_eq,
        reduceCtorEq, if_false, Nat.add_zero]
  | unlock now promises at_ =>
      refine .inl ⟨rfl, ?_⟩
      -- the worker has no timer to push
      have hmutex : s.mutex_ = some .worker := h.holds.mpr (by rw [at_]; exact trivial)
      unfold State.places
      simp only [at_, hmutex, Option.bind_some, Option.bind_none, Holder.promise, Worker.promises]
  | deliver q promises at_ =>
      refine .inl ⟨rfl, ?_⟩
      rw [at_] at hat
      obtain ⟨x, past, hpolls, -, -⟩ := hat
      unfold State.places
      simp only [at_, hpolls, fulfil, Worker.promises, List.flatMap_cons, List.count_append, List.count_cons,
        List.count_nil, beq_iff_eq, Option.some.injEq]
      omega
  | delivered at_ =>
      refine .inl ⟨rfl, ?_⟩
      unfold State.places
      rw [at_]
      rfl

/-- **Each promise is in one place.** -/
theorem Inv.once_stepped {s s' : State} (h : Inv s) (hstep : Stepped s s') (p : Nat) :
    s'.places p = if p < s'.afters.length then 1 else 0 := by
  have honce := h.once p
  rcases h.places_stepped hstep p with ⟨hafters, hplaces⟩ | ⟨hlength, hplaces⟩
  · rw [hplaces, hafters]
    exact honce
  · rw [hplaces, hlength, honce]
    split <;> split <;> split <;> omega

/-- **One step keeps the invariant.** -/
theorem Inv.stepped {s s' : State} (h : Inv s) (hstep : Stepped s s') : Inv s' where
  heap := h.heap_stepped hstep
  holds := h.holds_stepped hstep
  at_ := h.at_stepped hstep
  once := h.once_stepped hstep
  calls := h.calls_stepped hstep
  pushing _ := h.pushing_stepped hstep
  queue := h.queue_stepped hstep
  found := h.found_stepped hstep

theorem reachable_inv {start : Int} {s : State} (h : (system start).Reachable s) : Inv s :=
  h.invariant_next (inv_init start) fun _ _ _ hinv hnext => hinv.stepped (next_stepped hnext)

/-! ## Results -/

/-- A promise that a poll fulfils or is to fulfil is that of a timer that it found due. -/
theorem Poll.Owes.exists_due {x : Poll} {promises : List (Option Nat)} (h : x.Owes promises) {y : Option Nat}
    (hy : y ∈ x.fulfilled.map some ++ promises) : ∃ t ∈ x.found, t.deadline_ ≤ x.now ∧ t.promise_ = y := by
  obtain ⟨due, hdue, hmap⟩ := h
  rw [← hmap] at hy
  obtain ⟨t, ht, rfl⟩ := List.mem_map.mp hy
  have hfound := hdue.perm.mem_iff.mp ht
  rw [List.mem_filter] at hfound
  exact ⟨t, hfound.1, by simpa using hfound.2, rfl⟩

/-- All polls but the last are over. -/
theorem Inv.past {s : State} (h : Inv s) : ∀ x ∈ s.polls.tail, x.Owes [] := by
  have hat := h.at_
  cases hw : s.worker with
  | grab | pop | unlock | deliver =>
      rw [hw] at hat
      obtain ⟨x, past, hpolls, -, hpast⟩ := hat
      rw [hpolls]
      exact hpast
  | work | now | lock | sleep | stopped =>
      rw [hw] at hat
      exact fun x hx => hat x (List.mem_of_mem_tail hx)

/-- Between two polls, all polls are over. -/
theorem Inv.over {s : State} (h : Inv s) (hholds : ¬ s.worker.Holds)
    (hdeliver : ∀ promises, s.worker ≠ .deliver promises) :
    ∀ x ∈ s.polls, x.Owes [] := by
  have hat := h.at_
  cases hw : s.worker with
  | grab | pop | unlock =>
      rw [hw] at hholds
      exact absurd trivial hholds
  | deliver promises => exact absurd hw (hdeliver promises)
  | work | now | lock | sleep | stopped =>
      rw [hw] at hat
      exact hat

/-- The last poll may still be grabbing. Then it has fulfilled nothing. -/
theorem Inv.owes {s : State} (h : Inv s) {x : Poll} (hx : x ∈ s.polls) :
    x.fulfilled = [] ∨ ∃ promises, x.Owes promises := by
  have hlast : ∀ {P : Poll → Prop}, Last s.polls P → P x ∨ ∃ promises, x.Owes promises := by
    rintro P ⟨y, past, hpolls, hy, hpast⟩
    rw [hpolls] at hx
    rcases List.mem_cons.mp hx with rfl | hx
    · exact .inl hy
    · exact .inr ⟨[], hpast x hx⟩
  have hat := h.at_
  cases hw : s.worker with
  | grab now promises =>
      rw [hw] at hat
      apply (hlast hat).imp_left
      rintro ⟨-, hgrabs⟩
      exact hgrabs.1
  | pop now promises =>
      rw [hw] at hat
      apply (hlast hat).imp_left
      rintro ⟨-, earlier, top, rest, -, -, hgrabs, -⟩
      exact hgrabs.1
  | unlock now promises =>
      rw [hw] at hat
      apply (hlast hat).imp_left
      rintro ⟨-, hgrabs, -⟩
      exact hgrabs.1
  | deliver promises =>
      rw [hw] at hat
      exact .inr ((hlast hat).elim (fun howes => ⟨promises, howes⟩) id)
  | work | now | lock | sleep | stopped =>
      rw [hw] at hat
      exact .inr ⟨[], hat x hx⟩

/-- **No poll fulfils a promise early.** -/
theorem Inv.not_early {s : State} (h : Inv s) {x : Poll} (hx : x ∈ s.polls) {p : Nat} (hp : p ∈ x.fulfilled) :
    ∃ c, s.afters[p]? = some c ∧ c.due ≤ x.now := by
  rcases h.owes hx with hnone | ⟨promises, howes⟩
  · rw [hnone] at hp
    cases hp
  obtain ⟨t, ht, hdue, hpromise⟩ := howes.exists_due (List.mem_append_left promises (List.mem_map_of_mem hp))
  obtain ⟨q, c, hq, hc, hdeadline⟩ := h.found x hx t ht
  obtain rfl : q = p := Option.some.inj (hq.symm.trans hpromise)
  exact ⟨c, hc, hdeadline ▸ hdue⟩

/-- What a delivery is about to fulfil is a promise. -/
theorem Inv.deliver {s : State} (h : Inv s) {promises : List (Option Nat)} (hw : s.worker = .deliver promises) :
    ∃ x past, s.polls = x :: past ∧ x.Owes promises ∧ ∀ y ∈ promises, y ≠ none := by
  have hat := h.at_
  rw [hw] at hat
  obtain ⟨x, past, hpolls, howes, -⟩ := hat
  refine ⟨x, past, hpolls, howes, fun y hy hnone => ?_⟩
  obtain ⟨t, ht, -, hpromise⟩ := howes.exists_due (List.mem_append_right _ hy)
  obtain ⟨p, -, hp, -, -⟩ := h.found x (by rw [hpolls]; exact List.mem_cons_self) t ht
  rw [hpromise, hnone] at hp
  cases hp

/-- **After `GrabReadyTimers`**: what is left is not due, and its promises are unspent. -/
theorem Inv.left {s : State} (h : Inv s) {now : Int} {promises : List (Option Nat)}
    (hw : s.worker = .unlock now promises) :
    ∃ x past, s.polls = x :: past ∧ x.now = now ∧ x.Owes promises ∧ ∀ t ∈ s.queue_, now < t.deadline_ ∧
      ∃ p c, t.promise_ = some p ∧ s.afters[p]? = some c ∧ t.deadline_ = c.due ∧ some p ∉ promises ∧
        ∀ y ∈ s.polls, p ∉ y.fulfilled := by
  have hat := h.at_
  rw [hw] at hat
  obtain ⟨x, past, hpolls, ⟨rfl, hgrabs, hlater⟩, -⟩ := hat
  refine ⟨x, past, hpolls, rfl, hgrabs.owes hlater, fun t ht => ⟨hlater t ht, ?_⟩⟩
  obtain ⟨p, c, hp, hc, hdeadline⟩ := h.found x (by rw [hpolls]; exact List.mem_cons_self) t (hgrabs.mem_found ht)
  refine ⟨p, c, hp, hc, hdeadline, ?_⟩
  -- the promise is in the queue, so it is nowhere else
  have hone : s.places p ≤ 1 := by
    rw [h.once p]
    split <;> omega
  have hqueue : 0 < (s.queue_.map Timer.promise_).count (some p) := by
    rw [List.count_pos_iff, ← hp]
    exact List.mem_map_of_mem ht
  unfold State.places at hone
  rw [hw] at hone
  constructor
  · intro hmem
    have hworker : 0 < (Worker.unlock x.now promises).promises.count (some p) := List.count_pos_iff.mpr hmem
    omega
  · intro y hy hmem
    have hpoll : 0 < (s.polls.flatMap Poll.fulfilled).count p :=
      List.count_pos_iff.mpr (List.mem_flatMap.mpr ⟨y, hy, hmem⟩)
    omega

/-- **Each timer is fired once, not early, and in the order of the deadlines.** In every reachable state, whatever
    the calls of `After`: no promise has been fulfilled twice, or by a poll whose clock had not reached the clock of its
    call of `After` plus the delay; each timer that a poll found is that of one such call; a poll that is over has
    fulfilled the promises of all timers that it found due when it took `mutex_`, by non-decreasing deadlines, and one
    that is delivering has done so up to the promises that it still has, none of which is spent; and when
    `GrabReadyTimers` returns, the timers left in the queue have later deadlines than its clock, and promises that
    nobody has fulfilled or is about to. -/
theorem timers_fired {start : Int} {s : State} (h : (system start).Reachable s) :
    (s.polls.flatMap Poll.fulfilled).Nodup ∧
      (∀ x ∈ s.polls, ∀ p ∈ x.fulfilled, ∃ c, s.afters[p]? = some c ∧ c.due ≤ x.now) ∧
      (∀ x ∈ s.polls, ∀ t ∈ x.found, t.Good s.afters) ∧
      (∀ x ∈ s.polls.tail, x.Owes []) ∧
      (¬ s.worker.Holds → (∀ promises, s.worker ≠ .deliver promises) → ∀ x ∈ s.polls, x.Owes []) ∧
      (∀ promises, s.worker = .deliver promises →
        ∃ x past, s.polls = x :: past ∧ x.Owes promises ∧ ∀ y ∈ promises, y ≠ none) ∧
      ∀ now promises, s.worker = .unlock now promises →
        ∃ x past, s.polls = x :: past ∧ x.now = now ∧ x.Owes promises ∧ ∀ t ∈ s.queue_, now < t.deadline_ ∧
          ∃ p c, t.promise_ = some p ∧ s.afters[p]? = some c ∧ t.deadline_ = c.due ∧ some p ∉ promises ∧
            ∀ y ∈ s.polls, p ∉ y.fulfilled := by
  have hinv := reachable_inv h
  refine ⟨?_, fun x hx p hp => hinv.not_early hx hp, hinv.found, hinv.past, hinv.over, fun promises => hinv.deliver,
    fun now promises => hinv.left⟩
  rw [List.nodup_iff_count_le_one]
  intro p
  have hle : (s.polls.flatMap Poll.fulfilled).count p ≤ s.places p := Nat.le_add_left _ _
  apply Nat.le_trans hle
  rw [hinv.once p]
  split <;> omega

/-- Timer 1 is due before timer 0, and timer 2 with it; timer 3 is set while the poll delivers, for the next one. -/
theorem timers_fired_reordered : ∃ s, (system 0).Reachable s ∧ s.polls.map Poll.fulfilled = [[3], [1, 2, 0]] ∧
    s.afters = [⟨0, 5⟩, ⟨0, 3⟩, ⟨0, 3⟩, ⟨6, 0⟩] ∧ (s.polls.flatMap Poll.fulfilled).Nodup := by
  have hrun : ∃ s, System.run next ({} : State)
      [.after 5, .after 3, .after 3, .lockAdd ⟨5, some 0⟩, .push [⟨5, some 0⟩], .unlockAdd,
        .lockAdd ⟨3, some 2⟩, .push [⟨3, some 2⟩, ⟨5, some 0⟩], .unlockAdd,
        .lockAdd ⟨3, some 1⟩, .push [⟨3, some 1⟩, ⟨5, some 0⟩, ⟨3, some 2⟩], .unlockAdd,
        .tick 6, .step, .step, .step, .step, .pop [⟨3, some 2⟩, ⟨5, some 0⟩], .step, .pop [⟨5, some 0⟩],
        .step, .pop [], .step, .step, .step, .after 0, .lockAdd ⟨6, some 3⟩, .push [⟨6, some 3⟩], .unlockAdd,
        .step, .step, .step, .step, .step, .step, .step, .step, .pop [], .step, .step, .step] = some s ∧
        s.polls.map Poll.fulfilled = [[3], [1, 2, 0]] ∧ s.afters = [⟨0, 5⟩, ⟨0, 3⟩, ⟨0, 3⟩, ⟨6, 0⟩] :=
      ⟨_, rfl, rfl, rfl⟩
  obtain ⟨s, hs, hpolls, hafters⟩ := hrun
  have h : (system 0).Reachable s := System.reachable_of_run _ hs
  exact ⟨s, h, hpolls, hafters, (timers_fired h).1⟩

end TimeKeeper
end Futures
end Tpcc
