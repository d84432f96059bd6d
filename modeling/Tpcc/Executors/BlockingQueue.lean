import Tpcc.Transition.History
import Tpcc.Transition.System
import Tpcc.Transition.WaitSet

/-!
# `Executors.BlockingQueue` — the unbounded blocking queue

`UnboundedBlockingQueue<T>` of the executors, and the same class in the first thread pool (`tp`). Every
method runs under `mutex_`, so one critical section is one step; `Take` waits on `empty_queue_`, which
releases the mutex and sleeps at once. Any number of threads call the four methods in any order.

## Contents
- **The class.** `put`, `take`, `closeImpl`: what one critical section does to `closed_` and `buffer_`.
- **The threads.** `next`: a thread runs a critical section, sleeps in `Take`, or wakes in it.
- **Its purpose.** `Allowed` says by the history alone what each call may return: the abstract queue.
- **Results.** `history_explained`: the calls return what the history allows, nothing is lost, and no
  consumer is stranded.
-/

namespace Tpcc
namespace Executors

open Transition

/-- The members that `mutex_` guards. -/
structure UnboundedBlockingQueue (T : Type) where
  closed_ : Bool := false
  buffer_ : List T := []
  deriving DecidableEq

namespace UnboundedBlockingQueue

variable {T : Type}

/-- `Put`, without its notification. -/
def put (q : UnboundedBlockingQueue T) (value : T) : Bool × UnboundedBlockingQueue T :=
  if q.closed_ then (false, q) else (true, { q with buffer_ := q.buffer_ ++ [value] })

/-- The predicate `Take` waits for, and what it does once that holds. -/
def take (q : UnboundedBlockingQueue T) : Option (Option T × UnboundedBlockingQueue T) :=
  match q.buffer_, q.closed_ with
  | [], false => none
  | [], true => some (none, q)
  | value :: rest, _ => some (some value, { q with buffer_ := rest })

/-- `CloseImpl`, without its notification. -/
def closeImpl (q : UnboundedBlockingQueue T) (clear : Bool) : UnboundedBlockingQueue T where
  closed_ := true
  buffer_ := if clear then [] else q.buffer_

/-! ## What the methods do, by the state they find -/

theorem put_closed {q : UnboundedBlockingQueue T} (h : q.closed_ = true) (v : T) :
    q.put v = (false, q) := by
  unfold put
  rw [if_pos h]

theorem put_open {q : UnboundedBlockingQueue T} (h : q.closed_ = false) (v : T) :
    q.put v = (true, { q with buffer_ := q.buffer_ ++ [v] }) := by
  unfold put
  rw [h, if_neg Bool.false_ne_true]

theorem put_cases (q : UnboundedBlockingQueue T) (v : T) :
    (q.closed_ = true ∧ q.put v = (false, q)) ∨
      (q.closed_ = false ∧ q.put v = (true, { q with buffer_ := q.buffer_ ++ [v] })) := by
  rcases Bool.eq_false_or_eq_true q.closed_ with h | h
  · exact .inl ⟨h, put_closed h v⟩
  · exact .inr ⟨h, put_open h v⟩

theorem take_eq_none {q : UnboundedBlockingQueue T} (h : q.take = none) :
    q.buffer_ = [] ∧ q.closed_ = false := by
  unfold take at h
  split at h
  · next hbuffer hclosed => exact ⟨hbuffer, hclosed⟩
  · cases h
  · cases h

theorem take_eq_some {q q' : UnboundedBlockingQueue T} {r : Option T} (h : q.take = some (r, q')) :
    (r = none ∧ q.buffer_ = [] ∧ q.closed_ = true ∧ q' = q) ∨
      ∃ v, r = some v ∧ q.buffer_ = v :: q'.buffer_ ∧ q'.closed_ = q.closed_ := by
  unfold take at h
  split at h
  · cases h
  · next hbuffer hclosed =>
      cases h
      exact .inl ⟨rfl, hbuffer, hclosed, rfl⟩
  · next v rest hbuffer =>
      cases h
      exact .inr ⟨v, rfl, hbuffer, rfl⟩

end UnboundedBlockingQueue

namespace BlockingQueue

/-- A call that has returned, by the thread that made it. `cancel` also records what it discarded. -/
inductive Event (T ι : Type) where
  | put (t : ι) (value : T) (result : Bool)
  | take (t : ι) (result : Option T)
  | close (t : ι)
  | cancel (t : ι) (discarded : List T)

namespace Event

variable {T ι : Type}

def accepted : Event T ι → List T
  | .put _ v true => [v]
  | _ => []

def taken : Event T ι → List T
  | .take _ (some v) => [v]
  | _ => []

def discarded : Event T ι → List T
  | .cancel _ vs => vs
  | _ => []

def closes : Event T ι → Bool
  | .close _ => true
  | .cancel .. => true
  | _ => false

end Event

section

variable {T ι : Type}

/-- The values for which `Put` returned true, in this order. -/
def accepted (log : List (Event T ι)) : List T := log.flatMap Event.accepted

/-- The values `Take` returned, in this order. -/
def taken (log : List (Event T ι)) : List T := log.flatMap Event.taken

/-- The values `Cancel` discarded. -/
def discarded (log : List (Event T ι)) : List T := log.flatMap Event.discarded

/-- `Close` or `Cancel` has been called. -/
def Closed (log : List (Event T ι)) : Prop := ∃ e ∈ log, e.closes = true

/-- **What a queue is for**, in terms of its history: `Put` accepts until the queue is closed, `Take`
    returns the oldest value not yet taken, and nothing only when the queue is closed and no accepted
    value is left. -/
def Allowed (pre : List (Event T ι)) : Event T ι → Prop
  | .put _ _ true => ¬ Closed pre
  | .put _ _ false => Closed pre
  | .take _ (some v) => ∃ rest, accepted pre = taken pre ++ v :: rest
  | .take _ none => Closed pre ∧ accepted pre = taken pre ++ discarded pre
  | .close _ => True
  | .cancel _ vs => accepted pre = taken pre ++ discarded pre ++ vs

end

/-- The queue, the threads inside `Take`'s `wait`, and the calls that have returned. -/
structure State (T ι : Type) [DecidableEq ι] where
  queue : UnboundedBlockingQueue T := {}
  empty_queue_ : WaitSet ι := {}
  log : List (Event T ι) := []

/-- Who takes the next step: a thread that calls `Put`, with the sleeper its notification is for; one that
    calls `Take`, or looks at the predicate again; a sleeper that wakes for no reason; a thread that calls
    `Close` or `Cancel`. -/
inductive Action (T ι : Type) where
  | put (t : ι) (value : T) (wakes : Option ι)
  | take (t : ι)
  | wake (t : ι)
  | close (t : ι)
  | cancel (t : ι)

variable {T ι : Type} [DecidableEq ι]

def next (s : State T ι) : Action T ι → Option (State T ι)
  | .put t v c =>
      if s.empty_queue_.Waits t then none else
        match s.queue.put v with
        | (false, queue) => some { s with queue, log := s.log ++ [.put t v false] }
        | (true, queue) =>
            (s.empty_queue_.notifyOne c).map fun w =>
              { queue, empty_queue_ := w, log := s.log ++ [.put t v true] }
  | .take t =>
      if t ∈ s.empty_queue_.asleep then none else
        match s.queue.take with
        | none => some { s with empty_queue_ := s.empty_queue_.sleep t }
        | some (result, queue) =>
            some { queue, empty_queue_ := s.empty_queue_.leave t, log := s.log ++ [.take t result] }
  | .wake t =>
      if t ∈ s.empty_queue_.asleep then some { s with empty_queue_ := s.empty_queue_.wake t } else none
  | .close t =>
      if s.empty_queue_.Waits t then none else
        some { queue := s.queue.closeImpl false, empty_queue_ := s.empty_queue_.notifyAll
               log := s.log ++ [.close t] }
  | .cancel t =>
      if s.empty_queue_.Waits t then none else
        some { queue := s.queue.closeImpl true, empty_queue_ := s.empty_queue_.notifyAll
               log := s.log ++ [.cancel t s.queue.buffer_] }

/-- All runs of threads `ι` on one queue. -/
def system (T ι : Type) [DecidableEq ι] : System (State T ι) := System.ofNext {} next

/-! ## What a step can do -/

/-- The kinds of step. -/
inductive Stepped (s : State T ι) : State T ι → Prop where
  | put (t : ι) (v : T) (c : Option ι) (w : WaitSet ι) (opened : s.queue.closed_ = false)
      (notified : s.empty_queue_.notifyOne c = some w) :
      Stepped s { queue := { s.queue with buffer_ := s.queue.buffer_ ++ [v] }, empty_queue_ := w
                  log := s.log ++ [.put t v true] }
  | refuse (t : ι) (v : T) (closed : s.queue.closed_ = true) :
      Stepped s { s with log := s.log ++ [.put t v false] }
  | sleep (t : ι) (empty : s.queue.buffer_ = []) (opened : s.queue.closed_ = false) :
      Stepped s { s with empty_queue_ := s.empty_queue_.sleep t }
  | take (t : ι) (v : T) (queue : UnboundedBlockingQueue T)
      (front : s.queue.buffer_ = v :: queue.buffer_) (closed : queue.closed_ = s.queue.closed_) :
      Stepped s { queue, empty_queue_ := s.empty_queue_.leave t
                  log := s.log ++ [.take t (some v)] }
  | finish (t : ι) (empty : s.queue.buffer_ = []) (closed : s.queue.closed_ = true) :
      Stepped s { s with empty_queue_ := s.empty_queue_.leave t, log := s.log ++ [.take t none] }
  | wake (t : ι) (asleep : t ∈ s.empty_queue_.asleep) :
      Stepped s { s with empty_queue_ := s.empty_queue_.wake t }
  | close (t : ι) :
      Stepped s { queue := s.queue.closeImpl false, empty_queue_ := s.empty_queue_.notifyAll
                  log := s.log ++ [.close t] }
  | cancel (t : ι) :
      Stepped s { queue := s.queue.closeImpl true, empty_queue_ := s.empty_queue_.notifyAll
                  log := s.log ++ [.cancel t s.queue.buffer_] }

theorem next_stepped {s s' : State T ι} {a : Action T ι} (h : next s a = some s') : Stepped s s' := by
  cases a with
  | put t v c =>
      simp only [next] at h
      split at h
      · cases h
      · rcases s.queue.put_cases v with ⟨hclosed, hput⟩ | ⟨hopen, hput⟩
        · rw [hput] at h
          obtain rfl := Option.some.inj h
          exact .refuse t v hclosed
        · rw [hput] at h
          obtain ⟨w, hw, rfl⟩ := Option.map_eq_some_iff.mp h
          exact .put t v c w hopen hw
  | take t =>
      simp only [next] at h
      split at h
      · cases h
      · cases htake : s.queue.take with
        | none =>
            rw [htake] at h
            obtain rfl := Option.some.inj h
            obtain ⟨hempty, hopen⟩ := UnboundedBlockingQueue.take_eq_none htake
            exact .sleep t hempty hopen
        | some p =>
            obtain ⟨r, q⟩ := p
            rw [htake] at h
            obtain rfl := Option.some.inj h
            rcases UnboundedBlockingQueue.take_eq_some htake with
              ⟨rfl, hempty, hclosed, rfl⟩ | ⟨v, rfl, hfront, hclosed⟩
            · exact .finish t hempty hclosed
            · exact .take t v q hfront hclosed
  | wake t =>
      simp only [next, Option.ite_none_right_eq_some, Option.some.injEq] at h
      obtain ⟨hasleep, rfl⟩ := h
      exact .wake t hasleep
  | close t =>
      simp only [next, Option.ite_none_left_eq_some, Option.some.injEq] at h
      obtain ⟨-, rfl⟩ := h
      exact .close t
  | cancel t =>
      simp only [next, Option.ite_none_left_eq_some, Option.some.injEq] at h
      obtain ⟨-, rfl⟩ := h
      exact .cancel t

/-! ## The invariant -/

section Log

variable {T ι : Type} (log : List (Event T ι)) (e : Event T ι)

theorem accepted_snoc : accepted (log ++ [e]) = accepted log ++ e.accepted := by
  simp [accepted]

theorem taken_snoc : taken (log ++ [e]) = taken log ++ e.taken := by
  simp [taken]

theorem discarded_snoc : discarded (log ++ [e]) = discarded log ++ e.discarded := by
  simp [discarded]

theorem closed_snoc : Closed (log ++ [e]) ↔ Closed log ∨ e.closes = true := by
  simp [Closed, or_and_right, exists_or]

end Log

/-- What holds between two critical sections. -/
structure Inv (s : State T ι) : Prop where
  contents : accepted s.log = taken s.log ++ discarded s.log ++ s.queue.buffer_
  /-- `Cancel` leaves an empty buffer, and nothing comes in after it. -/
  kept : discarded s.log = [] ∨ s.queue.buffer_ = [] ∧ s.queue.closed_ = true
  closed : s.queue.closed_ = true ↔ Closed s.log
  explained : Explained Allowed s.log
  covers : s.empty_queue_.Covers s.queue.buffer_.length
  awake : s.queue.closed_ = true → s.empty_queue_.asleep = ∅

theorem inv_init : Inv ({} : State T ι) where
  contents := rfl
  kept := .inl rfl
  closed := by simp [Closed]
  explained := explained_nil
  covers := WaitSet.covers_zero
  awake h := by cases h

/-- While the buffer holds a value, nothing has been discarded. -/
theorem Inv.accepted_eq {s : State T ι} (h : Inv s) {v : T} {rest : List T}
    (hv : s.queue.buffer_ = v :: rest) :
    discarded s.log = [] ∧ accepted s.log = taken s.log ++ v :: rest := by
  have hnone : discarded s.log = [] := by
    apply h.kept.resolve_right
    rintro ⟨hempty, -⟩
    rw [hv] at hempty
    cases hempty
  refine ⟨hnone, ?_⟩
  rw [h.contents, hnone, hv, List.append_nil]

/-- The accepted values are those taken, those discarded, and the buffer. -/
theorem Inv.contents_stepped {s s' : State T ι} (h : Inv s) (hstep : Stepped s s') :
    accepted s'.log = taken s'.log ++ discarded s'.log ++ s'.queue.buffer_ := by
  cases hstep with
  | put | refuse | finish | close | cancel =>
      rw [accepted_snoc, taken_snoc, discarded_snoc, h.contents]
      simp [Event.accepted, Event.taken, Event.discarded, UnboundedBlockingQueue.closeImpl]
  | take t v queue front closed =>
      -- nothing has been discarded, so the value at the front is the next to be taken
      obtain ⟨hnone, haccepted⟩ := h.accepted_eq front
      rw [accepted_snoc, taken_snoc, discarded_snoc, haccepted, hnone]
      simp [Event.accepted, Event.taken, Event.discarded]
  | sleep | wake => exact h.contents

theorem Inv.kept_stepped {s s' : State T ι} (h : Inv s) (hstep : Stepped s s') :
    discarded s'.log = [] ∨ s'.queue.buffer_ = [] ∧ s'.queue.closed_ = true := by
  cases hstep with
  | put t v c w opened notified =>
      rcases h.kept with hnone | ⟨-, hclosed⟩
      · left
        rw [discarded_snoc, hnone]
        rfl
      · rw [opened] at hclosed
        cases hclosed
  | take t v queue front closed =>
      left
      rw [discarded_snoc, (h.accepted_eq front).1]
      rfl
  | finish t empty closed => exact .inr ⟨empty, closed⟩
  | refuse =>
      rw [discarded_snoc]
      simpa [Event.discarded] using h.kept
  | close t =>
      rw [discarded_snoc]
      exact h.kept.imp (by simp [Event.discarded]) fun hkept => ⟨hkept.1, rfl⟩
  | cancel t => exact .inr ⟨rfl, rfl⟩
  | sleep | wake => exact h.kept

theorem Inv.closed_stepped {s s' : State T ι} (h : Inv s) (hstep : Stepped s s') :
    s'.queue.closed_ = true ↔ Closed s'.log := by
  cases hstep with
  | put | refuse | finish =>
      rw [closed_snoc, ← h.closed]
      simp [Event.closes]
  | take t v queue front closed =>
      show queue.closed_ = true ↔ _
      rw [closed_snoc, closed, h.closed]
      simp [Event.closes]
  | close | cancel =>
      rw [closed_snoc]
      simp [Event.closes, UnboundedBlockingQueue.closeImpl]
  | sleep | wake => exact h.closed

/-- What a call returns, the calls before it allow. -/
theorem Inv.explained_stepped {s s' : State T ι} (h : Inv s) (hstep : Stepped s s') :
    Explained Allowed s'.log := by
  cases hstep with
  | put t v c w opened notified =>
      apply h.explained.snoc
      show ¬ Closed s.log
      rw [← h.closed, opened]
      exact Bool.false_ne_true
  | refuse t v closed => exact h.explained.snoc (h.closed.mp closed)
  | take t v queue front closed => exact h.explained.snoc ⟨queue.buffer_, (h.accepted_eq front).2⟩
  | finish t empty closed =>
      apply h.explained.snoc
      refine ⟨h.closed.mp closed, ?_⟩
      rw [h.contents, empty, List.append_nil]
  | close t => exact h.explained.snoc trivial
  | cancel t => exact h.explained.snoc h.contents
  | sleep | wake => exact h.explained

/-- A consumer asleep beside a value has a wakeup on its way. -/
theorem Inv.covers_stepped {s s' : State T ι} (h : Inv s) (hstep : Stepped s s') :
    s'.empty_queue_.Covers s'.queue.buffer_.length := by
  cases hstep with
  | put t v c w opened notified =>
      show w.Covers (s.queue.buffer_ ++ [v]).length
      rw [List.length_append, List.length_singleton]
      exact h.covers.notifyOne notified
  | refuse => exact h.covers
  | sleep t empty opened =>
      show (s.empty_queue_.sleep t).Covers s.queue.buffer_.length
      rw [empty]
      exact WaitSet.covers_zero
  | take t v queue front closed =>
      have hcovers := h.covers
      rw [front] at hcovers
      exact hcovers.leave
  | finish t empty closed => exact WaitSet.covers_of_asleep_eq (h.awake closed)
  | wake t asleep => exact h.covers.wake asleep
  | close | cancel => exact WaitSet.covers_notifyAll

theorem Inv.awake_stepped {s s' : State T ι} (h : Inv s) (hstep : Stepped s s')
    (hclosed : s'.queue.closed_ = true) : s'.empty_queue_.asleep = ∅ := by
  cases hstep with
  | put _ _ _ _ opened | sleep _ _ opened =>
      rw [show s.queue.closed_ = true from hclosed] at opened
      cases opened
  | take t v queue front closed => exact h.awake (closed ▸ hclosed)
  | wake t asleep =>
      rw [h.awake hclosed] at asleep
      cases asleep
  | close | cancel => rfl
  | refuse | finish => exact h.awake hclosed

/-- **One critical section keeps the invariant.** -/
theorem Inv.stepped {s s' : State T ι} (h : Inv s) (hstep : Stepped s s') : Inv s' where
  contents := h.contents_stepped hstep
  kept := h.kept_stepped hstep
  closed := h.closed_stepped hstep
  explained := h.explained_stepped hstep
  covers := h.covers_stepped hstep
  awake := h.awake_stepped hstep

theorem reachable_inv {s : State T ι} (h : (system T ι).Reachable s) : Inv s :=
  h.invariant_next inv_init fun _ _ _ hinv hnext => hinv.stepped (next_stepped hnext)

/-! ## The queue keeps its promise -/

/-- **No value is lost, duplicated or reordered, and no consumer is stranded.** In every reachable state:
    the accepted values are those taken, those discarded and those in the buffer, in this order; each call
    has returned what the calls before it allow; and while a consumer sleeps beside a value, or beside a
    closed queue, a wakeup is on its way. -/
theorem history_explained {s : State T ι} (h : (system T ι).Reachable s) :
    accepted s.log = taken s.log ++ discarded s.log ++ s.queue.buffer_ ∧
      taken s.log <+: accepted s.log ∧
      (∀ pre e post, s.log = pre ++ e :: post → Allowed pre e) ∧
      (s.queue.buffer_ ≠ [] ∨ s.queue.closed_ = true → s.empty_queue_.asleep.Nonempty →
        s.empty_queue_.woken.Nonempty) := by
  have hinv := reachable_inv h
  refine ⟨hinv.contents, ?_, hinv.explained, ?_⟩
  · rw [hinv.contents, List.append_assoc]
    exact List.prefix_append _ _
  · rintro (hbuffer | hclosed) hasleep
    · exact hinv.covers.woken_nonempty (List.length_pos_iff.mpr hbuffer) hasleep
    · rw [hinv.awake hclosed] at hasleep
      exact absurd hasleep Finset.not_nonempty_empty

/-- Consumer `0` is woken for a value that consumer `1` takes first, and sleeps again until the close. -/
theorem history_explained_barging :
    ∃ s, (system Nat Nat).Reachable s ∧ taken s.log = [5] ∧
      ∀ pre e post, s.log = pre ++ e :: post → Allowed pre e := by
  have hrun : ∃ s, System.run next ({} : State Nat Nat)
      [.take 0, .put 2 5 (some 0), .take 1, .take 0, .close 2, .take 0] = some s ∧
        taken s.log = [5] := ⟨_, rfl, rfl⟩
  obtain ⟨s, hs, htaken⟩ := hrun
  have h : (system Nat Nat).Reachable s := System.reachable_of_run _ hs
  exact ⟨s, h, htaken, (history_explained h).2.2.1⟩

end BlockingQueue
end Executors
end Tpcc
