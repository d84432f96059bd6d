import Mathlib.Data.Fintype.Basic
import Tpcc.Transition.Exclusive
import Tpcc.Transition.System
import Tpcc.Transition.Total

/-!
# `Locks.Mutex` — the lock over a futex

`Mutex::Lock` and `Mutex::Unlock`, one atomic operation at a time, for any number of threads. Twist's
`wait` compares and sleeps at once, and a woken thread compares again; `notify_one` wakes at least one
sleeper if there is one, and a sleeper can also wake for no reason. A thread calls `Unlock` only when it
holds the mutex; `Lock` it can call at any moment, also when it holds the mutex already.

`waiting_counter_` is a `uint32_t`: it counts the waiting threads modulo 2^32 (`Counts`). `Unlock` reads it
to decide whether to notify, so what it promises sleepers (`Attended`) rests on fewer than 2^32 of them.
-/

namespace Tpcc
namespace Locks

open Transition

/-- `enum mutex_state`. -/
inductive MutexState where
  | unlocked
  | locked
  deriving DecidableEq

/-- The members of `Mutex`. -/
structure Mutex where
  state_ : MutexState := .unlocked
  waiting_counter_ : UInt32 := 0

namespace Mutex

/-- The operation a thread does next. -/
inductive Pc where
  /-- Outside `Lock` and `Unlock`. -/
  | out
  /-- `Lock`: `state_.exchange(LOCKED)`. -/
  | exchange
  /-- `Lock`: `waiting_counter_.fetch_add(1)`. -/
  | fetchAdd
  /-- `Lock`: `state_.wait(LOCKED)`, about to compare. -/
  | wait
  /-- `Lock`: asleep in `state_.wait(LOCKED)`. -/
  | asleep
  /-- `Lock`: the `exchange` of the loop. -/
  | exchangeAgain
  /-- `Lock`: `waiting_counter_.fetch_sub(1)`. -/
  | fetchSub
  /-- `Unlock`: `state_.store(UNLOCKED)`. -/
  | store
  /-- `Unlock`: `waiting_counter_ > 0`. -/
  | load
  /-- `Unlock`: `state_.notify_one()`. -/
  | notify
  deriving DecidableEq

/-- A thread; `holds` from the return of `Lock` to the next `Unlock`. -/
structure Thread where
  pc : Pc := .out
  holds : Bool := false
  deriving DecidableEq

structure State (ι : Type) where
  mutex : Mutex := {}
  threads : ι → Thread := fun _ => {}

/-- Who takes the next step: a thread that calls `Lock` or `Unlock`, does its next operation, or notifies
    the threads `wakes`; or a sleeper that wakes for no reason. -/
inductive Action (ι : Type) where
  | lock (t : ι)
  | unlock (t : ι)
  | step (t : ι)
  | notify (t : ι) (wakes : Finset ι)
  | wake (t : ι)

/-- One atomic operation. -/
def exec (m : Mutex) (th : Thread) : Option (Mutex × Thread) :=
  match th.pc, m.state_ with
  | .exchange, .unlocked => some ({ m with state_ := .locked }, ⟨.out, true⟩)
  | .exchange, .locked => some ({ m with state_ := .locked }, { th with pc := .fetchAdd })
  | .fetchAdd, _ =>
      some ({ m with waiting_counter_ := m.waiting_counter_ + 1 }, { th with pc := .wait })
  | .wait, .locked => some (m, { th with pc := .asleep })
  | .wait, .unlocked => some (m, { th with pc := .exchangeAgain })
  | .exchangeAgain, .unlocked => some ({ m with state_ := .locked }, { th with pc := .fetchSub })
  | .exchangeAgain, .locked => some ({ m with state_ := .locked }, { th with pc := .wait })
  | .fetchSub, _ => some ({ m with waiting_counter_ := m.waiting_counter_ - 1 }, ⟨.out, true⟩)
  | .store, _ => some ({ m with state_ := .unlocked }, ⟨.load, false⟩)
  | .load, _ => some (m, { th with pc := if m.waiting_counter_ > 0 then .notify else .out })
  | _, _ => none

/-- The threads in `wakes` compare again. -/
def wakeAll {ι : Type} [DecidableEq ι] (threads : ι → Thread) (wakes : Finset ι) : ι → Thread :=
  fun i => if i ∈ wakes then { threads i with pc := .wait } else threads i

variable {ι : Type} [DecidableEq ι] [Fintype ι]

/-- The threads asleep in `state_.wait`. -/
def State.sleepers (s : State ι) : Finset ι := Finset.univ.filter fun i => (s.threads i).pc = .asleep

def next (s : State ι) : Action ι → Option (State ι)
  | .lock t =>
      if (s.threads t).pc = .out then
        some { s with threads := Function.update s.threads t { s.threads t with pc := .exchange } }
      else none
  | .unlock t =>
      if (s.threads t).pc = .out ∧ (s.threads t).holds = true then
        some { s with threads := Function.update s.threads t ⟨.store, false⟩ }
      else none
  | .step t =>
      (exec s.mutex (s.threads t)).map fun (mutex, th) =>
        { mutex, threads := Function.update s.threads t th }
  | .notify t wakes =>
      if (s.threads t).pc = .notify ∧ wakes ⊆ s.sleepers ∧ (s.sleepers.Nonempty → wakes.Nonempty) then
        some { s with threads := Function.update (wakeAll s.threads wakes) t { s.threads t with pc := .out } }
      else none
  | .wake t =>
      if (s.threads t).pc = .asleep then
        some { s with threads := Function.update s.threads t { s.threads t with pc := .wait } }
      else none

/-- All runs of threads `ι` on one mutex. -/
def system (ι : Type) [DecidableEq ι] [Fintype ι] : System (State ι) := System.ofNext {} next

/-! ## What a step can do -/

/-- The kinds of step. -/
inductive Stepped (s : State ι) : State ι → Prop where
  | lock (t : ι) (pc : (s.threads t).pc = .out) :
      Stepped s { s with threads := Function.update s.threads t { s.threads t with pc := .exchange } }
  | unlock (t : ι) (pc : (s.threads t).pc = .out) (holds : (s.threads t).holds = true) :
      Stepped s { s with threads := Function.update s.threads t ⟨.store, false⟩ }
  | step (t : ι) (mutex : Mutex) (th : Thread) (done : exec s.mutex (s.threads t) = some (mutex, th)) :
      Stepped s { mutex, threads := Function.update s.threads t th }
  | notify (t : ι) (wakes : Finset ι) (pc : (s.threads t).pc = .notify) (sleep : wakes ⊆ s.sleepers)
      (some : s.sleepers.Nonempty → wakes.Nonempty) :
      Stepped s { s with threads := Function.update (wakeAll s.threads wakes) t { s.threads t with pc := .out } }
  | wake (t : ι) (pc : (s.threads t).pc = .asleep) :
      Stepped s { s with threads := Function.update s.threads t { s.threads t with pc := .wait } }

theorem next_stepped {s s' : State ι} {a : Action ι} (h : next s a = some s') : Stepped s s' := by
  cases a with
  | lock t =>
      simp only [next, Option.ite_none_right_eq_some, Option.some.injEq] at h
      obtain ⟨hpc, rfl⟩ := h
      exact .lock t hpc
  | unlock t =>
      simp only [next, Option.ite_none_right_eq_some, Option.some.injEq] at h
      obtain ⟨⟨hpc, hholds⟩, rfl⟩ := h
      exact .unlock t hpc hholds
  | step t =>
      simp only [next] at h
      obtain ⟨⟨m, th⟩, hexec, rfl⟩ := Option.map_eq_some_iff.mp h
      exact .step t m th hexec
  | notify t wakes =>
      simp only [next, Option.ite_none_right_eq_some, Option.some.injEq] at h
      obtain ⟨⟨hpc, hsleep, hsome⟩, rfl⟩ := h
      exact .notify t wakes hpc hsleep hsome
  | wake t =>
      simp only [next, Option.ite_none_right_eq_some, Option.some.injEq] at h
      obtain ⟨hpc, rfl⟩ := h
      exact .wake t hpc

/-- The kinds of operation. -/
inductive Executed (m : Mutex) (th : Thread) : Mutex → Thread → Prop where
  | acquire (pc : th.pc = .exchange) (free : m.state_ = .unlocked) :
      Executed m th { m with state_ := .locked } ⟨.out, true⟩
  | fail (pc : th.pc = .exchange) (taken : m.state_ = .locked) :
      Executed m th m { th with pc := .fetchAdd }
  | fetchAdd (pc : th.pc = .fetchAdd) :
      Executed m th { m with waiting_counter_ := m.waiting_counter_ + 1 } { th with pc := .wait }
  | sleep (pc : th.pc = .wait) (taken : m.state_ = .locked) : Executed m th m { th with pc := .asleep }
  | retry (pc : th.pc = .wait) (free : m.state_ = .unlocked) :
      Executed m th m { th with pc := .exchangeAgain }
  | reacquire (pc : th.pc = .exchangeAgain) (free : m.state_ = .unlocked) :
      Executed m th { m with state_ := .locked } { th with pc := .fetchSub }
  | refail (pc : th.pc = .exchangeAgain) (taken : m.state_ = .locked) :
      Executed m th m { th with pc := .wait }
  | fetchSub (pc : th.pc = .fetchSub) :
      Executed m th { m with waiting_counter_ := m.waiting_counter_ - 1 } ⟨.out, true⟩
  | store (pc : th.pc = .store) : Executed m th { m with state_ := .unlocked } ⟨.load, false⟩
  | leave (pc : th.pc = .load) (none : m.waiting_counter_ = 0) : Executed m th m { th with pc := .out }
  | notify (pc : th.pc = .load) (some : m.waiting_counter_ ≠ 0) : Executed m th m { th with pc := .notify }

theorem executed {m m' : Mutex} {th th' : Thread} (h : exec m th = some (m', th')) :
    Executed m th m' th' := by
  unfold exec at h
  split at h
  · next hpc hstate => cases h; exact .acquire hpc hstate
  · next hpc hstate =>
      cases h
      rw [← hstate]
      exact .fail hpc hstate
  · next hpc => cases h; exact .fetchAdd hpc
  · next hpc hstate => cases h; exact .sleep hpc hstate
  · next hpc hstate => cases h; exact .retry hpc hstate
  · next hpc hstate => cases h; exact .reacquire hpc hstate
  · next hpc hstate =>
      cases h
      rw [← hstate]
      exact .refail hpc hstate
  · next hpc => cases h; exact .fetchSub hpc
  · next hpc => cases h; exact .store hpc
  · next hpc =>
      cases h
      by_cases hzero : m.waiting_counter_ = 0
      · rw [hzero, if_neg (by decide)]
        exact .leave hpc hzero
      · rw [if_pos (UInt32.pos_iff_ne_zero.mpr hzero)]
        exact .notify hpc hzero
  · cases h

/-! ## Who owns the mutex -/

/-- The thread has set `state_` and not yet reset it. -/
def owns (th : Thread) : Bool :=
  match th.pc with
  | .fetchSub => true
  | .store => true
  | _ => th.holds

/-- `state_` is `LOCKED` exactly while one thread owns the mutex. -/
inductive Owned (s : State ι) : Prop where
  | free (unlocked : s.mutex.state_ = .unlocked) (nobody : Nobody owns s.threads)
  | held (t : ι) (locked : s.mutex.state_ = .locked) (only : Only owns s.threads t)

omit [DecidableEq ι] [Fintype ι] in
theorem Owned.congr {s s' : State ι} (h : Owned s) (hstate : s'.mutex.state_ = s.mutex.state_)
    (howns : ∀ i, owns (s'.threads i) = owns (s.threads i)) : Owned s' := by
  cases h with
  | free unlocked nobody => exact .free (hstate.trans unlocked) (nobody.congr howns)
  | held t locked only => exact .held t (hstate.trans locked) (only.congr howns)

omit [Fintype ι] in
/-- A step of one thread that changes neither `state_` nor who owns the mutex. -/
theorem Owned.same {s : State ι} (h : Owned s) {t : ι} {th : Thread} {m : Mutex}
    (hstate : m.state_ = s.mutex.state_) (howns : owns th = owns (s.threads t)) :
    Owned { mutex := m, threads := Function.update s.threads t th } :=
  h.congr hstate (update_same howns)

omit [Fintype ι] in
/-- A thread that finds `UNLOCKED` and sets `LOCKED` becomes the owner. -/
theorem Owned.take {s : State ι} (h : Owned s) {t : ι} {th : Thread} {m : Mutex}
    (hfree : s.mutex.state_ = .unlocked) (hlocked : m.state_ = .locked) (howns : owns th = true) :
    Owned { mutex := m, threads := Function.update s.threads t th } := by
  cases h with
  | free unlocked nobody => exact .held t hlocked (nobody.take howns)
  | held i locked only =>
      rw [hfree] at locked
      cases locked

theorem owns_of_holds {th : Thread} (h : th.holds = true) : owns th = true := by
  unfold owns
  split
  · rfl
  · rfl
  · exact h

omit [DecidableEq ι] [Fintype ι] in
/-- The owner is the only one. -/
theorem Owned.eq {s : State ι} (h : Owned s) {i j : ι} (hi : owns (s.threads i) = true)
    (hj : owns (s.threads j) = true) : i = j := by
  cases h with
  | free unlocked nobody => exact (nobody.not hi).elim
  | held t locked only => exact (only.eq hi).trans (only.eq hj).symm

omit [DecidableEq ι] in
theorem mem_sleepers {s : State ι} {i : ι} : i ∈ s.sleepers ↔ (s.threads i).pc = .asleep := by
  simp [State.sleepers]

/-- The threads after a notification: the sleepers in `wakes` compare again. -/
theorem notify_threads {s : State ι} {t : ι} {wakes : Finset ι} (hpc : (s.threads t).pc = .notify)
    (hsleep : wakes ⊆ s.sleepers) {α : Type} (p : Thread → α)
    (ht : p { s.threads t with pc := .out } = p (s.threads t))
    (hwake : ∀ th : Thread, th.pc = .asleep → p { th with pc := .wait } = p th) (i : ι) :
    p (Function.update (wakeAll s.threads wakes) t { s.threads t with pc := .out } i) =
      p (s.threads i) := by
  by_cases hi : i = t
  · subst hi
    rw [Function.update_self, ht]
  · rw [Function.update_of_ne hi]
    unfold wakeAll
    split
    · next hmem => exact hwake _ (mem_sleepers.mp (hsleep hmem))
    · rfl

theorem Owned.stepped {s s' : State ι} (h : Owned s) (hstep : Stepped s s') : Owned s' := by
  cases hstep with
  | lock t pc => exact h.same rfl (by simp [owns, pc])
  | unlock t pc holds => exact h.same rfl (by simp [owns, pc, holds])
  | wake t pc => exact h.same rfl (by simp [owns, pc])
  | notify t wakes pc sleep some =>
      refine h.congr rfl (notify_threads pc sleep owns (by simp [owns, pc]) ?_)
      intro th hpc
      simp [owns, hpc]
  | step t m th done =>
      cases executed done with
      | acquire pc free => exact h.take free rfl rfl
      | reacquire pc free => exact h.take free rfl rfl
      | store pc =>
          have howns : owns (s.threads t) = true := by simp [owns, pc]
          cases h with
          | free unlocked nobody => exact (nobody.not howns).elim
          | held i locked only =>
              obtain rfl := only.eq howns
              exact .free rfl (only.drop rfl)
      | fetchSub pc => exact h.same rfl (by simp [owns, pc])
      | fail pc | fetchAdd pc | sleep pc | retry pc | refail pc | leave pc | notify pc =>
          exact h.same rfl (by simp [owns, pc])

/-! ## What `waiting_counter_` counts -/

/-- The thread is between its `fetch_add` and its `fetch_sub`. -/
def waits (th : Thread) : Nat :=
  match th.pc with
  | .wait => 1
  | .asleep => 1
  | .exchangeAgain => 1
  | .fetchSub => 1
  | _ => 0

/-- The number of threads between `fetch_add` and `fetch_sub`. -/
def State.waiters (s : State ι) : Nat := total waits s.threads

/-- `waiting_counter_` is that number, as far as 32 bits go. -/
def Counts (s : State ι) : Prop := s.mutex.waiting_counter_ = UInt32.ofNat s.waiters

/-- A step of one thread that counts as before. -/
theorem Counts.same {s : State ι} (h : Counts s) {t : ι} {th : Thread} {m : Mutex}
    (hcounter : m.waiting_counter_ = s.mutex.waiting_counter_) (hwaits : waits th = waits (s.threads t)) :
    Counts { mutex := m, threads := Function.update s.threads t th } := by
  have htotal : total waits (Function.update s.threads t th) = total waits s.threads :=
    total_congr (update_same hwaits)
  show m.waiting_counter_ = UInt32.ofNat (total waits (Function.update s.threads t th))
  rw [htotal, hcounter]
  exact h

theorem Counts.stepped {s s' : State ι} (h : Counts s) (hstep : Stepped s s') : Counts s' := by
  cases hstep with
  | lock t pc => exact h.same rfl (by simp [waits, pc])
  | unlock t pc holds => exact h.same rfl (by simp [waits, pc])
  | wake t pc => exact h.same rfl (by simp [waits, pc])
  | notify t wakes pc sleep some =>
      have htotal := total_congr (notify_threads pc sleep waits (by simp [waits, pc]) fun th hpc => by
        simp [waits, hpc])
      show s.mutex.waiting_counter_ = UInt32.ofNat (total waits _)
      rw [htotal]
      exact h
  | step t m th done =>
      cases executed done with
      | fetchAdd pc =>
          have htotal := total_update waits s.threads t { s.threads t with pc := .wait }
          simp only [waits, pc, Nat.add_zero] at htotal
          show s.mutex.waiting_counter_ + 1 = UInt32.ofNat (total waits _)
          rw [htotal, UInt32.ofNat_add, ← State.waiters, ← h]
          rfl
      | fetchSub pc =>
          have htotal := total_update waits s.threads t ⟨.out, true⟩
          simp only [waits, pc, Nat.add_zero] at htotal
          show s.mutex.waiting_counter_ - 1 = UInt32.ofNat (total waits _)
          rw [h, State.waiters, ← htotal, UInt32.ofNat_add]
          exact UInt32.add_sub_cancel _ _
      | acquire pc | fail pc | sleep pc | retry pc | reacquire pc | refail pc | store pc | leave pc
      | notify pc => exact h.same rfl (by simp [waits, pc])

/-! ## Who will wake the sleepers -/

/-- The thread will look at `state_` again, or notify. -/
def attends (th : Thread) : Bool :=
  match th.pc with
  | .wait => true
  | .exchangeAgain => true
  | .load => true
  | .notify => true
  | _ => false

/-- Beside a free mutex no sleeper is alone. -/
def Attended (s : State ι) : Prop :=
  s.mutex.state_ = .unlocked → s.sleepers.Nonempty → ∃ i, attends (s.threads i) = true

/-- Fewer than 2^32 threads wait. -/
def FewWait (s : State ι) : Prop := s.waiters < 2 ^ 32

instance (s : State ι) : Decidable (FewWait s) := Nat.decLt _ _

omit [DecidableEq ι] in
/-- While the count fits into 32 bits, a sleeper shows in `waiting_counter_`. -/
theorem Counts.ne_zero {s : State ι} (h : Counts s) (hfew : FewWait s) (hsleep : s.sleepers.Nonempty) :
    s.mutex.waiting_counter_ ≠ 0 := by
  obtain ⟨i, hi⟩ := hsleep
  have hpos : 1 ≤ s.waiters := by
    calc 1 = waits (s.threads i) := by simp [waits, mem_sleepers.mp hi]
      _ ≤ s.waiters := le_total waits s.threads i
  intro hzero
  rw [h] at hzero
  have hnat := congrArg UInt32.toNat hzero
  rw [UInt32.toNat_ofNat', Nat.mod_eq_of_lt hfew] at hnat
  change s.waiters = 0 at hnat
  omega

omit [DecidableEq ι] in
/-- The thread that took the step looks after the sleepers. -/
theorem Attended.by {s : State ι} {t : ι} (h : attends (s.threads t) = true) : Attended s :=
  fun _ _ => ⟨t, h⟩

/-- A step of one thread that did not look after the sleepers, and does not sleep. -/
theorem Attended.same {s : State ι} (h : Attended s) {t : ι} {th : Thread} {m : Mutex}
    (hstate : m.state_ = s.mutex.state_) (hattends : attends (s.threads t) = false)
    (hawake : th.pc ≠ .asleep) : Attended { mutex := m, threads := Function.update s.threads t th } := by
  intro hunlocked ⟨i, hi⟩
  have hsleep := mem_sleepers.mp hi
  change (Function.update s.threads t th i).pc = .asleep at hsleep
  have hit : i ≠ t := by
    rintro rfl
    rw [Function.update_self] at hsleep
    exact hawake hsleep
  rw [Function.update_of_ne hit] at hsleep
  obtain ⟨j, hj⟩ := h (hstate.symm.trans hunlocked) ⟨i, mem_sleepers.mpr hsleep⟩
  have hjt : j ≠ t := by
    rintro rfl
    rw [hattends] at hj
    cases hj
  refine ⟨j, ?_⟩
  show attends (Function.update s.threads t th j) = true
  rw [Function.update_of_ne hjt]
  exact hj

omit [DecidableEq ι] in
/-- A step that leaves the mutex locked. -/
theorem Attended.locked {s : State ι} (h : s.mutex.state_ = .locked) : Attended s := by
  intro hunlocked
  rw [h] at hunlocked
  cases hunlocked

theorem Attended.stepped {s s' : State ι} (h : Attended s) (hcounts : Counts s) (hfew : FewWait s)
    (hstep : Stepped s s') : Attended s' := by
  cases hstep with
  | lock t pc => exact h.same rfl (by simp [attends, pc]) (by simp)
  | unlock t pc holds => exact h.same rfl (by simp [attends, pc]) (by simp)
  | wake t pc => exact .by (t := t) (by simp [attends])
  | notify t wakes pc sleep some =>
      by_cases hsleep : s.sleepers.Nonempty
      · obtain ⟨i, hi⟩ := some hsleep
        have hit : i ≠ t := by
          rintro rfl
          have hasleep := mem_sleepers.mp (sleep hi)
          rw [pc] at hasleep
          cases hasleep
        refine .by (t := i) ?_
        show attends (Function.update (wakeAll s.threads wakes) t _ i) = true
        rw [Function.update_of_ne hit]
        simp [wakeAll, hi, attends]
      · intro _ ⟨i, hi⟩
        refine (hsleep ⟨i, mem_sleepers.mpr ?_⟩).elim
        have hasleep := mem_sleepers.mp hi
        change (Function.update (wakeAll s.threads wakes) t _ i).pc = .asleep at hasleep
        by_cases hit : i = t
        · subst hit
          rw [Function.update_self] at hasleep
          cases hasleep
        · rw [Function.update_of_ne hit] at hasleep
          unfold wakeAll at hasleep
          split at hasleep
          · cases hasleep
          · exact hasleep
  | step t m th done =>
      cases executed done with
      | acquire pc free => exact .locked rfl
      | reacquire pc free => exact .locked rfl
      | fail pc taken => exact .locked taken
      | sleep pc taken => exact .locked taken
      | refail pc taken => exact .locked taken
      | fetchAdd pc => exact .by (t := t) (by simp [attends])
      | retry pc free => exact .by (t := t) (by simp [attends])
      | store pc => exact .by (t := t) (by simp [attends])
      | notify pc some => exact .by (t := t) (by simp [attends])
      | fetchSub pc => exact h.same rfl (by simp [attends, pc]) (by simp)
      | leave pc none =>
          -- the counter is 0, so nobody sleeps
          intro _ ⟨i, hi⟩
          refine (hcounts.ne_zero hfew ⟨i, mem_sleepers.mpr ?_⟩ none).elim
          have hasleep := mem_sleepers.mp hi
          change (Function.update s.threads t _ i).pc = .asleep at hasleep
          refine (of_update (P := fun thread : Thread => thread.pc = .asleep) ?_ hasleep).2
          exact nofun

/-! ## All runs -/

theorem reachable_owned {s : State ι} (h : (system ι).Reachable s) : Owned s := by
  refine h.invariant_next (.free rfl fun _ => rfl) ?_
  intro s a s' hs hnext
  exact hs.stepped (next_stepped hnext)

theorem reachable_counts {s : State ι} (h : (system ι).Reachable s) : Counts s := by
  refine h.invariant_next ?_ ?_
  · have hzero : total waits (fun _ : ι => ({} : Thread)) = 0 := total_eq_zero fun _ => rfl
    show (0 : UInt32) = UInt32.ofNat (total waits _)
    rw [hzero]
    rfl
  · intro s a s' hs hnext
    exact hs.stepped (next_stepped hnext)

/-- The runs in which fewer than 2^32 threads wait at a time. -/
def fewWait (ι : Type) [DecidableEq ι] [Fintype ι] : System (State ι) :=
  (system ι).restrict fun _ s' => FewWait s'

theorem reachable_attended {s : State ι} (h : (fewWait ι).Reachable s) : Attended s ∧ FewWait s := by
  refine System.Reachable.invariant_restrict (P := fun s => Attended s ∧ FewWait s) ?_ ?_ h
  · rintro s rfl
    have hzero : total waits (fun _ : ι => ({} : Thread)) = 0 := total_eq_zero fun _ => rfl
    constructor
    · intro _ ⟨i, hi⟩
      have hasleep := mem_sleepers.mp hi
      cases hasleep
    · show total waits _ < 2 ^ 32
      rw [hzero]
      decide
  · rintro s s' hs ⟨hattended, hfew⟩ hfew' ⟨a, hnext⟩
    exact ⟨hattended.stepped (reachable_counts hs) hfew (next_stepped hnext), hfew'⟩

/-- Beside a free mutex, a sleeper and nobody awake inside `Lock` or `Unlock`. -/
def Stranded (s : State ι) : Prop :=
  s.mutex.state_ = .unlocked ∧ s.sleepers.Nonempty ∧
    ∀ i, (s.threads i).pc = .out ∨ (s.threads i).pc = .asleep

/-- **One holder, and no sleeper on a free mutex.** At most one thread is between a returned `Lock` and the
    next `Unlock`, and `waiting_counter_` counts the waiting threads modulo 2^32, in every run. In every run
    in which fewer than 2^32 threads wait at a time, it is their number, and no sleeper is stranded. -/
theorem no_lost_wakeup (ι : Type) [DecidableEq ι] [Fintype ι] :
    (∀ s : State ι, (system ι).Reachable s →
      (∀ i j, (s.threads i).holds = true → (s.threads j).holds = true → i = j) ∧
        s.mutex.waiting_counter_ = UInt32.ofNat s.waiters) ∧
    ∀ s : State ι, (fewWait ι).Reachable s →
      s.mutex.waiting_counter_.toNat = s.waiters ∧ ¬ Stranded s := by
  constructor
  · intro s hs
    refine ⟨?_, reachable_counts hs⟩
    intro i j hi hj
    exact (reachable_owned hs).eq (owns_of_holds hi) (owns_of_holds hj)
  · intro s hs
    obtain ⟨hattended, hfew⟩ := reachable_attended hs
    constructor
    · rw [reachable_counts hs.of_restrict, UInt32.toNat_ofNat', Nat.mod_eq_of_lt hfew]
    · rintro ⟨hunlocked, hsleep, hall⟩
      obtain ⟨i, hi⟩ := hattended hunlocked hsleep
      rcases hall i with hpc | hpc <;> simp [attends, hpc] at hi

/-- Thread 1 sleeps while thread 0 holds the mutex, and thread 0 has notified it. -/
def handover : List (Action (Fin 2)) :=
  [.lock 0, .step 0, .lock 1, .step 1, .step 1, .step 1, .unlock 0, .step 0, .step 0, .notify 0 {1}]

theorem no_lost_wakeup_handover : ∃ s : State (Fin 2), (fewWait (Fin 2)).Reachable s ∧
    s.mutex.waiting_counter_.toNat = s.waiters ∧ ¬ Stranded s := by
  have hrun : ∃ s, System.runIf (fun _ s' => decide (FewWait s')) next {} handover = some s :=
    Option.isSome_iff_exists.mp (by decide +kernel)
  obtain ⟨s, hs⟩ := hrun
  have hreach : (fewWait (Fin 2)).Reachable s :=
    ⟨{}, rfl, System.steps_of_runIf (fun _ _ hok => of_decide_eq_true hok) hs⟩
  exact ⟨s, hreach, (no_lost_wakeup (Fin 2)).2 s hreach⟩

/-! ## 2^32 waiting threads -/

/-- Thread 0 holds the mutex, and threads 1 to `k` wait for it. -/
def full (n k : Nat) : State (Fin n) where
  mutex := { state_ := .locked, waiting_counter_ := UInt32.ofNat k }
  threads i := if i.val = 0 then ⟨.out, true⟩ else if i.val ≤ k then ⟨.wait, false⟩ else {}

/-- The next thread comes to wait. -/
theorem full_threads {n k : Nat} (h : k + 1 < n) :
    (full n (k + 1)).threads = Function.update (full n k).threads ⟨k + 1, h⟩ ⟨.wait, false⟩ := by
  funext i
  by_cases hi : i = ⟨k + 1, h⟩
  · subst hi
    rw [Function.update_self]
    simp [full]
  · rw [Function.update_of_ne hi]
    have hne : i.val ≠ k + 1 := fun heq => hi (Fin.ext heq)
    have hle : i.val ≤ k + 1 ↔ i.val ≤ k := by omega
    simp only [full, hle]

theorem waiters_full {n k : Nat} (h : k < n) : (full n k).waiters = k := by
  induction k with
  | zero =>
      refine total_eq_zero ?_
      intro i
      by_cases hi : i.val = 0
      · simp [full, waits, hi]
      · simp [full, waits, hi]
  | succ k ih =>
      have htotal := total_update waits (full n k).threads ⟨k + 1, h⟩ ⟨.wait, false⟩
      have hout : waits ((full n k).threads ⟨k + 1, h⟩) = 0 := by simp [full, waits]
      rw [← full_threads h, hout] at htotal
      have hk := ih (Nat.lt_of_succ_lt h)
      change total waits (full n (k + 1)).threads = k + 1
      change total waits (full n k).threads = k at hk
      rw [hk] at htotal
      exact htotal

/-- A thread outside finds the mutex taken, and comes to wait. -/
theorem steps_wait {s : State ι} {t : ι} (hlocked : s.mutex.state_ = .locked) (hout : s.threads t = {}) :
    (system ι).Steps s
      { mutex := { state_ := .locked, waiting_counter_ := s.mutex.waiting_counter_ + 1 },
        threads := Function.update s.threads t ⟨.wait, false⟩ } := by
  have hrun : System.run next s [.lock t, .step t, .step t] = some
      { mutex := { state_ := .locked, waiting_counter_ := s.mutex.waiting_counter_ + 1 },
        threads := Function.update s.threads t ⟨.wait, false⟩ } := by
    simp [System.run, next, exec, hlocked, hout]
  exact System.steps_of_run hrun

theorem reachable_full {n k : Nat} (h : k < n) : (system (Fin n)).Reachable (full n k) := by
  induction k with
  | zero =>
      refine System.reachable_of_run [.lock ⟨0, h⟩, .step ⟨0, h⟩] ?_
      have hthreads : (full n 0).threads = Function.update (fun _ => {}) ⟨0, h⟩ ⟨.out, true⟩ := by
        funext i
        by_cases hi : i = ⟨0, h⟩
        · subst hi
          rw [Function.update_self]
          simp [full]
        · have hne : i.val ≠ 0 := fun heq => hi (Fin.ext heq)
          rw [Function.update_of_ne hi]
          simp [full, hne]
      simp only [System.run, next, exec, Function.update_self, Function.update_idem, if_true,
        Option.bind_some, Option.map_some, ← hthreads]
      rfl
  | succ k ih =>
      have hout : (full n k).threads ⟨k + 1, h⟩ = {} := by simp [full]
      have hsteps := steps_wait rfl hout
      rw [← full_threads h] at hsteps
      have hcounter : (full n k).mutex.waiting_counter_ + 1 = UInt32.ofNat (k + 1) :=
        (UInt32.ofNat_add k 1).symm
      rw [hcounter] at hsteps
      exact (ih (Nat.lt_of_succ_lt h)).steps hsteps

theorem waiters_lost : ¬ ∀ (n : Nat) (s : State (Fin n)), (system (Fin n)).Reachable s →
    s.mutex.waiting_counter_.toNat = s.waiters := by
  intro h
  have hlt : 2 ^ 32 < 2 ^ 32 + 1 := Nat.lt_succ_self _
  have hcount := h (2 ^ 32 + 1) (full (2 ^ 32 + 1) (2 ^ 32)) (reachable_full hlt)
  rw [waiters_full hlt] at hcount
  change (UInt32.ofNat (2 ^ 32)).toNat = 2 ^ 32 at hcount
  rw [UInt32.toNat_ofNat'] at hcount
  cases hcount

end Mutex
end Locks
end Tpcc
