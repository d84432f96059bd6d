import Tpcc.Locks.Mutex
import Tpcc.Locks.TicketLock
import Tpcc.Transition.Section

/-!
# `Locks.Sections` — critical sections under the ticket lock and under the futex lock

What a client sees of `TicketLock` and `Mutex` is what it sees of a mutex that is free or some thread's: calls, and
the returns of `Lock` and `TryLock`. So whatever is done inside sections of one of these locks is done in one step
(`sections_atomic`), for any object and any number of threads.
-/

namespace Tpcc
namespace Locks

open Transition

variable {ι : Type} [DecidableEq ι]

namespace TicketLock

/-- What a client sees: calls, and the returns of `Lock` and `TryLock`. -/
def label (s : State ι) : Action ι → Option (MutexEvent ι)
  | .lock t => some (.lock t)
  | .tryLock t => some (.tryLock t)
  | .unlock t => some (.unlock t)
  | .step t =>
      match (s.threads t).pc with
      | .out => none
      | .spin ticket => if ticket = s.lock.owner_ticket_ then some (.acquire t) else none
      | .tried current => some (.tried t (s.lock.compareExchange current).2)
      | .loaded _ => none

/-- The runs with fewer than 2^64 ticket acquisitions, and what is seen of them. -/
def lts (ι : Type) [DecidableEq ι] : Lts (State ι) (MutexEvent ι) :=
  (Lts.ofNext {} next label).restrict fun _ s' => s'.tickets.length < 2 ^ 64

/-- The thread holds the lock, and is not about to release it. -/
def inside (th : Thread) : Bool :=
  match th.pc with
  | .loaded _ => false
  | _ => th.holds.isSome

omit [DecidableEq ι] in
theorem inside_of_none {th : Thread} (h : th.holds = none) : inside th = false := by
  unfold inside
  split
  · rfl
  · rw [h]
    rfl

namespace Queue

variable {s : State ι} {o : Nat}

omit [DecidableEq ι] in
theorem only (h : Queue s o) {t : ι} (ht : inside (s.threads t) = true) : Only inside s.threads t := by
  refine ⟨ht, ?_⟩
  intro j hj
  by_contra hinside
  rw [Bool.not_eq_false] at hinside
  have hholds : ∀ i, inside (s.threads i) = true → ∃ v, (s.threads i).holds = some v := by
    intro i hi
    by_contra hnone
    rw [inside_of_none (Option.eq_none_iff_forall_ne_some.mpr fun v hv => hnone ⟨v, hv⟩)] at hi
    cases hi
  obtain ⟨v, hv⟩ := hholds t ht
  obtain ⟨w, hw⟩ := hholds j hinside
  exact hj (h.exclusive hw hv)

end Queue

omit [DecidableEq ι] in
theorem nobody {f : ι → Thread} (h : ∀ i, (f i).holds = none) : Nobody inside f := fun i => inside_of_none (h i)

/-- **One step is one of a mutex.** -/
theorem lockStep {s s' : State ι} {o : Nat} {a : Action ι} (h : Queue s o) (hnext : next s a = some s') :
    LockStep inside s.threads s'.threads (label s a) := by
  cases a with
  | lock t =>
      simp only [next, Option.ite_none_right_eq_some, Option.some.injEq] at hnext
      obtain ⟨hpc, rfl⟩ := hnext
      exact .lock t (update_same (by simp [inside, hpc]))
  | tryLock t =>
      simp only [next, Option.ite_none_right_eq_some, Option.some.injEq] at hnext
      obtain ⟨hpc, rfl⟩ := hnext
      exact .tryLock t (update_same (by simp [inside, hpc]))
  | unlock t =>
      simp only [next, Option.ite_none_right_eq_some, Option.some.injEq] at hnext
      obtain ⟨⟨hpc, hholds⟩, rfl⟩ := hnext
      have honly := h.only (t := t) (by simp [inside, hpc, Option.isSome_iff_ne_none, hholds])
      exact .unlock t honly (honly.drop rfl)
  | step t =>
      cases hpc : (s.threads t).pc with
      | out =>
          simp only [next, hpc] at hnext
          cases hnext
      | spin ticket =>
          simp only [next, hpc] at hnext
          by_cases howner : ticket = s.lock.owner_ticket_
          · rw [if_pos howner] at hnext
            cases hnext
            have hlabel : label s (.step t) = some (.acquire t) := by simp [label, hpc, howner]
            subst howner
            have hnobody := nobody (h.free_of_spin hpc).2
            rw [hlabel]
            exact .acquire t hnobody (hnobody.take rfl)
          · rw [if_neg howner] at hnext
            cases hnext
            have hlabel : label s (.step t) = none := by simp [label, hpc, howner]
            rw [hlabel]
            exact .silent fun _ => rfl
      | tried current =>
          have hlabel : label s (.step t) = some (.tried t (s.lock.compareExchange current).2) := by simp [label, hpc]
          rw [hlabel]
          by_cases hcurrent : s.lock.next_free_ticket_ = current
          · subst hcurrent
            simp only [next, hpc, compareExchange, if_true] at hnext ⊢
            cases hnext
            have hnobody := nobody (h.free_of_eq (h.eq_of_tried hpc))
            exact .taken t hnobody (hnobody.take rfl)
          · simp only [next, hpc, compareExchange, if_neg hcurrent] at hnext ⊢
            cases hnext
            exact .failed t (update_same (by simp [inside, hpc]))
      | loaded owner =>
          simp only [next, hpc] at hnext
          cases hnext
          have hlabel : label s (.step t) = none := by simp [label, hpc]
          rw [hlabel]
          exact .silent (update_same (by simp [inside, hpc]))

/-- **A ticket lock is a mutex.** -/
theorem refines (ι : Type) [DecidableEq ι] : (lts ι).Refines (mutex ι) := by
  refine mutex_refines (p := inside) State.threads (fun s => ∃ o, Queue s o) ?_ ?_
  · rintro s rfl
    exact ⟨⟨0, queue_init⟩, fun _ => rfl⟩
  · rintro s l s' ⟨o, ho⟩ ⟨hlt, a, hnext, rfl⟩
    exact ⟨ho.stepped (next_stepped hnext) hlt, lockStep ho hnext⟩

end TicketLock

namespace Mutex

variable [Fintype ι]

/-- What a client sees: calls, and the return of `Lock`. -/
def label (s : State ι) : Action ι → Option (MutexEvent ι)
  | .lock t => some (.lock t)
  | .unlock t => some (.unlock t)
  | .step t =>
      match (s.threads t).pc, s.mutex.state_ with
      | .exchange, .unlocked => some (.acquire t)
      | .fetchSub, _ => some (.acquire t)
      | _, _ => none
  | .notify _ _ => none
  | .wake _ => none

/-- All runs, and what is seen of them. -/
def lts (ι : Type) [DecidableEq ι] [Fintype ι] : Lts (State ι) (MutexEvent ι) := Lts.ofNext {} next label

/-- The thread is about to return from `Lock`, or to reset `state_`. -/
def between (th : Thread) : Bool :=
  match th.pc with
  | .fetchSub => true
  | .store => true
  | _ => false

/-- `holds` says what it should. -/
structure Inv (s : State ι) : Prop where
  owned : Owned s
  holds : ∀ t, between (s.threads t) = true → (s.threads t).holds = false

section

variable {s s' : State ι}

omit [DecidableEq ι] [Fintype ι] in
theorem Owned.nobody (h : Owned s) (hfree : s.mutex.state_ = .unlocked) : Nobody owns s.threads := by
  cases h with
  | free unlocked nobody => exact nobody
  | held i locked only =>
      rw [hfree] at locked
      cases locked

omit [DecidableEq ι] [Fintype ι] in
theorem nobody_holds {f : ι → Thread} (h : Nobody owns f) : Nobody Thread.holds f := by
  intro i
  rw [Bool.eq_false_iff]
  exact fun hi => h.not (owns_of_holds hi)

omit [DecidableEq ι] [Fintype ι] in
theorem Owned.only_holds (h : Owned s) {t : ι} (ht : (s.threads t).holds = true) : Only Thread.holds s.threads t := by
  refine ⟨ht, ?_⟩
  intro j hj
  rw [Bool.eq_false_iff]
  exact fun hj' => hj (h.eq (owns_of_holds hj') (owns_of_holds ht))

omit [DecidableEq ι] [Fintype ι] in
/-- While another thread owns the mutex, or this one without holding it, nobody holds it. -/
theorem Inv.nobody (h : Inv s) {t : ι} (howns : owns (s.threads t) = true) (ht : between (s.threads t) = true) :
    Nobody Thread.holds s.threads := by
  intro i
  rw [Bool.eq_false_iff]
  intro hi
  obtain rfl := h.owned.eq (owns_of_holds hi) howns
  rw [h.holds i ht] at hi
  cases hi

omit [Fintype ι] in
/-- The step of thread `t` leaves every other as it was. -/
theorem between_update (h : Inv s) {t : ι} {th : Thread} (hth : between th = true → th.holds = false) :
    ∀ i, between (Function.update s.threads t th i) = true → (Function.update s.threads t th i).holds = false :=
  (Function.forall_update_iff s.threads fun _ th => between th = true → th.holds = false).mpr ⟨hth, fun i _ => h.holds i⟩

omit [Fintype ι] in
/-- Thread `t` is not between its two operations any more. -/
theorem between_outside (h : Inv s) {t : ι} {th : Thread} (hth : between th = false) :
    ∀ i, between (Function.update s.threads t th i) = true → (Function.update s.threads t th i).holds = false :=
  between_update h fun hbetween => absurd (hth.symm.trans hbetween) Bool.false_ne_true

/-- **One step is one of a mutex.** -/
theorem Inv.stepped (h : Inv s) {a : Action ι} (hnext : next s a = some s') :
    Inv s' ∧ LockStep Thread.holds s.threads s'.threads (label s a) := by
  have howned := h.owned.stepped (next_stepped hnext)
  cases a with
  | lock t =>
      simp only [next, Option.ite_none_right_eq_some, Option.some.injEq] at hnext
      obtain ⟨hpc, rfl⟩ := hnext
      exact ⟨⟨howned, between_outside h rfl⟩, .lock t (update_same rfl)⟩
  | unlock t =>
      simp only [next, Option.ite_none_right_eq_some, Option.some.injEq] at hnext
      obtain ⟨⟨hpc, hholds⟩, rfl⟩ := hnext
      have honly := h.owned.only_holds hholds
      exact ⟨⟨howned, between_update h fun _ => rfl⟩, .unlock t honly (honly.drop rfl)⟩
  | wake t =>
      simp only [next, Option.ite_none_right_eq_some, Option.some.injEq] at hnext
      obtain ⟨hpc, rfl⟩ := hnext
      exact ⟨⟨howned, between_outside h rfl⟩, .silent (update_same rfl)⟩
  | notify t wakes =>
      simp only [next, Option.ite_none_right_eq_some, Option.some.injEq] at hnext
      obtain ⟨⟨hpc, hsleep, -⟩, rfl⟩ := hnext
      have hholds := notify_threads hpc hsleep Thread.holds rfl fun _ _ => rfl
      have hbetween := notify_threads hpc hsleep between (by simp [between, hpc]) fun th hasleep => by
        simp [between, hasleep]
      refine ⟨⟨howned, ?_⟩, .silent hholds⟩
      intro i hi
      rw [hbetween] at hi
      exact (hholds i).trans (h.holds i hi)
  | step t =>
      obtain ⟨⟨m, th⟩, hexec, rfl⟩ := Option.map_eq_some_iff.mp hnext
      cases executed hexec with
      | acquire pc free =>
          have hlabel : label s (.step t) = some (.acquire t) := by simp [label, pc, free]
          have hnobody := nobody_holds (h.owned.nobody free)
          rw [hlabel]
          exact ⟨⟨howned, between_outside h rfl⟩, .acquire t hnobody (hnobody.take rfl)⟩
      | fetchSub pc =>
          have hlabel : label s (.step t) = some (.acquire t) := by simp [label, pc]
          have hnobody := h.nobody (t := t) (by simp [owns, pc]) (by simp [between, pc])
          rw [hlabel]
          exact ⟨⟨howned, between_outside h rfl⟩, .acquire t hnobody (hnobody.take rfl)⟩
      | reacquire pc free =>
          have hlabel : label s (.step t) = none := by simp [label, pc]
          have hnobody := nobody_holds (h.owned.nobody free)
          rw [hlabel]
          exact ⟨⟨howned, between_update h fun _ => hnobody t⟩, .silent (update_same rfl)⟩
      | store pc =>
          have hlabel : label s (.step t) = none := by simp [label, pc]
          have hholds := h.holds t (by simp [between, pc])
          rw [hlabel]
          exact ⟨⟨howned, between_outside h rfl⟩, .silent (update_same hholds.symm)⟩
      | fail pc taken =>
          have hlabel : label s (.step t) = none := by simp [label, pc, taken]
          rw [hlabel]
          exact ⟨⟨howned, between_outside h rfl⟩, .silent (update_same rfl)⟩
      | fetchAdd pc | sleep pc taken | retry pc free | refail pc taken | leave pc hzero | notify pc hsome =>
          have hlabel : label s (.step t) = none := by simp [label, pc]
          rw [hlabel]
          exact ⟨⟨howned, between_outside h rfl⟩, .silent (update_same rfl)⟩

end

/-- **The lock over a futex is a mutex.** -/
theorem refines (ι : Type) [DecidableEq ι] [Fintype ι] : (lts ι).Refines (mutex ι) := by
  refine mutex_refines (p := Thread.holds) State.threads Inv ?_ ?_
  · rintro s rfl
    exact ⟨⟨.free rfl fun _ => rfl, nofun⟩, fun _ => rfl⟩
  · rintro s l s' h ⟨a, hnext, rfl⟩
    exact h.stepped hnext

end Mutex

end Locks
end Tpcc
