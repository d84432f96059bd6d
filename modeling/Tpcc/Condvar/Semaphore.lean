import Mathlib.Algebra.Group.Nat.Defs
import Tpcc.Transition.System
import Tpcc.Transition.WaitSet

/-!
# `Condvar.Semaphore` — a counting semaphore over a mutex and a condition variable

`Semaphore::Acquire` and `Release` for any number of threads. Both run under `mutex_`, and waiting releases
it and sleeps at once, so what a thread does between taking the mutex and giving it up is one step.

`current_number_` is a `size_t`: a `Release` that finds it at 2^64 - 1 sets it to zero (`Overflows`), which
`wraps` counts.
-/

namespace Tpcc
namespace Condvar

open Transition

/-- The number of permits, and the threads inside `wait`. -/
structure Semaphore (ι : Type) [DecidableEq ι] where
  current_number_ : UInt64
  enough_tokens_ : WaitSet ι := {}

namespace Semaphore

variable {ι : Type} [DecidableEq ι]

/-- `Acquire`, whenever thread `t` has the mutex and looks at the predicate: it takes a permit and returns,
    or sleeps. -/
def acquire (q : Semaphore ι) (t : ι) : Bool × Semaphore ι :=
  if 0 < q.current_number_ then
    (true, { current_number_ := q.current_number_ - 1, enough_tokens_ := q.enough_tokens_.leave t })
  else (false, { q with enough_tokens_ := q.enough_tokens_.sleep t })

/-- `Release`, whose notification wakes `c`. -/
def release (q : Semaphore ι) (c : Option ι) : Option (Semaphore ι) :=
  (q.enough_tokens_.notifyOne c).map fun w =>
    { current_number_ := q.current_number_ + 1, enough_tokens_ := w }

/-- Thread `t` wakes for no reason. -/
def wake (q : Semaphore ι) (t : ι) : Option (Semaphore ι) :=
  if t ∈ q.enough_tokens_.asleep then some { q with enough_tokens_ := q.enough_tokens_.wake t } else none

/-- The next `Release` overflows. -/
def Overflows (q : Semaphore ι) : Prop := q.current_number_.toNat = 2 ^ 64 - 1

instance (q : Semaphore ι) : Decidable q.Overflows := inferInstanceAs (Decidable (_ = _))

/-- While somebody sleeps, at least as many threads are woken as there are permits. -/
def Covered (q : Semaphore ι) : Prop := q.enough_tokens_.Covers q.current_number_.toNat

/-! ## What the sections do -/

theorem acquire_cases (q : Semaphore ι) (t : ι) :
    (0 < q.current_number_ ∧ q.acquire t =
        (true, { current_number_ := q.current_number_ - 1, enough_tokens_ := q.enough_tokens_.leave t })) ∨
      (q.current_number_.toNat = 0 ∧
        q.acquire t = (false, { q with enough_tokens_ := q.enough_tokens_.sleep t })) := by
  by_cases h : 0 < q.current_number_
  · exact .inl ⟨h, if_pos h⟩
  · refine .inr ⟨?_, if_neg h⟩
    rw [UInt64.lt_iff_toNat_lt] at h
    exact Nat.eq_zero_of_not_pos h

/-- **A thread takes a permit**: there is one. -/
theorem toNat_of_acquire {q q' : Semaphore ι} {t : ι} (h : q.acquire t = (true, q')) :
    q'.current_number_.toNat + 1 = q.current_number_.toNat ∧ q'.enough_tokens_ = q.enough_tokens_.leave t := by
  rcases q.acquire_cases t with ⟨hpos, heq⟩ | ⟨-, heq⟩
  · rw [heq] at h
    obtain rfl := (Prod.mk.inj h).2
    have hle : (1 : UInt64) ≤ q.current_number_ := by
      rw [UInt64.lt_iff_toNat_lt] at hpos
      rw [UInt64.le_iff_toNat_le]
      exact hpos
    refine ⟨?_, rfl⟩
    rw [UInt64.toNat_sub_of_le _ _ hle]
    exact Nat.sub_add_cancel (UInt64.le_iff_toNat_le.mp hle)
  · rw [heq] at h
    cases h

/-- **A thread sleeps**: there is no permit. -/
theorem toNat_of_sleep {q q' : Semaphore ι} {t : ι} (h : q.acquire t = (false, q')) :
    q.current_number_.toNat = 0 ∧ q'.current_number_ = q.current_number_ ∧
      q'.enough_tokens_ = q.enough_tokens_.sleep t := by
  rcases q.acquire_cases t with ⟨-, heq⟩ | ⟨hzero, heq⟩
  · rw [heq] at h
    cases h
  · rw [heq] at h
    obtain rfl := (Prod.mk.inj h).2
    exact ⟨hzero, rfl, rfl⟩

theorem toNat_of_release {q q' : Semaphore ι} {c : Option ι} (h : q.release c = some q') :
    q'.current_number_.toNat + (if q.Overflows then 2 ^ 64 else 0) = q.current_number_.toNat + 1 := by
  obtain ⟨w, -, rfl⟩ := Option.map_eq_some_iff.mp h
  have hlt := q.current_number_.toNat_lt
  show (q.current_number_ + 1).toNat + _ = _
  rw [UInt64.toNat_add, UInt64.toNat_one]
  by_cases hover : q.Overflows
  · have hmax : q.current_number_.toNat = 2 ^ 64 - 1 := hover
    rw [if_pos hover]
    omega
  · have hne : q.current_number_.toNat ≠ 2 ^ 64 - 1 := hover
    rw [if_neg hover]
    omega

theorem notified_of_release {q q' : Semaphore ι} {c : Option ι} (h : q.release c = some q') :
    q.enough_tokens_.notifyOne c = some q'.enough_tokens_ := by
  obtain ⟨w, hw, rfl⟩ := Option.map_eq_some_iff.mp h
  exact hw

theorem wake_eq_some {q q' : Semaphore ι} {t : ι} (h : q.wake t = some q') :
    t ∈ q.enough_tokens_.asleep ∧ q'.current_number_ = q.current_number_ ∧
      q'.enough_tokens_ = q.enough_tokens_.wake t := by
  simp only [wake, Option.ite_none_right_eq_some, Option.some.injEq] at h
  obtain ⟨hasleep, rfl⟩ := h
  exact ⟨hasleep, rfl, rfl⟩

/-! ## No stranded sleeper -/

theorem covered_init (initial : UInt64) : ({ current_number_ := initial } : Semaphore ι).Covered :=
  WaitSet.covers_of_asleep_eq rfl

theorem Covered.acquire {q q' : Semaphore ι} {t : ι} (h : q.Covered) (hq : q.acquire t = (true, q')) :
    q'.Covered := by
  obtain ⟨hnumber, htokens⟩ := toNat_of_acquire hq
  unfold Covered at h ⊢
  rw [← hnumber] at h
  rw [htokens]
  exact h.leave

theorem Covered.sleep {q q' : Semaphore ι} {t : ι} (hq : q.acquire t = (false, q')) : q'.Covered := by
  obtain ⟨hzero, hnumber, -⟩ := toNat_of_sleep hq
  unfold Covered
  rw [hnumber, hzero]
  exact WaitSet.covers_zero

theorem Covered.release {q q' : Semaphore ι} {c : Option ι} (h : q.Covered) (hq : q.release c = some q') :
    q'.Covered := by
  have hnumber := toNat_of_release hq
  refine (WaitSet.Covers.notifyOne h (notified_of_release hq)).mono ?_
  rw [← hnumber]
  exact Nat.le_add_right _ _

theorem Covered.wake {q q' : Semaphore ι} {t : ι} (h : q.Covered) (hq : q.wake t = some q') : q'.Covered := by
  obtain ⟨hasleep, hnumber, htokens⟩ := wake_eq_some hq
  unfold Covered
  rw [hnumber, htokens]
  exact WaitSet.Covers.wake h hasleep

/-! ## The runs -/

/-- A semaphore, the calls of `Acquire` and of `Release` that are past their section, and how many of the
    latter overflowed. -/
structure State (ι : Type) [DecidableEq ι] where
  semaphore : Semaphore ι
  acquires : Nat := 0
  releases : Nat := 0
  wraps : Nat := 0

/-- Who takes the next step: a thread that calls `Acquire`, or looks at the predicate again; one that calls
    `Release`, with the sleeper its notification is for; or a sleeper that wakes for no reason. -/
inductive Action (ι : Type) where
  | acquire (t : ι)
  | release (t : ι) (wakes : Option ι)
  | wake (t : ι)

def next (s : State ι) : Action ι → Option (State ι)
  | .acquire t =>
      if t ∈ s.semaphore.enough_tokens_.asleep then none else
        match s.semaphore.acquire t with
        | (true, semaphore) => some { s with semaphore, acquires := s.acquires + 1 }
        | (false, semaphore) => some { s with semaphore }
  | .release t c =>
      if s.semaphore.enough_tokens_.Waits t then none else
        (s.semaphore.release c).map fun semaphore =>
          { s with semaphore, releases := s.releases + 1
                   wraps := if s.semaphore.Overflows then s.wraps + 1 else s.wraps }
  | .wake t => (s.semaphore.wake t).map fun semaphore => { s with semaphore }

/-- All runs of threads `ι` on a semaphore with `initial` permits. -/
def system (ι : Type) [DecidableEq ι] (initial : UInt64) : System (State ι) :=
  System.ofNext { semaphore := { current_number_ := initial } } next

/-- The kinds of step. -/
inductive Stepped (s : State ι) : State ι → Prop where
  | acquire (t : ι) (q : Semaphore ι) (acquired : s.semaphore.acquire t = (true, q)) :
      Stepped s { s with semaphore := q, acquires := s.acquires + 1 }
  | sleep (t : ι) (q : Semaphore ι) (slept : s.semaphore.acquire t = (false, q)) :
      Stepped s { s with semaphore := q }
  | release (c : Option ι) (q : Semaphore ι) (released : s.semaphore.release c = some q) :
      Stepped s { s with
        semaphore := q
        releases := s.releases + 1
        wraps := if s.semaphore.Overflows then s.wraps + 1 else s.wraps }
  | wake (t : ι) (q : Semaphore ι) (woken : s.semaphore.wake t = some q) : Stepped s { s with semaphore := q }

theorem next_stepped {s s' : State ι} {a : Action ι} (h : next s a = some s') : Stepped s s' := by
  cases a with
  | acquire t =>
      simp only [next, Option.ite_none_left_eq_some] at h
      obtain ⟨-, h⟩ := h
      split at h
      · next q hq =>
          obtain rfl := Option.some.inj h
          exact .acquire t q hq
      · next q hq =>
          obtain rfl := Option.some.inj h
          exact .sleep t q hq
  | release t c =>
      simp only [next, Option.ite_none_left_eq_some] at h
      obtain ⟨-, h⟩ := h
      obtain ⟨q, hq, rfl⟩ := Option.map_eq_some_iff.mp h
      exact .release c q hq
  | wake t =>
      obtain ⟨q, hq, rfl⟩ := Option.map_eq_some_iff.mp h
      exact .wake t q hq

/-! ## Permits -/

/-- The permits are those there were, and those released, without those acquired and those lost to an
    overflow. -/
def Conserved (initial : UInt64) (s : State ι) : Prop :=
  s.semaphore.current_number_.toNat + s.acquires + 2 ^ 64 * s.wraps = initial.toNat + s.releases

theorem conserved_init (initial : UInt64) :
    Conserved initial ({ semaphore := { current_number_ := initial } } : State ι) := by
  simp only [Conserved, Nat.mul_zero, Nat.add_zero]

theorem Conserved.stepped {initial : UInt64} {s s' : State ι} (h : Conserved initial s)
    (hstep : Stepped s s') : Conserved initial s' := by
  unfold Conserved at h ⊢
  cases hstep with
  | acquire t q acquired =>
      have hnumber := (toNat_of_acquire acquired).1
      show q.current_number_.toNat + (s.acquires + 1) + 2 ^ 64 * s.wraps = initial.toNat + s.releases
      omega
  | sleep t q slept =>
      show q.current_number_.toNat + s.acquires + 2 ^ 64 * s.wraps = _
      rwa [(toNat_of_sleep slept).2.1]
  | release c q released =>
      -- an overflow takes 2^64 permits away, and `wraps` has them
      have hnumber := toNat_of_release released
      generalize hwraps : (if s.semaphore.Overflows then s.wraps + 1 else s.wraps) = wraps
      show q.current_number_.toNat + s.acquires + 2 ^ 64 * wraps = initial.toNat + (s.releases + 1)
      by_cases hover : s.semaphore.Overflows
      · rw [if_pos hover] at hnumber hwraps
        omega
      · rw [if_neg hover] at hnumber hwraps
        omega
  | wake t q woken =>
      show q.current_number_.toNat + s.acquires + 2 ^ 64 * s.wraps = _
      rwa [(wake_eq_some woken).2.1]

theorem Covered.stepped {s s' : State ι} (h : s.semaphore.Covered) (hstep : Stepped s s') :
    s'.semaphore.Covered := by
  cases hstep with
  | acquire t q acquired => exact h.acquire acquired
  | sleep t q slept => exact Covered.sleep slept
  | release c q released => exact h.release released
  | wake t q woken => exact h.wake woken

theorem reachable_inv {initial : UInt64} {s : State ι} (h : (system ι initial).Reachable s) :
    Conserved initial s ∧ s.semaphore.Covered :=
  h.invariant_next (P := fun s => Conserved initial s ∧ s.semaphore.Covered) ⟨conserved_init initial, covered_init initial⟩
    fun _ _ _ ⟨hconserved, hcovered⟩ hnext =>
      ⟨hconserved.stepped (next_stepped hnext), Covered.stepped hcovered (next_stepped hnext)⟩

/-- Only a permit that is there is acquired. -/
theorem pos_of_acquires {s s' : State ι} (hstep : Stepped s s') (h : s'.acquires ≠ s.acquires) :
    s'.semaphore.current_number_.toNat + 1 = s.semaphore.current_number_.toNat := by
  cases hstep with
  | acquire t q acquired => exact (toNat_of_acquire acquired).1
  | sleep | release | wake => exact absurd rfl h

/-- **Permits are conserved, and no wakeup is lost.** In every reachable state the permits are the initial ones
    and those released without those acquired, but for 2^64 of them at each overflow; an `Acquire` that returns
    has found one; and while a thread sleeps beside a permit, somebody is woken and has yet to look. -/
theorem permits_conserved {initial : UInt64} {s : State ι} (h : (system ι initial).Reachable s) :
    s.semaphore.current_number_.toNat + s.acquires + 2 ^ 64 * s.wraps = initial.toNat + s.releases ∧
      (∀ a s', next s a = some s' → s'.acquires ≠ s.acquires →
        s'.semaphore.current_number_.toNat + 1 = s.semaphore.current_number_.toNat) ∧
      (0 < s.semaphore.current_number_ → s.semaphore.enough_tokens_.asleep.Nonempty →
        s.semaphore.enough_tokens_.woken.Nonempty) := by
  obtain ⟨hconserved, hcovered⟩ := reachable_inv h
  refine ⟨hconserved, fun a s' hnext => pos_of_acquires (next_stepped hnext), fun hpos => ?_⟩
  rw [UInt64.lt_iff_toNat_lt] at hpos
  exact hcovered.woken_nonempty hpos

/-- Thread 0 sleeps, is woken for the permit of thread 1, and takes it. -/
theorem permits_conserved_one : ∃ s : State Nat, (system Nat 0).Reachable s ∧ s.acquires = 1 ∧
    s.semaphore.current_number_.toNat + s.acquires + 2 ^ 64 * s.wraps = 0 + s.releases := by
  have hrun : ∃ s, System.run next ({ semaphore := { current_number_ := 0 } } : State Nat)
      [.acquire 0, .release 1 (some 0), .acquire 0] = some s ∧ s.acquires = 1 := ⟨_, rfl, rfl⟩
  obtain ⟨s, hs, hacquires⟩ := hrun
  have h : (system Nat 0).Reachable s := System.reachable_of_run _ hs
  exact ⟨s, h, hacquires, (permits_conserved h).1⟩

/-- A semaphore with 2^64 - 1 permits, and a call of `Release`. -/
theorem release_overflows : ¬ ∀ (initial : UInt64) (s : State Nat), (system Nat initial).Reachable s →
    s.semaphore.current_number_.toNat + s.acquires = initial.toNat + s.releases := by
  intro h
  have hrun : ∃ s, System.run next ({ semaphore := { current_number_ := 18446744073709551615 } } : State Nat)
      [.release 0 none] = some s ∧ s.semaphore.current_number_.toNat = 0 ∧ s.acquires = 0 := ⟨_, rfl, rfl, rfl⟩
  obtain ⟨s, hs, hnumber, hacquires⟩ := hrun
  have hconserved := h 18446744073709551615 s (System.reachable_of_run _ hs)
  rw [hnumber, hacquires] at hconserved
  change 0 = 18446744073709551615 + s.releases at hconserved
  omega

end Semaphore
end Condvar
end Tpcc
