import Mathlib.Algebra.Group.Nat.Defs
import Mathlib.Data.Finset.Image
import Mathlib.Data.Fintype.Basic
import Tpcc.Transition.Exclusive
import Tpcc.Transition.System

/-!
# `Condvar.ConditionVariable` — a condition variable over a 32-bit ticket

`ConditionVariable::Wait`, `NotifyOne` and `NotifyAll`, one operation at a time, for any number of threads
and any mutexes. Twist's `wait` compares and sleeps at once, and a woken thread compares again;
`notify_one` wakes one sleeper of the scheduler's choice if there is any, and a sleeper can also wake for
no reason.

`ticket_` is a `uint32_t` that counts notifications modulo 2^32. A waiter is sure to see a notification only
if not just a multiple of 2^32 of them came since its load (`comparesInTime`), and `notify_one` wakes
whoever sleeps by then, which need not be a thread that slept at the `fetch_add` (`wakesOld`).
-/

namespace Tpcc
namespace Condvar

open Transition

/-- The operation a thread does next. -/
inductive Pc (μ : Type) where
  /-- Outside the condition variable. -/
  | out
  /-- `Wait`: `ticket_.load()`. -/
  | load (mutex : μ)
  /-- `Wait`: `mutex.unlock()`. -/
  | unlock (mutex : μ) (current_ticket : UInt32)
  /-- `Wait`: `ticket_.wait(current_ticket)`, about to compare. -/
  | wait (mutex : μ) (current_ticket : UInt32)
  /-- `Wait`: asleep in `ticket_.wait(current_ticket)`. -/
  | asleep (mutex : μ) (current_ticket : UInt32)
  /-- `Wait`: `mutex.lock()`. -/
  | lock (mutex : μ)
  /-- `NotifyOne` or `NotifyAll`: `ticket_.fetch_add(1)`. -/
  | fetchAdd (all : Bool)
  /-- `NotifyOne`: `ticket_.notify_one()`. -/
  | notifyOne
  /-- `NotifyAll`: `ticket_.notify_all()`. -/
  | notifyAll
  deriving DecidableEq

namespace Pc

variable {μ : Type}

def isAsleep : Pc μ → Bool
  | .asleep _ _ => true
  | _ => false

/-- A sleeper that is woken compares again. -/
def woken : Pc μ → Pc μ
  | .asleep mutex current_ticket => .wait mutex current_ticket
  | pc => pc

end Pc

/-- `ticket_`, who holds each mutex, and where the threads are. The rest is history: `notifications` counts
    the `fetch_add`s; `loads t` is their number at the last `ticket_.load()` of thread `t`, and `calls t` the
    number of its loads, which names its call of `Wait`; `added t` is their number before its own last
    `fetch_add`, and `sleepers t` who slept then, in which call. `returnedAll` has the `added` of each
    `NotifyAll` that has returned, `returnedOne` the `sleepers` of each `NotifyOne`. -/
structure State (ι μ : Type) where
  ticket_ : UInt32 := 0
  mutexes : μ → Option ι := fun _ => none
  pc : ι → Pc μ := fun _ => .out
  notifications : Nat := 0
  loads : ι → Nat := fun _ => 0
  calls : ι → Nat := fun _ => 0
  added : ι → Nat := fun _ => 0
  sleepers : ι → Finset (ι × Nat) := fun _ => ∅
  returnedAll : List Nat := []
  returnedOne : List (Finset (ι × Nat)) := []

/-- Who takes the next step: a thread that locks or unlocks a mutex, that calls `Wait` with a mutex it holds,
    `NotifyOne` or `NotifyAll`, that does its next operation, or wakes the thread `c`; or a sleeper that
    wakes for no reason. -/
inductive Action (ι μ : Type) where
  | lock (t : ι) (m : μ)
  | unlock (t : ι) (m : μ)
  | wait (t : ι) (m : μ)
  | notify (t : ι) (all : Bool)
  | step (t : ι)
  | notifyOne (t : ι) (c : Option ι)
  | wake (t : ι)

variable {ι μ : Type} [DecidableEq ι] [Fintype ι] [DecidableEq μ]

namespace State

def setPc (s : State ι μ) (t : ι) (pc : Pc μ) : State ι μ := { s with pc := Function.update s.pc t pc }

/-- The threads asleep in `ticket_.wait`, with their calls of `Wait`. -/
def asleep (s : State ι μ) : Finset (ι × Nat) :=
  (Finset.univ.filter fun t => (s.pc t).isAsleep).image fun t => (t, s.calls t)

/-- Thread `c` wakes, if any. -/
def wakeOne (s : State ι μ) : Option ι → State ι μ
  | none => s
  | some c => s.setPc c (s.pc c).woken

end State

/-- The next operation of thread `t`. -/
def exec (s : State ι μ) (t : ι) : Option (State ι μ) :=
  match s.pc t with
  | .load m =>
      some { s.setPc t (.unlock m s.ticket_) with
        loads := Function.update s.loads t s.notifications
        calls := Function.update s.calls t (s.calls t + 1) }
  | .unlock m x => some { s.setPc t (.wait m x) with mutexes := Function.update s.mutexes m none }
  | .wait m x => some (s.setPc t (if s.ticket_ = x then .asleep m x else .lock m))
  | .lock m =>
      if s.mutexes m = none then
        some { s.setPc t .out with mutexes := Function.update s.mutexes m (some t) }
      else none
  | .fetchAdd all =>
      some { s.setPc t (if all then .notifyAll else .notifyOne) with
        ticket_ := s.ticket_ + 1
        notifications := s.notifications + 1
        added := Function.update s.added t s.notifications
        sleepers := Function.update s.sleepers t s.asleep }
  | .notifyAll =>
      some { s with
        pc := Function.update (fun i => (s.pc i).woken) t .out
        returnedAll := s.returnedAll ++ [s.added t] }
  | .out => none
  | .asleep _ _ => none
  | .notifyOne => none

def next (s : State ι μ) : Action ι μ → Option (State ι μ)
  | .lock t m =>
      if s.pc t = .out ∧ s.mutexes m = none then
        some { s with mutexes := Function.update s.mutexes m (some t) }
      else none
  | .unlock t m =>
      if s.pc t = .out ∧ s.mutexes m = some t then
        some { s with mutexes := Function.update s.mutexes m none }
      else none
  | .wait t m => if s.pc t = .out ∧ s.mutexes m = some t then some (s.setPc t (.load m)) else none
  | .notify t all => if s.pc t = .out then some (s.setPc t (.fetchAdd all)) else none
  | .step t => exec s t
  | .notifyOne t c =>
      if s.pc t = .notifyOne ∧ (c = none ∧ s.asleep = ∅ ∨ ∃ i, c = some i ∧ (s.pc i).isAsleep = true) then
        some { (s.wakeOne c).setPc t .out with returnedOne := s.returnedOne ++ [s.sleepers t] }
      else none
  | .wake t => if (s.pc t).isAsleep = true then some (s.wakeOne (some t)) else none

/-- All runs of threads `ι` with mutexes `μ` on one condition variable. -/
def system (ι μ : Type) [DecidableEq ι] [Fintype ι] [DecidableEq μ] : System (State ι μ) :=
  System.ofNext {} next

/-- The runs of actions that meet `ok`. -/
def systemIf (ι μ : Type) [DecidableEq ι] [Fintype ι] [DecidableEq μ] (ok : State ι μ → Action ι μ → Bool) :
    System (State ι μ) :=
  System.ofNextIf {} next fun s a => ok s a = true

/-! ## What a step can do -/

/-- Steps of a thread that leave the ticket alone. -/
inductive Moves : Pc μ → Pc μ → Prop where
  | stay : Moves .out .out
  | wait (m : μ) : Moves .out (.load m)
  | notify (all : Bool) : Moves .out (.fetchAdd all)
  | unlock (m : μ) (x : UInt32) : Moves (.unlock m x) (.wait m x)
  | lock (m : μ) : Moves (.lock m) .out

/-- The kinds of step. -/
inductive Stepped (s : State ι μ) : Action ι μ → State ι μ → Prop where
  | move {a : Action ι μ} (t : ι) (pc : Pc μ) (mutexes : μ → Option ι) (moves : Moves (s.pc t) pc)
      (act : ∀ i, a = .step i → i = t) :
      Stepped s a { s.setPc t pc with mutexes }
  | load (t : ι) (m : μ) (pc : s.pc t = .load m) :
      Stepped s (.step t) { s.setPc t (.unlock m s.ticket_) with
        loads := Function.update s.loads t s.notifications
        calls := Function.update s.calls t (s.calls t + 1) }
  | sleep (t : ι) (m : μ) (x : UInt32) (pc : s.pc t = .wait m x) (same : s.ticket_ = x) :
      Stepped s (.step t) (s.setPc t (.asleep m x))
  | leave (t : ι) (m : μ) (x : UInt32) (pc : s.pc t = .wait m x) (changed : s.ticket_ ≠ x) :
      Stepped s (.step t) (s.setPc t (.lock m))
  | fetchAdd (t : ι) (all : Bool) (pc : s.pc t = .fetchAdd all) :
      Stepped s (.step t) { s.setPc t (if all then .notifyAll else .notifyOne) with
        ticket_ := s.ticket_ + 1
        notifications := s.notifications + 1
        added := Function.update s.added t s.notifications
        sleepers := Function.update s.sleepers t s.asleep }
  | notifyAll (t : ι) (pc : s.pc t = .notifyAll) :
      Stepped s (.step t) { s with
        pc := Function.update (fun i => (s.pc i).woken) t .out
        returnedAll := s.returnedAll ++ [s.added t] }
  | notifyOne (t : ι) (c : Option ι) (pc : s.pc t = .notifyOne)
      (choice : c = none ∧ s.asleep = ∅ ∨ ∃ i, c = some i ∧ (s.pc i).isAsleep = true) :
      Stepped s (.notifyOne t c) { (s.wakeOne c).setPc t .out with returnedOne := s.returnedOne ++ [s.sleepers t] }
  | wake (t : ι) (asleep : (s.pc t).isAsleep = true) : Stepped s (.wake t) (s.wakeOne (some t))

omit [Fintype ι] [DecidableEq μ] in
/-- Locking or unlocking a mutex outside the condition variable moves no thread. -/
theorem setPc_self {s : State ι μ} {t : ι} (h : s.pc t = .out) : s.setPc t .out = s := by
  unfold State.setPc
  rw [← h, Function.update_eq_self]

theorem exec_stepped {s s' : State ι μ} {t : ι} (h : exec s t = some s') : Stepped s (.step t) s' := by
  unfold exec at h
  split at h
  · next m hpc =>
      obtain rfl := Option.some.inj h
      exact .load t m hpc
  · next m x hpc =>
      obtain rfl := Option.some.inj h
      exact .move t _ _ (hpc ▸ .unlock m x) fun _ ha => (Action.step.inj ha).symm
  · next m x hpc =>
      obtain rfl := Option.some.inj h
      by_cases hsame : s.ticket_ = x
      · rw [if_pos hsame]
        exact .sleep t m x hpc hsame
      · rw [if_neg hsame]
        exact .leave t m x hpc hsame
  · next m hpc =>
      simp only [Option.ite_none_right_eq_some, Option.some.injEq] at h
      obtain ⟨-, rfl⟩ := h
      exact .move t _ _ (hpc ▸ .lock m) fun _ ha => (Action.step.inj ha).symm
  · next all hpc =>
      obtain rfl := Option.some.inj h
      exact .fetchAdd t all hpc
  · next hpc =>
      obtain rfl := Option.some.inj h
      exact .notifyAll t hpc
  · cases h
  · cases h
  · cases h

theorem next_stepped {s s' : State ι μ} {a : Action ι μ} (h : next s a = some s') : Stepped s a s' := by
  cases a with
  | lock t m =>
      simp only [next, Option.ite_none_right_eq_some, Option.some.injEq] at h
      obtain ⟨⟨hpc, -⟩, rfl⟩ := h
      have hmove := Stepped.move (s := s) (a := .lock t m) t .out (Function.update s.mutexes m (some t))
        (hpc ▸ .stay) nofun
      rwa [setPc_self hpc] at hmove
  | unlock t m =>
      simp only [next, Option.ite_none_right_eq_some, Option.some.injEq] at h
      obtain ⟨⟨hpc, -⟩, rfl⟩ := h
      have hmove := Stepped.move (s := s) (a := .unlock t m) t .out (Function.update s.mutexes m none)
        (hpc ▸ .stay) nofun
      rwa [setPc_self hpc] at hmove
  | wait t m =>
      simp only [next, Option.ite_none_right_eq_some, Option.some.injEq] at h
      obtain ⟨⟨hpc, -⟩, rfl⟩ := h
      exact .move t _ s.mutexes (hpc ▸ .wait m) nofun
  | notify t all =>
      simp only [next, Option.ite_none_right_eq_some, Option.some.injEq] at h
      obtain ⟨hpc, rfl⟩ := h
      exact .move t _ s.mutexes (hpc ▸ .notify all) nofun
  | step t => exact exec_stepped h
  | notifyOne t c =>
      simp only [next, Option.ite_none_right_eq_some, Option.some.injEq] at h
      obtain ⟨⟨hpc, hchoice⟩, rfl⟩ := h
      exact .notifyOne t c hpc hchoice
  | wake t =>
      simp only [next, Option.ite_none_right_eq_some, Option.some.injEq] at h
      obtain ⟨hasleep, rfl⟩ := h
      exact .wake t hasleep

/-! ## Tickets -/

/-- What a thread in `Wait` has loaded. -/
def Pc.current_ticket : Pc μ → Option UInt32
  | .unlock _ current_ticket => some current_ticket
  | .wait _ current_ticket => some current_ticket
  | .asleep _ current_ticket => some current_ticket
  | _ => none

/-- The tickets are the history, as far as 32 bits go. -/
structure Tickets (s : State ι μ) : Prop where
  ticket : s.ticket_ = UInt32.ofNat s.notifications
  loaded : ∀ t x, (s.pc t).current_ticket = some x → x = UInt32.ofNat (s.loads t)
  loads_le : ∀ t, s.loads t ≤ s.notifications
  added_lt : ∀ t, s.pc t = .notifyAll → s.added t < s.notifications
  returned_lt : ∀ k ∈ s.returnedAll, k < s.notifications

omit [DecidableEq μ] in
theorem Pc.current_ticket_woken (pc : Pc μ) : pc.woken.current_ticket = pc.current_ticket := by
  cases pc <;> rfl

omit [DecidableEq μ] in
theorem Pc.woken_notifyAll {pc : Pc μ} (h : pc.woken = .notifyAll) : pc = .notifyAll := by
  cases pc <;> first | exact h | cases h

omit [DecidableEq μ] in
theorem Pc.isAsleep_woken (pc : Pc μ) : pc.woken.isAsleep = false := by
  cases pc <;> rfl

omit [DecidableEq μ] in
theorem Moves.current_ticket {pc pc' : Pc μ} (h : Moves pc pc') {x : UInt32} (hx : pc'.current_ticket = some x) :
    pc.current_ticket = some x := by
  cases h with
  | unlock m y => exact hx
  | stay | wait | notify | lock => cases hx

omit [DecidableEq μ] in
theorem Moves.isAsleep {pc pc' : Pc μ} (h : Moves pc pc') : pc'.isAsleep = false := by
  cases h <;> rfl

omit [DecidableEq μ] in
theorem Moves.ne_wait {pc pc' : Pc μ} (h : Moves pc pc') (m : μ) (x : UInt32) : pc ≠ .wait m x := by
  cases h <;> exact nofun

omit [DecidableEq μ] in
theorem Moves.ne_notifyAll {pc pc' : Pc μ} (h : Moves pc pc') : pc' ≠ .notifyAll := by
  cases h <;> exact nofun

omit [Fintype ι] [DecidableEq μ] in
/-- What is true of a thread after `notify_all` of thread `t`, but of none outside, is true of it woken. -/
theorem State.woken_of_notifyAll (s : State ι μ) (P : Pc μ → Prop) {t i : ι} (hout : ¬ P .out)
    (h : P (Function.update (fun i => (s.pc i).woken) t .out i)) : P (s.pc i).woken :=
  (of_update hout h).2

omit [Fintype ι] [DecidableEq μ] in
/-- A thread goes on with the ticket that it has, or with none. -/
theorem Tickets.setPc {s : State ι μ} (h : Tickets s) {t : ι} {pc : Pc μ}
    (hticket : ∀ x, pc.current_ticket = some x → (s.pc t).current_ticket = some x) (hpc : pc ≠ .notifyAll) :
    Tickets (s.setPc t pc) := by
  refine ⟨h.ticket, ?_, h.loads_le, ?_, h.returned_lt⟩
  · intro i x hx
    apply h.loaded i x
    change (Function.update s.pc t pc i).current_ticket = some x at hx
    by_cases hi : i = t
    · subst hi
      rw [Function.update_self] at hx
      exact hticket x hx
    · rwa [Function.update_of_ne hi] at hx
  · intro i hi
    exact h.added_lt i (of_update (P := fun pc : Pc μ => pc = .notifyAll) (f := s.pc) hpc hi).2

omit [Fintype ι] [DecidableEq μ] in
theorem Tickets.wakeOne {s : State ι μ} (h : Tickets s) (c : Option ι) : Tickets (s.wakeOne c) := by
  cases c with
  | none => exact h
  | some i =>
      by_cases hpc : s.pc i = .notifyAll
      · have hsame : (s.pc i).woken = s.pc i := by rw [hpc]; rfl
        show Tickets { s with pc := Function.update s.pc i (s.pc i).woken }
        rw [hsame, Function.update_eq_self]
        exact h
      · refine h.setPc (fun x hx => ?_) fun hwoken => hpc (Pc.woken_notifyAll hwoken)
        rwa [Pc.current_ticket_woken] at hx

omit [DecidableEq μ] in
theorem Tickets.stepped {s s' : State ι μ} {a : Action ι μ} (h : Tickets s) (hstep : Stepped s a s') :
    Tickets s' := by
  cases hstep with
  | move t pc mutexes moves act =>
      obtain ⟨hticket, hloaded, hloads, hadded, hreturned⟩ :=
        h.setPc (fun x hx => moves.current_ticket hx) moves.ne_notifyAll
      exact ⟨hticket, hloaded, hloads, hadded, hreturned⟩
  | load t m pc =>
      refine ⟨h.ticket, fun i x hx => ?_, fun i => ?_, fun i hi => ?_, h.returned_lt⟩
      · change (Function.update s.pc t _ i).current_ticket = some x at hx
        show x = UInt32.ofNat (Function.update s.loads t _ i)
        by_cases hi : i = t
        · subst hi
          rw [Function.update_self] at hx ⊢
          rw [← h.ticket]
          exact (Option.some.inj hx).symm
        · rw [Function.update_of_ne hi] at hx ⊢
          exact h.loaded i x hx
      · apply (Function.forall_update_iff s.loads fun _ n => n ≤ s.notifications).mpr
        exact ⟨Nat.le_refl _, fun j _ => h.loads_le j⟩
      · have hpc := of_update (P := fun pc : Pc μ => pc = .notifyAll) (f := s.pc) (x := .unlock m s.ticket_) nofun hi
        exact h.added_lt i hpc.2
  | sleep t m x pc same => exact h.setPc (fun y hy => by rw [pc]; exact hy) nofun
  | leave t m x pc changed => exact h.setPc nofun nofun
  | fetchAdd t all pc =>
      refine ⟨?_, fun i x hx => h.loaded i x ?_, fun i => Nat.le_succ_of_le (h.loads_le i), fun i hi => ?_,
        fun k hk => Nat.lt_succ_of_lt (h.returned_lt k hk)⟩
      · show s.ticket_ + 1 = UInt32.ofNat (s.notifications + 1)
        rw [h.ticket, UInt32.ofNat_add]
        rfl
      · refine (of_update (P := fun pc : Pc μ => pc.current_ticket = some x) (f := s.pc) (i := t) ?_ hx).2
        cases all <;> exact nofun
      · -- the `fetch_add` itself comes after what was there
        change Function.update s.pc t _ i = .notifyAll at hi
        show Function.update s.added t _ i < s.notifications + 1
        by_cases hit : i = t
        · subst hit
          rw [Function.update_self]
          exact Nat.lt_succ_self _
        · rw [Function.update_of_ne hit] at hi ⊢
          exact Nat.lt_succ_of_lt (h.added_lt i hi)
  | notifyAll t pc =>
      refine ⟨h.ticket, fun i x hx => h.loaded i x ?_, h.loads_le, fun i hi => ?_, fun k hk => ?_⟩
      · have hwoken := s.woken_of_notifyAll (fun pc => pc.current_ticket = some x) nofun hx
        rwa [Pc.current_ticket_woken] at hwoken
      · have hwoken := s.woken_of_notifyAll (fun pc => pc = .notifyAll) nofun hi
        exact h.added_lt i (Pc.woken_notifyAll hwoken)
      · rcases List.mem_append.mp hk with hk | hk
        · exact h.returned_lt k hk
        · rw [List.mem_singleton.mp hk]
          exact h.added_lt t pc
  | notifyOne t c pc choice =>
      obtain ⟨hticket, hloaded, hloads, hadded, hreturned⟩ : Tickets (State.setPc _ t .out) :=
        (h.wakeOne c).setPc nofun nofun
      exact ⟨hticket, hloaded, hloads, hadded, hreturned⟩
  | wake t asleep => exact h.wakeOne (some t)

omit [DecidableEq ι] [Fintype ι] [DecidableEq μ] in
theorem tickets_init : Tickets ({} : State ι μ) := ⟨rfl, nofun, fun _ => Nat.le_refl 0, nofun, nofun⟩

theorem reachable_tickets {s : State ι μ} (h : (system ι μ).Reachable s) : Tickets s :=
  h.invariant_next tickets_init fun _ _ _ hs hnext => hs.stepped (next_stepped hnext)

/-- Two moments show the same ticket if a multiple of 2^32 notifications came in between. -/
theorem ofNat_eq_iff {a b : Nat} (h : a ≤ b) : UInt32.ofNat b = UInt32.ofNat a ↔ 2 ^ 32 ∣ b - a := by
  rw [← UInt32.toNat_inj, UInt32.toNat_ofNat', UInt32.toNat_ofNat']
  omega

/-! ## `NotifyAll` -/

/-- No thread that loaded its ticket before the `fetch_add` of a `NotifyAll` that has returned is asleep. -/
def State.AllReleased (s : State ι μ) : Prop :=
  ∀ k ∈ s.returnedAll, ∀ t, s.loads t ≤ k → (s.pc t).isAsleep = false

/-- No thread compares just when a multiple of 2^32 notifications came since its load, with that of a
    `NotifyAll` that has returned among them. -/
def comparesInTime (s : State ι μ) : Action ι μ → Bool
  | .step t =>
      match s.pc t with
      | .wait _ _ => !decide (2 ^ 32 ∣ s.notifications - s.loads t) || s.returnedAll.all (· < s.loads t)
      | _ => true
  | _ => true

omit [Fintype ι] [DecidableEq μ] in
theorem AllReleased.setPc {s : State ι μ} (h : s.AllReleased) (t : ι) {pc : Pc μ} (hpc : pc.isAsleep = false) :
    (s.setPc t pc).AllReleased := by
  intro k hk
  apply (Function.forall_update_iff s.pc fun i pc => s.loads i ≤ k → pc.isAsleep = false).mpr
  exact ⟨fun _ => hpc, fun i _ hi => h k hk i hi⟩

omit [Fintype ι] [DecidableEq μ] in
/-- A thread may sleep exactly if it loaded after each `fetch_add` of a `NotifyAll` that has returned. -/
theorem AllReleased.setPc_iff {s : State ι μ} (h : s.AllReleased) (t : ι) {pc : Pc μ} (hpc : pc.isAsleep = true) :
    (s.setPc t pc).AllReleased ↔ ∀ k ∈ s.returnedAll, k < s.loads t := by
  constructor
  · intro hkept k hk
    by_contra hle
    have hawake := hkept k hk t (Nat.le_of_not_lt hle)
    change (Function.update s.pc t pc t).isAsleep = false at hawake
    rw [Function.update_self, hpc] at hawake
    cases hawake
  · intro hlater k hk
    apply (Function.forall_update_iff s.pc fun i pc => s.loads i ≤ k → pc.isAsleep = false).mpr
    exact ⟨fun hle => absurd hle (Nat.not_le_of_lt (hlater k hk)), fun i _ hi => h k hk i hi⟩

omit [DecidableEq ι] [Fintype ι] [DecidableEq μ] in
/-- The ticket is that of the load exactly if a multiple of 2^32 notifications came since. -/
theorem Tickets.dvd_iff {s : State ι μ} (h : Tickets s) {t : ι} {m : μ} {x : UInt32} (pc : s.pc t = .wait m x) :
    2 ^ 32 ∣ s.notifications - s.loads t ↔ s.ticket_ = x := by
  have hloaded := h.loaded t x (by rw [pc]; rfl)
  rw [← ofNat_eq_iff (h.loads_le t), ← h.ticket, hloaded]

omit [DecidableEq ι] [Fintype ι] [DecidableEq μ] in
theorem comparesInTime_of_pc {s : State ι μ} {t : ι} (h : ∀ m x, s.pc t ≠ .wait m x) :
    comparesInTime s (.step t) = true := by
  cases hpc : s.pc t with
  | wait m x => exact absurd hpc (h m x)
  | out | load | unlock | asleep | lock | fetchAdd | notifyOne | notifyAll => simp only [comparesInTime, hpc]

omit [DecidableEq μ] in
/-- **A step keeps it exactly if it compares in time.** -/
theorem AllReleased.stepped_iff {s s' : State ι μ} {a : Action ι μ} (ht : Tickets s) (h : s.AllReleased)
    (hstep : Stepped s a s') : s'.AllReleased ↔ comparesInTime s a = true := by
  cases hstep with
  | @move a t pc mutexes moves act =>
      have hkept : (s.setPc t pc).AllReleased := AllReleased.setPc h t moves.isAsleep
      refine iff_of_true hkept ?_
      cases a with
      | step i =>
          obtain rfl := act i rfl
          exact comparesInTime_of_pc moves.ne_wait
      | lock | unlock | wait | notify | notifyOne | wake => rfl
  | load t m pc =>
      -- the thread that loads is awake, whatever its number of the load
      refine iff_of_true (fun k hk i hi => ?_) (comparesInTime_of_pc (by simp [pc]))
      change Function.update s.loads t _ i ≤ k at hi
      show (Function.update s.pc t _ i).isAsleep = false
      by_cases hit : i = t
      · subst hit
        rw [Function.update_self]
        rfl
      · rw [Function.update_of_ne hit] at hi ⊢
        exact h k hk i hi
  | sleep t m x pc same =>
      -- the ticket is that of the load
      have hdvd : 2 ^ 32 ∣ s.notifications - s.loads t := (ht.dvd_iff pc).mpr same
      have hcond : comparesInTime s (.step t) = s.returnedAll.all (· < s.loads t) := by
        simp only [comparesInTime, pc, hdvd, decide_true, Bool.not_true, Bool.false_or]
      rw [hcond, List.all_eq_true]
      refine (AllReleased.setPc_iff h t rfl).trans (forall₂_congr fun k _ => ?_)
      exact decide_eq_true_iff.symm
  | leave t m x pc changed =>
      -- a changed ticket means that the comparison is in time
      refine iff_of_true (AllReleased.setPc h t rfl) ?_
      have hdvd : ¬ 2 ^ 32 ∣ s.notifications - s.loads t := mt (ht.dvd_iff pc).mp changed
      simp only [comparesInTime, pc, hdvd, decide_false, Bool.not_false, Bool.true_or]
  | fetchAdd t all pc =>
      have hkept : (s.setPc t (if all then .notifyAll else .notifyOne)).AllReleased :=
        AllReleased.setPc h t (by cases all <;> rfl)
      exact iff_of_true hkept (comparesInTime_of_pc (by simp [pc]))
  | notifyAll t pc =>
      refine iff_of_true (fun k _ i _ => ?_) (comparesInTime_of_pc (by simp [pc]))
      show (Function.update (fun i => (s.pc i).woken) t .out i).isAsleep = false
      by_cases hit : i = t
      · subst hit
        rw [Function.update_self]
        rfl
      · rw [Function.update_of_ne hit]
        exact Pc.isAsleep_woken _
  | notifyOne t c pc choice =>
      have hkept : ((s.wakeOne c).setPc t .out).AllReleased := by
        refine AllReleased.setPc ?_ t rfl
        cases c with
        | none => exact h
        | some i => exact AllReleased.setPc h i (Pc.isAsleep_woken _)
      exact iff_of_true hkept rfl
  | wake t asleep => exact iff_of_true (AllReleased.setPc h t (Pc.isAsleep_woken _)) rfl

/-- **`NotifyAll` releases every earlier waiter**, in every run in which no thread compares just when a multiple
    of 2^32 notifications came since its load, a returned `NotifyAll` among them; and from any state reached
    where it holds, a step keeps it only if it compares in time. -/
theorem notifyAll_releases (ι μ : Type) [DecidableEq ι] [Fintype ι] [DecidableEq μ] :
    (∀ s : State ι μ, (systemIf ι μ comparesInTime).Reachable s → s.AllReleased) ∧
      ∀ (s s' : State ι μ) (a : Action ι μ), (system ι μ).Reachable s → s.AllReleased →
        next s a = some s' → (s'.AllReleased ↔ comparesInTime s a = true) := by
  constructor
  · intro s hs
    have hboth : Tickets s ∧ s.AllReleased := by
      refine hs.invariant (P := fun s => Tickets s ∧ s.AllReleased) ?_ ?_
      · rintro s rfl
        exact ⟨tickets_init, nofun⟩
      · rintro s s' ⟨ht, h⟩ ⟨a, hok, hnext⟩
        have hstep := next_stepped hnext
        exact ⟨ht.stepped hstep, (AllReleased.stepped_iff ht h hstep).mpr hok⟩
    exact hboth.2
  · intro s s' a hs h hnext
    exact AllReleased.stepped_iff (reachable_tickets hs) h (next_stepped hnext)

/-- Thread 0 sleeps in `Wait`, and thread 1 calls `NotifyAll`. -/
def notified : List (Action (Fin 2) Unit) :=
  [.lock 0 (), .wait 0 (), .step 0, .step 0, .step 0, .notify 1 true, .step 1, .step 1, .step 0]

theorem notifyAll_releases_one : ∃ s : State (Fin 2) Unit, (systemIf (Fin 2) Unit comparesInTime).Reachable s ∧
    s.returnedAll = [0] ∧ s.pc 0 = .lock () ∧ s.AllReleased := by
  have hrun : ∃ s, System.runWhile comparesInTime next ({} : State (Fin 2) Unit) notified = some s ∧
      s.returnedAll = [0] ∧ s.pc 0 = .lock () := ⟨_, rfl, rfl, rfl⟩
  obtain ⟨s, hs, hreturned, hpc⟩ := hrun
  have hreach : (systemIf (Fin 2) Unit comparesInTime).Reachable s :=
    ⟨_, rfl, System.steps_of_runWhile (fun _ _ hok => hok) hs⟩
  exact ⟨s, hreach, hreturned, hpc, (notifyAll_releases (Fin 2) Unit).1 s hreach⟩

/-- A call of `NotifyAll` while nobody sleeps. -/
theorem notifyAll_round {s : State ι μ} {t : ι} (hout : s.pc t = .out) (hawake : ∀ i, (s.pc i).isAsleep = false) :
    ∃ s', (system ι μ).Steps s s' ∧ s'.pc = s.pc ∧ s'.loads = s.loads ∧ s'.ticket_ = s.ticket_ + 1 ∧
      s'.notifications = s.notifications + 1 ∧ s'.returnedAll = s.returnedAll ++ [s.notifications] := by
  have hrun : ∃ s', System.run next s [.notify t true, .step t, .step t] = some s' ∧
      s'.pc = Function.update (fun i => (Function.update s.pc t Pc.notifyAll i).woken) t .out ∧
        s'.loads = s.loads ∧ s'.ticket_ = s.ticket_ + 1 ∧ s'.notifications = s.notifications + 1 ∧
          s'.returnedAll = s.returnedAll ++ [s.notifications] := by
    simp [System.run, next, exec, hout, State.setPc]
  obtain ⟨s', hs', hpc, hrest⟩ := hrun
  refine ⟨s', System.steps_of_run hs', ?_, hrest⟩
  rw [hpc]
  funext i
  by_cases hi : i = t
  · subst hi
    rw [Function.update_self, hout]
  · have hwoken : (s.pc i).woken = s.pc i := by
      have hi' := hawake i
      cases hpc : s.pc i with
      | asleep m x =>
          rw [hpc] at hi'
          cases hi'
      | out | load | unlock | wait | lock | fetchAdd | notifyOne | notifyAll => rfl
    rw [Function.update_of_ne hi, Function.update_of_ne hi, hwoken]

/-- As many calls of `NotifyAll` as one likes, while nobody sleeps. -/
theorem notifyAll_rounds {s : State ι μ} {t : ι} (hout : s.pc t = .out) (hawake : ∀ i, (s.pc i).isAsleep = false)
    (n : Nat) : ∃ s', (system ι μ).Steps s s' ∧ s'.pc = s.pc ∧ s'.loads = s.loads ∧
      s'.ticket_ = s.ticket_ + UInt32.ofNat n ∧ s'.notifications = s.notifications + n ∧
        (0 < n → s.notifications ∈ s'.returnedAll) := by
  induction n with
  | zero => exact ⟨s, System.Steps.refl, rfl, rfl, (UInt32.add_zero _).symm, rfl, nofun⟩
  | succ n ih =>
      obtain ⟨s₁, hsteps, hpc, hloads, hticket, hcount, hreturned⟩ := ih
      obtain ⟨s₂, hsteps₂, hpc₂, hloads₂, hticket₂, hcount₂, hreturned₂⟩ :=
        notifyAll_round (s := s₁) (t := t) (by rw [hpc, hout]) (by rw [hpc]; exact hawake)
      refine ⟨s₂, hsteps.trans hsteps₂, hpc₂.trans hpc, hloads₂.trans hloads, ?_, ?_, fun _ => ?_⟩
      · rw [hticket₂, hticket, UInt32.ofNat_add, UInt32.add_assoc]
        rfl
      · rw [hcount₂, hcount, Nat.add_assoc]
      · rw [hreturned₂, List.mem_append, List.mem_singleton]
        rcases Nat.eq_zero_or_pos n with rfl | hpos
        · exact .inr hcount.symm
        · exact .inl (hreturned hpos)

/-- Thread 0 is about to compare. -/
def loaded : List (Action (Fin 2) Unit) := [.lock 0 (), .wait 0 (), .step 0, .step 0]

/-- Then thread 1 calls `NotifyAll` 2^32 times, and thread 0 falls asleep. -/
theorem notifyAll_wraps : ¬ ∀ s : State (Fin 2) Unit, (system (Fin 2) Unit).Reachable s → s.AllReleased := by
  intro h
  have hrun : ∃ s, System.run next ({} : State (Fin 2) Unit) loaded = some s ∧ s.pc 0 = .wait () 0 ∧
      s.pc 1 = .out ∧ s.loads 0 = 0 ∧ s.ticket_ = 0 := ⟨_, rfl, rfl, rfl, rfl, rfl⟩
  obtain ⟨s, hs, hwait, hout, hloads, hticket⟩ := hrun
  have hawake : ∀ i, (s.pc i).isAsleep = false := by
    intro i
    match i with
    | 0 => rw [hwait]; rfl
    | 1 => rw [hout]; rfl
  obtain ⟨s₁, hsteps, hpc₁, hloads₁, hticket₁, -, hreturned⟩ :=
    notifyAll_rounds hout hawake (2 ^ 32)
  have hzero : s₁.ticket_ = 0 := by
    rw [hticket₁, hticket]
    rfl
  have hsleep : next s₁ (.step 0) = some (s₁.setPc 0 (.asleep () 0)) := by
    simp only [next, exec, hpc₁, hwait, hzero, if_true]
  have hreach : (system (Fin 2) Unit).Reachable (s₁.setPc 0 (.asleep () 0)) :=
    ((System.reachable_of_run _ hs).steps hsteps).step ⟨.step 0, hsleep⟩
  have hreleased := h _ hreach s.notifications (hreturned (by decide)) 0 (by
    show s₁.loads 0 ≤ s.notifications
    rw [hloads₁, hloads]
    exact Nat.zero_le _)
  cases hreleased

/-! ## `NotifyOne` -/

namespace State

/-- Thread `p.1` is asleep in its call `p.2` of `Wait`. -/
def AsleepIn (s : State ι μ) (p : ι × Nat) : Prop := s.calls p.1 = p.2 ∧ (s.pc p.1).isAsleep = true

/-- Thread `p.1` is past its load in call `p.2`, and a notification came since; or it has left the call. -/
def Outdated (s : State ι μ) (p : ι × Nat) : Prop :=
  p.2 ≤ s.calls p.1 ∧ (s.calls p.1 = p.2 → (∀ m x, s.pc p.1 ≠ .unlock m x) ∧ s.loads p.1 < s.notifications)

/-- Thread `p.1` has left its call `p.2` of `Wait`, or is woken and will find its ticket changed. -/
def Released (s : State ι μ) (p : ι × Nat) : Prop :=
  s.calls p.1 = p.2 →
    match s.pc p.1 with
    | .unlock _ _ => False
    | .wait _ x => x ≠ s.ticket_
    | .asleep _ _ => False
    | _ => True

/-- A thread that slept at the `fetch_add` of each `NotifyOne` that has returned is released, if one did. -/
def OneReleased (s : State ι μ) : Prop := ∀ S ∈ s.returnedOne, S.Nonempty → ∃ p ∈ S, s.Released p

/-- When `NotifyOne` of thread `t` calls `notify_one`, nobody slept at its `fetch_add`, or somebody who did is
    awake, or nobody else is asleep. -/
def WakesOld (s : State ι μ) (t : ι) : Prop :=
  s.sleepers t = ∅ ∨ (∃ p ∈ s.sleepers t, p ∉ s.asleep) ∨ s.asleep ⊆ s.sleepers t

instance (s : State ι μ) (t : ι) : Decidable (s.WakesOld t) := inferInstanceAs (Decidable (_ ∨ _ ∨ _))

end State

/-- No other thread has fallen asleep between the `fetch_add` and the `notify_one` of a `NotifyOne`. -/
def wakesOld (s : State ι μ) : Action ι μ → Bool
  | .notifyOne t _ => decide (s.WakesOld t)
  | _ => true

omit [DecidableEq μ] in
theorem State.mem_asleep {s : State ι μ} {p : ι × Nat} : p ∈ s.asleep ↔ s.AsleepIn p := by
  obtain ⟨i, n⟩ := p
  simp only [asleep, AsleepIn, Finset.mem_image, Finset.mem_filter, Finset.mem_univ, true_and, Prod.mk.injEq]
  constructor
  · rintro ⟨j, hj, rfl, hn⟩
    exact ⟨hn, hj⟩
  · rintro ⟨hn, hi⟩
    exact ⟨i, hi, rfl, hn⟩

omit [DecidableEq ι] [Fintype ι] [DecidableEq μ] in
/-- **In fewer than 2^32 notifications**, whoever is awake in an outdated call leaves it. -/
theorem State.Outdated.released_iff {s : State ι μ} {p : ι × Nat} (ho : s.Outdated p) (ht : Tickets s)
    (hfew : s.notifications < 2 ^ 32) : s.Released p ↔ ¬ s.AsleepIn p := by
  constructor
  · rintro hreleased ⟨hcall, hasleep⟩
    have hpc := hreleased hcall
    cases hp : s.pc p.1 with
    | asleep m x =>
        rw [hp] at hpc
        exact hpc
    | out | load | unlock | wait | lock | fetchAdd | notifyOne | notifyAll =>
        rw [hp] at hasleep
        cases hasleep
  · intro hawake hcall
    obtain ⟨hunlock, hlt⟩ := ho.2 hcall
    cases hp : s.pc p.1 with
    | unlock m x => exact hunlock m x hp
    | asleep m x => exact hawake ⟨hcall, by rw [hp]; rfl⟩
    | wait m x =>
        -- fewer than 2^32 notifications cannot show the same ticket again
        rintro rfl
        have hsame := (ht.dvd_iff hp).mpr rfl
        exact absurd (Nat.le_of_dvd (Nat.sub_pos_of_lt hlt) hsame) (by omega)
    | out | load | lock | fetchAdd | notifyOne | notifyAll => trivial

omit [DecidableEq ι] [Fintype ι] [DecidableEq μ] in
theorem State.Outdated.mono {s s' : State ι μ} {p : ι × Nat} (h : s.Outdated p) (hcalls : s'.calls = s.calls)
    (hloads : s'.loads = s.loads) (hle : s.notifications ≤ s'.notifications)
    (hpc : ∀ m x, s'.pc p.1 = .unlock m x → s.pc p.1 = .unlock m x) : s'.Outdated p := by
  unfold Outdated
  rw [hcalls, hloads]
  refine ⟨h.1, fun hcall => ?_⟩
  obtain ⟨hunlock, hlt⟩ := h.2 hcall
  exact ⟨fun m x hunlock' => hunlock m x (hpc m x hunlock'), Nat.lt_of_lt_of_le hlt hle⟩

omit [DecidableEq μ] [Fintype ι] in
/-- A thread goes on, and not to `mutex.unlock()`. -/
theorem State.Outdated.setPc {s : State ι μ} {p : ι × Nat} (h : s.Outdated p) (t : ι) {pc : Pc μ}
    (hpc : ∀ m x, pc ≠ .unlock m x) : (s.setPc t pc).Outdated p := by
  refine h.mono rfl rfl (Nat.le_refl _) fun m x hx => ?_
  exact (of_update (P := fun pc : Pc μ => pc = .unlock m x) (f := s.pc) (hpc m x) hx).2

omit [DecidableEq μ] in
theorem Pc.woken_unlock {pc : Pc μ} {m : μ} {x : UInt32} (h : pc.woken = .unlock m x) : pc = .unlock m x := by
  cases pc <;> first | exact h | cases h

omit [DecidableEq μ] [Fintype ι] in
theorem State.Outdated.wakeOne {s : State ι μ} {p : ι × Nat} (h : s.Outdated p) (c : Option ι) :
    (s.wakeOne c).Outdated p := by
  cases c with
  | none => exact h
  | some i =>
      refine h.mono rfl rfl (Nat.le_refl _) fun m x hx => ?_
      change Function.update s.pc i (s.pc i).woken p.1 = .unlock m x at hx
      by_cases hi : p.1 = i
      · rw [hi, Function.update_self] at hx
        rw [hi]
        exact Pc.woken_unlock hx
      · rwa [Function.update_of_ne hi] at hx

omit [DecidableEq μ] in
theorem Moves.ne_unlock {pc pc' : Pc μ} (h : Moves pc pc') (m : μ) (x : UInt32) : pc' ≠ .unlock m x := by
  cases h <;> exact nofun

omit [DecidableEq μ] in
theorem State.Outdated.stepped {s s' : State ι μ} {a : Action ι μ} {p : ι × Nat} (h : s.Outdated p)
    (hstep : Stepped s a s') : s'.Outdated p := by
  cases hstep with
  | move t pc mutexes moves act => exact h.setPc t moves.ne_unlock
  | load t m pc =>
      by_cases hi : p.1 = t
      · -- a new call
        have hlt : p.2 < s.calls t + 1 := Nat.lt_succ_of_le (hi ▸ h.1)
        unfold Outdated
        simp only [hi, Function.update_self]
        exact ⟨Nat.le_of_lt hlt, fun hcall => absurd hcall (Nat.ne_of_gt hlt)⟩
      · unfold Outdated State.setPc
        simp only [Function.update_of_ne hi]
        exact h
  | sleep t m x pc same => exact h.setPc t nofun
  | leave t m x pc changed => exact h.setPc t nofun
  | fetchAdd t all pc =>
      have hpc : ∀ m x, (if all then Pc.notifyAll else .notifyOne : Pc μ) ≠ .unlock m x := by
        cases all <;> exact nofun
      exact (h.setPc t hpc).mono rfl rfl (Nat.le_succ _) fun _ _ => id
  | notifyAll t pc =>
      refine h.mono rfl rfl (Nat.le_refl _) fun m x hx => ?_
      exact Pc.woken_unlock (s.woken_of_notifyAll (fun pc => pc = .unlock m x) nofun hx)
  | notifyOne t c pc choice => exact (h.wakeOne c).setPc t nofun
  | wake t asleep => exact h.wakeOne (some t)

omit [DecidableEq μ] [Fintype ι] in
theorem State.AsleepIn.of_setPc {s : State ι μ} {p : ι × Nat} {t : ι} {pc : Pc μ} (hpc : pc.isAsleep = false)
    (h : (s.setPc t pc).AsleepIn p) : p.1 ≠ t ∧ s.AsleepIn p := by
  obtain ⟨hcall, hasleep⟩ := h
  have hnot : ¬ pc.isAsleep = true := Bool.not_eq_true _ ▸ hpc
  obtain ⟨hi, hasleep⟩ := of_update (P := fun pc : Pc μ => pc.isAsleep = true) (f := s.pc) hnot hasleep
  exact ⟨hi, hcall, hasleep⟩

omit [DecidableEq μ] in
/-- Who falls asleep has compared just then. -/
theorem State.AsleepIn.of_stepped {s s' : State ι μ} {a : Action ι μ} {p : ι × Nat} (hstep : Stepped s a s')
    (h : s'.AsleepIn p) : s.AsleepIn p ∨ s.calls p.1 = p.2 ∧ ∃ m, s.pc p.1 = .wait m s.ticket_ := by
  cases hstep with
  | move t pc mutexes moves act => exact .inl (h.of_setPc moves.isAsleep).2
  | load t m pc =>
      obtain ⟨hcall, hasleep⟩ := h
      change (Function.update s.pc t _ p.1).isAsleep = true at hasleep
      change Function.update s.calls t _ p.1 = p.2 at hcall
      by_cases hi : p.1 = t
      · rw [hi, Function.update_self] at hasleep
        cases hasleep
      · rw [Function.update_of_ne hi] at hasleep hcall
        exact .inl ⟨hcall, hasleep⟩
  | sleep t m x pc same =>
      obtain ⟨hcall, hasleep⟩ := h
      change (Function.update s.pc t _ p.1).isAsleep = true at hasleep
      by_cases hi : p.1 = t
      · -- the one step that puts a thread to sleep
        exact .inr ⟨hcall, m, by rw [hi, pc, same]⟩
      · rw [Function.update_of_ne hi] at hasleep
        exact .inl ⟨hcall, hasleep⟩
  | leave t m x pc changed => exact .inl (h.of_setPc rfl).2
  | fetchAdd t all pc => exact .inl (h.of_setPc (by cases all <;> rfl)).2
  | notifyAll t pc =>
      have hasleep := s.woken_of_notifyAll (fun pc => pc.isAsleep = true) nofun h.2
      rw [Pc.isAsleep_woken] at hasleep
      cases hasleep
  | notifyOne t c pc choice =>
      have hwoken : (s.wakeOne c).AsleepIn p := (h.of_setPc rfl).2
      cases c with
      | none => exact .inl hwoken
      | some i => exact .inl (hwoken.of_setPc (Pc.isAsleep_woken _)).2
  | wake t asleep => exact .inl (h.of_setPc (Pc.isAsleep_woken _)).2

omit [DecidableEq μ] in
theorem Stepped.notifications_le {s s' : State ι μ} {a : Action ι μ} (hstep : Stepped s a s') :
    s.notifications ≤ s'.notifications := by
  cases hstep with
  | fetchAdd => exact Nat.le_succ _
  | move | load | sleep | leave | notifyAll | wake => exact Nat.le_refl _
  | notifyOne t c pc choice => cases c <;> exact Nat.le_refl _

omit [DecidableEq μ] in
/-- A released thread stays released. -/
theorem State.Released.stepped {s s' : State ι μ} {a : Action ι μ} {p : ι × Nat} (h : s.Released p) (ht : Tickets s)
    (ho : s.Outdated p) (hfew : s'.notifications < 2 ^ 32) (hstep : Stepped s a s') : s'.Released p := by
  rw [(ho.stepped hstep).released_iff (ht.stepped hstep) hfew]
  intro hasleep
  rcases hasleep.of_stepped hstep with hasleep | ⟨hcall, m, hpc⟩
  · exact (ho.released_iff ht (Nat.lt_of_le_of_lt hstep.notifications_le hfew)).mp h hasleep
  · have hleaves := h hcall
    rw [hpc] at hleaves
    exact hleaves rfl

/-- Whoever is recorded as a sleeper is outdated by now. -/
structure Recorded (s : State ι μ) : Prop where
  sleepers : ∀ t, ∀ p ∈ s.sleepers t, s.Outdated p
  returned : ∀ S ∈ s.returnedOne, ∀ p ∈ S, s.Outdated p

omit [DecidableEq ι] [Fintype ι] [DecidableEq μ] in
/-- The sleepers at a `fetch_add` are outdated after it. -/
theorem outdated_of_asleep {s : State ι μ} (ht : Tickets s) {p : ι × Nat} (h : s.AsleepIn p) {s' : State ι μ}
    (hcalls : s'.calls = s.calls) (hloads : s'.loads = s.loads) (hpc : s'.pc p.1 = s.pc p.1)
    (hcount : s'.notifications = s.notifications + 1) : s'.Outdated p := by
  obtain ⟨hcall, hasleep⟩ := h
  unfold State.Outdated
  rw [hcalls, hloads, hcount, hpc]
  refine ⟨Nat.le_of_eq hcall.symm, fun _ => ⟨fun m x hunlock => ?_, Nat.lt_succ_of_le (ht.loads_le p.1)⟩⟩
  rw [hunlock] at hasleep
  cases hasleep

omit [DecidableEq μ] in
theorem Recorded.stepped {s s' : State ι μ} {a : Action ι μ} (h : Recorded s) (ht : Tickets s)
    (hstep : Stepped s a s') : Recorded s' := by
  have hkept : ∀ {p}, s.Outdated p → s'.Outdated p := fun ho => ho.stepped hstep
  cases hstep with
  | move | load | sleep | leave | notifyAll | wake =>
      exact ⟨fun t p hp => hkept (h.sleepers t p hp), fun S hS p hp => hkept (h.returned S hS p hp)⟩
  | fetchAdd t all pc =>
      refine ⟨fun i p hp => ?_, fun S hS p hp => hkept (h.returned S hS p hp)⟩
      change p ∈ Function.update s.sleepers t s.asleep i at hp
      by_cases hi : i = t
      · rw [hi, Function.update_self] at hp
        have hasleep := State.mem_asleep.mp hp
        refine outdated_of_asleep ht hasleep rfl rfl ?_ rfl
        refine Function.update_of_ne ?_ _ _
        intro hpt
        rw [State.AsleepIn, hpt, pc] at hasleep
        cases hasleep.2
      · rw [Function.update_of_ne hi] at hp
        exact hkept (h.sleepers i p hp)
  | notifyOne t c pc choice =>
      have hsleepers : ((s.wakeOne c).setPc t .out).sleepers = s.sleepers := by cases c <;> rfl
      refine ⟨fun i p hp => hkept (h.sleepers i p (hsleepers ▸ hp)), fun S hS p hp => hkept ?_⟩
      rcases List.mem_append.mp hS with hS | hS
      · exact h.returned S hS p hp
      · rw [List.mem_singleton.mp hS] at hp
        exact h.sleepers t p hp

/-- What `notify_one` leaves asleep. -/
theorem asleepIn_notifyOne {s s' : State ι μ} {t : ι} {c : Option ι} {p : ι × Nat}
    (hnext : next s (.notifyOne t c) = some s') : s'.AsleepIn p ↔ s.AsleepIn p ∧ c ≠ some p.1 := by
  simp only [next, Option.ite_none_right_eq_some, Option.some.injEq] at hnext
  obtain ⟨⟨hpc, -⟩, rfl⟩ := hnext
  constructor
  · intro h
    have hwoken : (s.wakeOne c).AsleepIn p := (State.AsleepIn.of_setPc rfl h).2
    cases c with
    | none => exact ⟨hwoken, nofun⟩
    | some i =>
        obtain ⟨hi, hasleep⟩ := hwoken.of_setPc (Pc.isAsleep_woken _)
        exact ⟨hasleep, fun heq => hi (Option.some.inj heq).symm⟩
  · rintro ⟨⟨hcall, hasleep⟩, hc⟩
    have ht : p.1 ≠ t := by
      rintro rfl
      rw [hpc] at hasleep
      cases hasleep
    cases c with
    | none =>
        refine ⟨hcall, ?_⟩
        show (Function.update s.pc t .out p.1).isAsleep = true
        rwa [Function.update_of_ne ht]
    | some i =>
        refine ⟨hcall, ?_⟩
        show (Function.update (Function.update s.pc i _) t .out p.1).isAsleep = true
        rwa [Function.update_of_ne ht, Function.update_of_ne fun heq => hc (by rw [heq])]

omit [DecidableEq μ] in
theorem WakesOld.of_ne {s : State ι μ} {t : ι} (h : s.WakesOld t) (hne : (s.sleepers t).Nonempty) :
    (∃ p ∈ s.sleepers t, ¬ s.AsleepIn p) ∨ s.asleep ⊆ s.sleepers t := by
  rcases h with hempty | ⟨p, hp, hawake⟩ | hsub
  · rw [hempty] at hne
    exact absurd hne Finset.not_nonempty_empty
  · exact .inl ⟨p, hp, fun hasleep => hawake (State.mem_asleep.mpr hasleep)⟩
  · exact .inr hsub

/-- **What `NotifyOne` does**: whoever `notify_one` wakes, a thread that slept at the `fetch_add` is released,
    exactly if no other thread has fallen asleep since. -/
theorem released_iff_wakesOld {s : State ι μ} {t : ι} (ht : Tickets s) (hr : Recorded s)
    (hfew : s.notifications < 2 ^ 32) (hpc : s.pc t = .notifyOne) :
    (∀ c s', next s (.notifyOne t c) = some s' → (s.sleepers t).Nonempty → ∃ p ∈ s.sleepers t, s'.Released p) ↔
      s.WakesOld t := by
  have hiff : ∀ {c s'}, next s (.notifyOne t c) = some s' → ∀ p ∈ s.sleepers t,
      (s'.Released p ↔ ¬ (s.AsleepIn p ∧ c ≠ some p.1)) := by
    intro c s' hnext p hp
    have hstep := next_stepped hnext
    have hfew' : s'.notifications < 2 ^ 32 := by
      simp only [next, Option.ite_none_right_eq_some, Option.some.injEq] at hnext
      obtain ⟨-, rfl⟩ := hnext
      cases c <;> exact hfew
    rw [((hr.sleepers t p hp).stepped hstep).released_iff (ht.stepped hstep) hfew', asleepIn_notifyOne hnext]
  constructor
  · intro h
    by_contra hnot
    obtain ⟨hne, hall, hsub⟩ : s.sleepers t ≠ ∅ ∧ (∀ p ∈ s.sleepers t, p ∈ s.asleep) ∧
        ¬ s.asleep ⊆ s.sleepers t := by
      simp only [State.WakesOld, not_or, not_exists, not_and, not_not] at hnot
      exact hnot
    -- the scheduler wakes a thread that has fallen asleep since
    obtain ⟨q, hq, hnew⟩ := Finset.not_subset.mp hsub
    have hasleep := State.mem_asleep.mp hq
    have hnext : ∃ s', next s (.notifyOne t (some q.1)) = some s' :=
      ⟨_, if_pos ⟨hpc, .inr ⟨q.1, rfl, hasleep.2⟩⟩⟩
    obtain ⟨s', hnext⟩ := hnext
    obtain ⟨p, hp, hreleased⟩ := h _ s' hnext (Finset.nonempty_iff_ne_empty.mpr hne)
    have hold := State.mem_asleep.mp (hall p hp)
    refine (hiff hnext p hp).mp hreleased ⟨hold, fun heq => hnew ?_⟩
    have hqp : q = p := Prod.ext (Option.some.inj heq)
      (by rw [← hasleep.1, ← hold.1, Option.some.inj heq])
    rwa [hqp]
  · intro h c s' hnext hne
    rcases WakesOld.of_ne h hne with ⟨p, hp, hawake⟩ | hsub
    · exact ⟨p, hp, (hiff hnext p hp).mpr fun hasleep => hawake hasleep.1⟩
    · by_cases hall : ∀ p ∈ s.sleepers t, s.AsleepIn p
      · -- all of them are still asleep, so one of them is woken
        have hchoice : c = none ∧ s.asleep = ∅ ∨ ∃ i, c = some i ∧ (s.pc i).isAsleep = true := by
          simp only [next, Option.ite_none_right_eq_some] at hnext
          exact hnext.1.2
        rcases hchoice with ⟨-, hempty⟩ | ⟨i, rfl, hi⟩
        · obtain ⟨p, hp⟩ := hne
          have hmem := State.mem_asleep.mpr (hall p hp)
          rw [hempty] at hmem
          exact absurd hmem (Finset.notMem_empty p)
        · have hmem : (i, s.calls i) ∈ s.sleepers t := hsub (State.mem_asleep.mpr ⟨rfl, hi⟩)
          exact ⟨_, hmem, (hiff hnext _ hmem).mpr fun hasleep => hasleep.2 rfl⟩
      · push Not at hall
        obtain ⟨p, hp, hawake⟩ := hall
        exact ⟨p, hp, (hiff hnext p hp).mpr fun hasleep => hawake hasleep.1⟩

omit [DecidableEq ι] [Fintype ι] [DecidableEq μ] in
theorem recorded_init : Recorded ({} : State ι μ) := ⟨fun _ p hp => absurd hp (Finset.notMem_empty p), nofun⟩

omit [DecidableEq μ] in
theorem notifyOne_of_returned {s s' : State ι μ} {a : Action ι μ} (hstep : Stepped s a s') :
    s'.returnedOne = s.returnedOne ∨
      ∃ t c, a = .notifyOne t c ∧ s.pc t = .notifyOne ∧ s'.returnedOne = s.returnedOne ++ [s.sleepers t] := by
  cases hstep with
  | move | load | sleep | leave | fetchAdd | notifyAll | wake => exact .inl rfl
  | notifyOne t c pc choice =>
      refine .inr ⟨t, c, rfl, pc, ?_⟩
      cases c <;> rfl

/-- **A step keeps it** if it is no `notify_one` that may wake a later waiter. -/
theorem OneReleased.step {s s' : State ι μ} {a : Action ι μ} (h : s.OneReleased) (ht : Tickets s) (hr : Recorded s)
    (hfew : s'.notifications < 2 ^ 32) (hok : wakesOld s a = true) (hnext : next s a = some s') :
    s'.OneReleased := by
  have hstep := next_stepped hnext
  have hfew₀ := Nat.lt_of_le_of_lt hstep.notifications_le hfew
  have hkept : ∀ S ∈ s.returnedOne, S.Nonempty → ∃ p ∈ S, s'.Released p := by
    intro S hS hne
    obtain ⟨p, hp, hreleased⟩ := h S hS hne
    exact ⟨p, hp, hreleased.stepped ht (hr.returned S hS p hp) hfew hstep⟩
  rcases notifyOne_of_returned hstep with hsame | ⟨t, c, rfl, hpc, hadded⟩
  · intro S hS
    exact hkept S (hsame ▸ hS)
  · intro S hS
    rw [hadded, List.mem_append, List.mem_singleton] at hS
    rcases hS with hS | rfl
    · exact hkept S hS
    · exact (released_iff_wakesOld ht hr hfew₀ hpc).mpr (of_decide_eq_true hok) c s' hnext

/-- **`NotifyOne` is not consumed by a later waiter**, in every run of fewer than 2^32 notifications in which no
    `notify_one` is called while those who slept at the `fetch_add` still sleep, and somebody else with them;
    and a `notify_one` called then can wake somebody else. -/
theorem notifyOne_releases (ι μ : Type) [DecidableEq ι] [Fintype ι] [DecidableEq μ] :
    (∀ s : State ι μ, (systemIf ι μ wakesOld).Reachable s → s.notifications < 2 ^ 32 → s.OneReleased) ∧
      ∀ (s : State ι μ) (t : ι), (system ι μ).Reachable s → s.notifications < 2 ^ 32 → s.pc t = .notifyOne →
        ((∀ c s', next s (.notifyOne t c) = some s' → (s.sleepers t).Nonempty →
          ∃ p ∈ s.sleepers t, s'.Released p) ↔ s.WakesOld t) := by
  constructor
  · intro s hs
    have hall : Tickets s ∧ Recorded s ∧ (s.notifications < 2 ^ 32 → s.OneReleased) := by
      refine hs.invariant (P := fun s => Tickets s ∧ Recorded s ∧ (s.notifications < 2 ^ 32 → s.OneReleased)) ?_ ?_
      · rintro s rfl
        exact ⟨tickets_init, recorded_init, fun _ => nofun⟩
      · rintro s s' ⟨ht, hr, h⟩ ⟨a, hok, hnext⟩
        have hstep := next_stepped hnext
        refine ⟨ht.stepped hstep, hr.stepped ht hstep, fun hfew => ?_⟩
        exact OneReleased.step (h (Nat.lt_of_le_of_lt hstep.notifications_le hfew)) ht hr hfew hok hnext
    exact hall.2.2
  · intro s t hs hfew hpc
    have hboth : Tickets s ∧ Recorded s :=
      hs.invariant_next (P := fun s => Tickets s ∧ Recorded s) ⟨tickets_init, recorded_init⟩
        fun _ _ _ ⟨ht, hr⟩ hnext => ⟨ht.stepped (next_stepped hnext), hr.stepped ht (next_stepped hnext)⟩
    exact released_iff_wakesOld hboth.1 hboth.2 hfew hpc

/-- Thread 0 sleeps in `Wait`, and thread 1 calls `NotifyOne`. -/
def woken : List (Action (Fin 2) Unit) :=
  [.lock 0 (), .wait 0 (), .step 0, .step 0, .step 0, .notify 1 false, .step 1, .notifyOne 1 (some 0)]

theorem notifyOne_releases_one : ∃ s : State (Fin 2) Unit, (systemIf (Fin 2) Unit wakesOld).Reachable s ∧
    s.returnedOne = [{(0, 1)}] ∧ s.pc 0 = .wait () 0 ∧ s.ticket_ = 1 ∧ s.OneReleased := by
  have hrun : ∃ s, System.runWhile wakesOld next ({} : State (Fin 2) Unit) woken = some s ∧
      s.returnedOne = [{(0, 1)}] ∧ s.pc 0 = .wait () 0 ∧ s.ticket_ = 1 ∧ s.notifications = 1 :=
    ⟨_, rfl, by decide, rfl, rfl, rfl⟩
  obtain ⟨s, hs, hreturned, hpc, hticket, hcount⟩ := hrun
  have hreach : (systemIf (Fin 2) Unit wakesOld).Reachable s :=
    ⟨_, rfl, System.steps_of_runWhile (fun _ _ hok => hok) hs⟩
  refine ⟨s, hreach, hreturned, hpc, hticket, (notifyOne_releases (Fin 2) Unit).1 s hreach ?_⟩
  rw [hcount]
  decide

/-- Thread 0 sleeps in `Wait`; after the `fetch_add` of thread 1's `NotifyOne`, thread 2 falls asleep on the new
    ticket, and it is the thread that wakes. -/
def overtaken : List (Action (Fin 3) Unit) :=
  [.lock 0 (), .wait 0 (), .step 0, .step 0, .step 0, .notify 1 false, .step 1,
    .lock 2 (), .wait 2 (), .step 2, .step 2, .step 2, .notifyOne 1 (some 2)]

theorem notifyOne_overtaken : ∃ s : State (Fin 3) Unit, (system (Fin 3) Unit).Reachable s ∧
    s.notifications < 2 ^ 32 ∧ ¬ s.OneReleased := by
  have hrun : ∃ s, System.run next ({} : State (Fin 3) Unit) overtaken = some s ∧
      s.returnedOne = [{(0, 1)}] ∧ s.pc 0 = .asleep () 0 ∧ s.calls 0 = 1 ∧ s.notifications = 1 :=
    ⟨_, rfl, by decide, rfl, rfl, rfl⟩
  obtain ⟨s, hs, hreturned, hpc, hcalls, hcount⟩ := hrun
  refine ⟨s, System.reachable_of_run _ hs, by rw [hcount]; decide, fun h => ?_⟩
  obtain ⟨p, hp, hreleased⟩ := h {(0, 1)} (by rw [hreturned]; exact List.mem_singleton_self _) (Finset.singleton_nonempty _)
  obtain rfl := Finset.mem_singleton.mp hp
  have hleft := hreleased hcalls
  rw [hpc] at hleft
  exact hleft

end Condvar
end Tpcc
