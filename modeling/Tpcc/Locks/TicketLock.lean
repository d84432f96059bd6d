import Mathlib.Algebra.Group.Nat.Defs
import Mathlib.Logic.Function.Basic
import Tpcc.Transition.Exclusive
import Tpcc.Transition.System

/-!
# `Locks.TicketLock` — the ticket lock with `TryLock`

`TicketLock::Lock`, `TryLock` and `Unlock`, one atomic operation at a time, for any number of threads. A
thread calls `Unlock` only when it holds the lock; `Lock` and `TryLock` it can call at any moment. A thread
that holds the lock and calls `Lock` spins for ever, and its `TryLock` fails: `Plain` says that no thread
does so.

`tickets` and `granted` are history: the threads that took a ticket, and those that got the lock, in order.
With fewer than 2^64 tickets the two `size_t` counters are the numbers of tickets released and taken
(`Queue`), and the tickets in between are the outstanding ones.
-/

namespace Tpcc
namespace Locks

open Transition

/-- The members of `TicketLock`. -/
structure TicketLock where
  next_free_ticket_ : UInt64 := 0
  owner_ticket_ : UInt64 := 0

namespace TicketLock

/-- `next_free_ticket_.compare_exchange_strong(current, current + 1)`. -/
def compareExchange (l : TicketLock) (current : UInt64) : TicketLock × Bool :=
  if l.next_free_ticket_ = current then ({ l with next_free_ticket_ := current + 1 }, true) else (l, false)

/-- Where a thread is. -/
inductive Pc where
  /-- Outside all calls. -/
  | out
  /-- `Lock`: about to compare its ticket with `owner_ticket_`. -/
  | spin (this_thread_ticket : UInt64)
  /-- `TryLock`: about to do its compare-exchange. -/
  | tried (current : UInt64)
  /-- `Unlock`: about to store the owner it has loaded, plus one. -/
  | loaded (owner : UInt64)
  deriving DecidableEq

/-- A thread; `holds` is its ticket from the return of `Lock` or `TryLock` to the end of `Unlock`. -/
structure Thread where
  pc : Pc := .out
  holds : Option UInt64 := none
  deriving DecidableEq

structure State (ι : Type) where
  lock : TicketLock := {}
  threads : ι → Thread := fun _ => {}
  tickets : List ι := []
  granted : List ι := []

/-- Who takes the next step: a thread with the first operation of `Lock`, `TryLock` or `Unlock`, or with
    the next operation of the call it is in. -/
inductive Action (ι : Type) where
  | lock (t : ι)
  | tryLock (t : ι)
  | unlock (t : ι)
  | step (t : ι)

variable {ι : Type} [DecidableEq ι]

/-- Thread `t` goes on. -/
def State.set (s : State ι) (t : ι) (th : Thread) : State ι :=
  { s with threads := Function.update s.threads t th }

def next (s : State ι) : Action ι → Option (State ι)
  | .lock t =>
      if (s.threads t).pc = .out then
        some { s.set t { s.threads t with pc := .spin s.lock.next_free_ticket_ } with
          lock := { s.lock with next_free_ticket_ := s.lock.next_free_ticket_ + 1 },
          tickets := s.tickets ++ [t] }
      else none
  | .tryLock t =>
      if (s.threads t).pc = .out then some (s.set t { s.threads t with pc := .tried s.lock.owner_ticket_ })
      else none
  | .unlock t =>
      if (s.threads t).pc = .out ∧ (s.threads t).holds ≠ none then
        some (s.set t { s.threads t with pc := .loaded s.lock.owner_ticket_ })
      else none
  | .step t =>
      match (s.threads t).pc with
      | .out => none
      | .spin ticket =>
          if ticket = s.lock.owner_ticket_ then
            some { s.set t ⟨.out, some ticket⟩ with granted := s.granted ++ [t] }
          else some s
      | .tried current =>
          match s.lock.compareExchange current with
          | (lock, true) =>
              some { s.set t ⟨.out, some current⟩ with
                lock, tickets := s.tickets ++ [t], granted := s.granted ++ [t] }
          | (_, false) => some (s.set t { s.threads t with pc := .out })
      | .loaded owner =>
          some { s.set t {} with lock := { s.lock with owner_ticket_ := owner + 1 } }

/-- The runs with fewer than 2^64 ticket acquisitions. -/
def system (ι : Type) [DecidableEq ι] : System (State ι) :=
  (System.ofNext {} next).restrict fun _ s' => s'.tickets.length < 2 ^ 64

/-! ## What a step can do -/

/-- The kinds of step. -/
inductive Stepped (s : State ι) : State ι → Prop where
  | lock (t : ι) (pc : (s.threads t).pc = .out) :
      Stepped s { s.set t { s.threads t with pc := .spin s.lock.next_free_ticket_ } with
        lock := { s.lock with next_free_ticket_ := s.lock.next_free_ticket_ + 1 },
        tickets := s.tickets ++ [t] }
  | tryLock (t : ι) (pc : (s.threads t).pc = .out) :
      Stepped s (s.set t { s.threads t with pc := .tried s.lock.owner_ticket_ })
  | unlock (t : ι) (pc : (s.threads t).pc = .out) (holds : (s.threads t).holds ≠ none) :
      Stepped s (s.set t { s.threads t with pc := .loaded s.lock.owner_ticket_ })
  | enter (t : ι) (pc : (s.threads t).pc = .spin s.lock.owner_ticket_) :
      Stepped s { s.set t ⟨.out, some s.lock.owner_ticket_⟩ with granted := s.granted ++ [t] }
  | spin : Stepped s s
  | acquire (t : ι) (pc : (s.threads t).pc = .tried s.lock.next_free_ticket_) :
      Stepped s { s.set t ⟨.out, some s.lock.next_free_ticket_⟩ with
        lock := { s.lock with next_free_ticket_ := s.lock.next_free_ticket_ + 1 },
        tickets := s.tickets ++ [t], granted := s.granted ++ [t] }
  | fail (t : ι) (current : UInt64) (pc : (s.threads t).pc = .tried current) :
      Stepped s (s.set t { s.threads t with pc := .out })
  | release (t : ι) (owner : UInt64) (pc : (s.threads t).pc = .loaded owner) :
      Stepped s { s.set t {} with lock := { s.lock with owner_ticket_ := owner + 1 } }

theorem next_stepped {s s' : State ι} {a : Action ι} (h : next s a = some s') : Stepped s s' := by
  cases a with
  | lock t =>
      simp only [next, Option.ite_none_right_eq_some, Option.some.injEq] at h
      obtain ⟨hpc, rfl⟩ := h
      exact .lock t hpc
  | tryLock t =>
      simp only [next, Option.ite_none_right_eq_some, Option.some.injEq] at h
      obtain ⟨hpc, rfl⟩ := h
      exact .tryLock t hpc
  | unlock t =>
      simp only [next, Option.ite_none_right_eq_some, Option.some.injEq] at h
      obtain ⟨⟨hpc, hholds⟩, rfl⟩ := h
      exact .unlock t hpc hholds
  | step t =>
      simp only [next] at h
      split at h
      · cases h
      · next ticket hpc =>
          split at h
          · next howner =>
              cases h
              subst howner
              exact .enter t hpc
          · cases h
            exact .spin
      · next current hpc =>
          by_cases hcurrent : s.lock.next_free_ticket_ = current
          · subst hcurrent
            simp only [compareExchange, if_true] at h
            cases h
            exact .acquire t hpc
          · simp only [compareExchange, if_neg hcurrent] at h
            cases h
            exact .fail t current hpc
      · next owner hpc =>
          cases h
          exact .release t owner hpc

/-! ## The tickets -/

/-- The thread holds the lock with ticket `v`, or spins on it. -/
def Thread.Has (th : Thread) (v : UInt64) : Prop := th.holds = some v ∨ th.pc = .spin v

/-- What is known of thread `t` when `o` tickets have been released. -/
structure Place (tickets : List ι) (o : Nat) (t : ι) (th : Thread) : Prop where
  issued : ∀ v, th.Has v → o ≤ v.toNat ∧ tickets[v.toNat]? = some t
  serving : ∀ v, th.holds = some v → v.toNat = o
  spinning : ∀ v, th.pc = .spin v → th.holds ≠ some v
  tried : ∀ c, th.pc = .tried c → c.toNat ≤ o
  loaded : ∀ v, th.pc = .loaded v → th.holds = some v

/-- The counters when `o` tickets have been released: the tickets from `o` on are outstanding, each with
    the thread that took it, and ticket `o` is the one that can hold the lock. -/
structure Queue (s : State ι) (o : Nat) : Prop where
  owner : s.lock.owner_ticket_ = UInt64.ofNat o
  next : s.lock.next_free_ticket_ = UInt64.ofNat s.tickets.length
  le : o ≤ s.tickets.length
  lt : s.tickets.length < 2 ^ 64
  place : ∀ t, Place s.tickets o t (s.threads t)
  outstanding : ∀ k t, o ≤ k → s.tickets[k]? = some t → (s.threads t).Has (UInt64.ofNat k)
  free : (∀ t, (s.threads t).holds = none) → s.granted = s.tickets.take o
  held : ∀ t v, (s.threads t).holds = some v → s.granted = s.tickets.take (o + 1)

omit [DecidableEq ι] in
theorem queue_init : Queue ({} : State ι) 0 := by
  refine ⟨rfl, rfl, Nat.le_refl _, Nat.two_pow_pos 64, ?_, ?_, fun _ => rfl, ?_⟩
  · intro t
    refine ⟨?_, ?_, ?_, ?_, ?_⟩ <;> simp [Thread.Has]
  · intro k t _ hk
    simp at hk
  · intro t v hv
    cases hv

omit [DecidableEq ι] in
theorem toNat_ofNat {k : Nat} (h : k < 2 ^ 64) : (UInt64.ofNat k).toNat = k := by
  rw [UInt64.toNat_ofNat', Nat.mod_eq_of_lt h]

namespace Queue

variable {s : State ι} {o : Nat}

omit [DecidableEq ι] in
theorem owner_toNat (h : Queue s o) : s.lock.owner_ticket_.toNat = o := by
  rw [h.owner]
  exact toNat_ofNat (Nat.lt_of_le_of_lt h.le h.lt)

omit [DecidableEq ι] in
theorem next_toNat (h : Queue s o) : s.lock.next_free_ticket_.toNat = s.tickets.length := by
  rw [h.next]
  exact toNat_ofNat h.lt

omit [DecidableEq ι] in
/-- The holder's ticket is the one `owner_ticket_` shows. -/
theorem holds_eq (h : Queue s o) {t : ι} {v : UInt64} (hv : (s.threads t).holds = some v) :
    v = s.lock.owner_ticket_ := by
  apply UInt64.toNat_inj.mp
  rw [(h.place t).serving v hv, h.owner_toNat]

omit [DecidableEq ι] in
/-- While the lock is held, its ticket is not yet released. -/
theorem lt_of_holds (h : Queue s o) {t : ι} {v : UInt64} (hv : (s.threads t).holds = some v) :
    s.tickets[o]? = some t ∧ o < s.tickets.length := by
  have hissued := ((h.place t).issued v (.inl hv)).2
  rw [(h.place t).serving v hv] at hissued
  exact ⟨hissued, (List.getElem?_eq_some_iff.mp hissued).1⟩

omit [DecidableEq ι] in
theorem exclusive (h : Queue s o) {i j : ι} {v w : UInt64} (hi : (s.threads i).holds = some v)
    (hj : (s.threads j).holds = some w) : i = j := by
  have hboth := (h.lt_of_holds hi).1.symm.trans (h.lt_of_holds hj).1
  exact Option.some.inj hboth

omit [DecidableEq ι] in
/-- With the ticket `owner_ticket_` shows still to be granted, nobody holds the lock. -/
theorem free_of_spin (h : Queue s o) {t : ι} (hpc : (s.threads t).pc = .spin s.lock.owner_ticket_) :
    s.tickets[o]? = some t ∧ ∀ i, (s.threads i).holds = none := by
  have hticket := ((h.place t).issued _ (.inr hpc)).2
  rw [h.owner_toNat] at hticket
  refine ⟨hticket, ?_⟩
  intro i
  cases hv : (s.threads i).holds with
  | none => rfl
  | some v =>
      obtain rfl := Option.some.inj ((h.lt_of_holds hv).1.symm.trans hticket)
      rw [h.holds_eq hv] at hv
      exact ((h.place i).spinning _ hpc hv).elim

omit [DecidableEq ι] in
/-- With all tickets released, nobody holds the lock. -/
theorem free_of_eq (h : Queue s o) (heq : o = s.tickets.length) (i : ι) : (s.threads i).holds = none := by
  cases hv : (s.threads i).holds with
  | none => rfl
  | some v =>
      have hlt := (h.lt_of_holds hv).2
      omega

/-- A step of thread `t` that keeps its tickets. -/
theorem set (h : Queue s o) {t : ι} {th : Thread} (hplace : Place s.tickets o t th)
    (hholds : th.holds = (s.threads t).holds) (hspin : ∀ v, (s.threads t).pc ≠ .spin v) :
    Queue (s.set t th) o := by
  have hsame : ∀ i, ((s.set t th).threads i).holds = (s.threads i).holds :=
    update_same (q := Thread.holds) hholds
  refine ⟨h.owner, h.next, h.le, h.lt, ?_, ?_, ?_, ?_⟩
  · exact (Function.forall_update_iff s.threads (Place s.tickets o)).mpr ⟨hplace, fun i _ => h.place i⟩
  · intro k i hk hki
    rcases h.outstanding k i hk hki with hhas | hhas
    · exact .inl ((hsame i).trans hhas)
    · have hi : i ≠ t := by
        rintro rfl
        exact hspin _ hhas
      right
      simp [State.set, hi, hhas]
  · intro hnone
    exact h.free fun i => (hsame i).symm.trans (hnone i)
  · intro i v hv
    exact h.held i v ((hsame i).symm.trans hv)

end Queue

omit [DecidableEq ι] in
/-- The thread goes on without asking for a ticket. -/
theorem Place.move {tickets : List ι} {o : Nat} {t : ι} {th : Thread} (h : Place tickets o t th) (pc : Pc)
    (hspin : ∀ v, pc ≠ .spin v) (htried : ∀ c, pc = .tried c → c.toNat ≤ o)
    (hloaded : ∀ v, pc = .loaded v → th.holds = some v) : Place tickets o t { th with pc } where
  issued := by
    rintro v (hv | hv)
    · exact h.issued v (.inl hv)
    · exact (hspin v hv).elim
  serving := h.serving
  spinning v hv := (hspin v hv).elim
  tried := htried
  loaded := hloaded

omit [DecidableEq ι] in
theorem snoc_cases {tickets : List ι} {t i : ι} {k : Nat} (h : (tickets ++ [t])[k]? = some i) :
    tickets[k]? = some i ∨ k = tickets.length ∧ i = t := by
  rcases Nat.lt_or_ge k tickets.length with hk | hk
  · rw [List.getElem?_append_left hk] at h
    exact .inl h
  · have hlt := (List.getElem?_eq_some_iff.mp h).1
    rw [List.length_append, List.length_singleton] at hlt
    have hlen : k = tickets.length := by omega
    subst hlen
    rw [List.getElem?_concat_length] at h
    exact .inr ⟨rfl, (Option.some.inj h).symm⟩

omit [DecidableEq ι] in
/-- Another thread takes the next ticket. -/
theorem Place.append {tickets : List ι} {o : Nat} {t : ι} {th : Thread} (h : Place tickets o t th)
    (u : ι) : Place (tickets ++ [u]) o t th where
  issued v hv := by
    obtain ⟨hle, hv⟩ := h.issued v hv
    rw [List.getElem?_append_left (List.getElem?_eq_some_iff.mp hv).1]
    exact ⟨hle, hv⟩
  serving := h.serving
  spinning := h.spinning
  tried := h.tried
  loaded := h.loaded

namespace Queue

variable {s : State ι} {o : Nat}

/-- `Lock`'s `fetch_add`. -/
theorem lock (h : Queue s o) {t : ι} (hpc : (s.threads t).pc = .out) (hlt : s.tickets.length + 1 < 2 ^ 64) :
    Queue { s.set t { s.threads t with pc := .spin s.lock.next_free_ticket_ } with
        lock := { s.lock with next_free_ticket_ := s.lock.next_free_ticket_ + 1 },
        tickets := s.tickets ++ [t] } o := by
  have hplace := h.place t
  have hmine : Place (s.tickets ++ [t]) o t ⟨.spin s.lock.next_free_ticket_, (s.threads t).holds⟩ := by
    refine ⟨?_, hplace.serving, ?_, nofun, nofun⟩
    · rintro v (hv | hv)
      · exact (hplace.append t).issued v (.inl hv)
      · cases hv
        rw [h.next_toNat]
        exact ⟨h.le, List.getElem?_concat_length⟩
    · intro v hv hholds
      cases hv
      have hissued := (hplace.issued _ (.inl hholds)).2
      rw [h.next_toNat] at hissued
      simp at hissued
  have hsame : ∀ i, (Function.update s.threads t
      ⟨.spin s.lock.next_free_ticket_, (s.threads t).holds⟩ i).holds = (s.threads i).holds :=
    update_same (q := Thread.holds) rfl
  refine ⟨h.owner, ?_, ?_, ?_, ?_, ?_, ?_, ?_⟩
  · rw [List.length_append, UInt64.ofNat_add, ← h.next]
    rfl
  · exact Nat.le_trans h.le (by simp)
  · simpa using hlt
  · exact (Function.forall_update_iff s.threads (Place (s.tickets ++ [t]) o)).mpr
      ⟨hmine, fun i _ => (h.place i).append t⟩
  · intro k i hk hki
    show (Function.update s.threads t _ i).Has (UInt64.ofNat k)
    rcases snoc_cases hki with hki | ⟨rfl, rfl⟩
    · rcases h.outstanding k i hk hki with hhas | hhas
      · exact .inl ((hsame i).trans hhas)
      · have hi : i ≠ t := by
          rintro rfl
          rw [hpc] at hhas
          cases hhas
        rw [Function.update_of_ne hi]
        exact .inr hhas
    · rw [Function.update_self, ← h.next]
      exact .inr rfl
  · intro hnone
    rw [List.take_append_of_le_length h.le]
    exact h.free fun i => (hsame i).symm.trans (hnone i)
  · intro i v hv
    have hv := (hsame i).symm.trans hv
    rw [List.take_append_of_le_length (h.lt_of_holds hv).2]
    exact h.held i v hv

/-- `Lock` finds its ticket served. -/
theorem enter (h : Queue s o) {t : ι} (hpc : (s.threads t).pc = .spin s.lock.owner_ticket_) :
    Queue { s.set t ⟨.out, some s.lock.owner_ticket_⟩ with granted := s.granted ++ [t] } o := by
  obtain ⟨hticket, hfree⟩ := h.free_of_spin hpc
  have hgranted : s.granted ++ [t] = s.tickets.take (o + 1) := by
    rw [List.take_add_one, hticket, ← h.free hfree]
    rfl
  have hmine : Place s.tickets o t ⟨.out, some s.lock.owner_ticket_⟩ := by
    refine ⟨?_, ?_, nofun, nofun, nofun⟩
    · rintro v (hv | hv)
      · cases hv
        exact (h.place t).issued _ (.inr hpc)
      · cases hv
    · intro v hv
      cases hv
      exact h.owner_toNat
  refine ⟨h.owner, h.next, h.le, h.lt, ?_, ?_, ?_, fun _ _ _ => hgranted⟩
  · exact (Function.forall_update_iff s.threads (Place s.tickets o)).mpr ⟨hmine, fun i _ => h.place i⟩
  · intro k i hk hki
    show (Function.update s.threads t _ i).Has (UInt64.ofNat k)
    by_cases hi : i = t
    · subst hi
      rw [Function.update_self]
      rcases h.outstanding k i hk hki with hhas | hhas
      · rw [hfree i] at hhas
        cases hhas
      · rw [hpc] at hhas
        exact .inl (congrArg some (Pc.spin.inj hhas))
    · rw [Function.update_of_ne hi]
      exact h.outstanding k i hk hki
  · intro hnone
    have hmine := hnone t
    simp [State.set] at hmine

omit [DecidableEq ι] in
/-- `TryLock`'s compare-exchange finds all tickets released. -/
theorem eq_of_tried (h : Queue s o) {t : ι} (hpc : (s.threads t).pc = .tried s.lock.next_free_ticket_) :
    o = s.tickets.length := by
  have htried := (h.place t).tried _ hpc
  rw [h.next_toNat] at htried
  exact Nat.le_antisymm h.le htried

/-- A successful `TryLock`. -/
theorem acquire (h : Queue s o) {t : ι} (hpc : (s.threads t).pc = .tried s.lock.next_free_ticket_)
    (hlt : s.tickets.length + 1 < 2 ^ 64) :
    Queue { s.set t ⟨.out, some s.lock.next_free_ticket_⟩ with
        lock := { s.lock with next_free_ticket_ := s.lock.next_free_ticket_ + 1 },
        tickets := s.tickets ++ [t], granted := s.granted ++ [t] } o := by
  have heq := h.eq_of_tried hpc
  have hfree := h.free_of_eq heq
  have hgranted : s.granted ++ [t] = (s.tickets ++ [t]).take (o + 1) := by
    rw [h.free hfree, heq, List.take_length, List.take_of_length_le (by simp)]
  have hmine : Place (s.tickets ++ [t]) o t ⟨.out, some s.lock.next_free_ticket_⟩ := by
    refine ⟨?_, ?_, nofun, nofun, nofun⟩
    · rintro v (hv | hv)
      · cases hv
        rw [h.next_toNat]
        exact ⟨h.le, List.getElem?_concat_length⟩
      · cases hv
    · intro v hv
      cases hv
      rw [h.next_toNat, heq]
  refine ⟨h.owner, ?_, ?_, ?_, ?_, ?_, ?_, fun _ _ _ => hgranted⟩
  · rw [List.length_append, UInt64.ofNat_add, ← h.next]
    rfl
  · exact Nat.le_trans h.le (by simp)
  · simpa using hlt
  · exact (Function.forall_update_iff s.threads (Place (s.tickets ++ [t]) o)).mpr
      ⟨hmine, fun i _ => (h.place i).append t⟩
  · intro k i hk hki
    show (Function.update s.threads t _ i).Has (UInt64.ofNat k)
    rcases snoc_cases hki with hki | ⟨rfl, rfl⟩
    · have hklt := (List.getElem?_eq_some_iff.mp hki).1
      omega
    · rw [Function.update_self, ← h.next]
      exact .inl rfl
  · intro hnone
    have hmine := hnone t
    simp [State.set] at hmine

/-- `Unlock`'s store. -/
theorem release (h : Queue s o) {t : ι} {owner : UInt64} (hpc : (s.threads t).pc = .loaded owner) :
    Queue { s.set t {} with lock := { s.lock with owner_ticket_ := owner + 1 } } (o + 1) := by
  have hholds := (h.place t).loaded owner hpc
  obtain ⟨hticket, hlt⟩ := h.lt_of_holds hholds
  have hothers : ∀ i, i ≠ t → (s.threads i).holds = none := by
    intro i hi
    cases hv : (s.threads i).holds with
    | none => rfl
    | some v => exact (hi (h.exclusive hv hholds)).elim
  have hplace : ∀ i, i ≠ t → Place s.tickets (o + 1) i (s.threads i) := by
    intro i hi
    have hplace := h.place i
    have hnone := hothers i hi
    refine ⟨?_, ?_, hplace.spinning, ?_, hplace.loaded⟩
    · intro v hv
      obtain ⟨hle, hissued⟩ := hplace.issued v hv
      refine ⟨Nat.lt_of_le_of_ne hle ?_, hissued⟩
      intro heq
      rw [← heq, hticket] at hissued
      exact hi (Option.some.inj hissued).symm
    · intro v hv
      rw [hnone] at hv
      cases hv
    · intro c hc
      exact Nat.le_succ_of_le (hplace.tried c hc)
  have hfree : ∀ i, (Function.update s.threads t {} i).holds = none :=
    (Function.forall_update_iff s.threads fun _ thread => thread.holds = none).mpr ⟨rfl, hothers⟩
  refine ⟨?_, h.next, hlt, h.lt, ?_, ?_, fun _ => h.held t owner hholds, ?_⟩
  · rw [h.holds_eq hholds, h.owner, UInt64.ofNat_add]
    rfl
  · refine (Function.forall_update_iff s.threads (Place s.tickets (o + 1))).mpr ⟨?_, hplace⟩
    refine ⟨?_, ?_, ?_, ?_, ?_⟩ <;> simp [Thread.Has]
  · intro k i hk hki
    show (Function.update s.threads t _ i).Has (UInt64.ofNat k)
    have hhas := h.outstanding k i (Nat.le_of_succ_le hk) hki
    by_cases hi : i = t
    · -- its one ticket is the one it releases
      subst hi
      exfalso
      rcases hhas with hhas | hhas
      · have hserving := (h.place i).serving _ hhas
        have hklt := (List.getElem?_eq_some_iff.mp hki).1
        rw [toNat_ofNat (Nat.lt_trans hklt h.lt)] at hserving
        omega
      · rw [hpc] at hhas
        cases hhas
    · rw [Function.update_of_ne hi]
      exact hhas
  · intro i v hv
    have hnone := hfree i
    rw [show (Function.update s.threads t {} i).holds = some v from hv] at hnone
    cases hnone

/-- One step keeps the counters in order. -/
theorem stepped {s' : State ι} (h : Queue s o) (hstep : Stepped s s') (hlt : s'.tickets.length < 2 ^ 64) :
    ∃ o', Queue s' o' := by
  cases hstep with
  | spin => exact ⟨o, h⟩
  | lock t pc => exact ⟨o, h.lock pc (by simpa using hlt)⟩
  | enter t pc => exact ⟨o, h.enter pc⟩
  | acquire t pc => exact ⟨o, h.acquire pc (by simpa using hlt)⟩
  | release t owner pc => exact ⟨o + 1, h.release pc⟩
  | tryLock t pc =>
      refine ⟨o, h.set ((h.place t).move _ nofun ?_ nofun) rfl (by simp [pc])⟩
      intro c hc
      cases hc
      exact Nat.le_of_eq h.owner_toNat
  | unlock t pc holds =>
      refine ⟨o, h.set ((h.place t).move _ nofun nofun ?_) rfl (by simp [pc])⟩
      intro v hv
      cases hv
      obtain ⟨w, hw⟩ := Option.ne_none_iff_exists'.mp holds
      rw [hw, h.holds_eq hw]
  | fail t current pc => exact ⟨o, h.set ((h.place t).move _ nofun nofun nofun) rfl (by simp [pc])⟩

end Queue

theorem reachable_queue {s : State ι} (h : (system ι).Reachable s) : ∃ o, Queue s o := by
  refine System.Reachable.invariant_restrict (P := fun s => ∃ o, Queue s o) ?_ ?_ h
  · rintro s rfl
    exact ⟨0, queue_init⟩
  · rintro s s' - ⟨o, hs⟩ hlt ⟨a, hnext⟩
    exact hs.stepped (next_stepped hnext) hlt

/-! ## Exclusion and order -/

/-- At most one thread holds the lock. -/
def State.Exclusive (s : State ι) : Prop :=
  ∀ i j, (s.threads i).holds ≠ none → (s.threads j).holds ≠ none → i = j

/-- The thread does not ask for the lock while it holds it. -/
def Thread.Plain (th : Thread) : Prop := th.holds ≠ none → ∀ v, th.pc ≠ .spin v

/-- The tickets from `owner_ticket_` to `next_free_ticket_` belong to one thread each, to distinct threads
    if none asks for the lock while it holds it, and the threads have no others. -/
structure State.Ordered (s : State ι) : Prop where
  le : s.lock.owner_ticket_ ≤ s.lock.next_free_ticket_
  owned : ∀ v, s.lock.owner_ticket_ ≤ v → v < s.lock.next_free_ticket_ → ∃! t, (s.threads t).Has v
  between : ∀ t v, (s.threads t).Has v → s.lock.owner_ticket_ ≤ v ∧ v < s.lock.next_free_ticket_
  distinct : ∀ t v w, (s.threads t).Plain → (s.threads t).Has v → (s.threads t).Has w → v = w

/-- Thread `t` holds the lock, with the ticket `owner_ticket_` shows, and no other thread does. -/
def State.HeldBy (s : State ι) (t : ι) : Prop :=
  (s.threads t).holds = some s.lock.owner_ticket_ ∧ ∀ j, j ≠ t → (s.threads j).holds = none

/-- A call of `TryLock` by thread `t` that returns false: it loads `owner_ticket_` in state `before`, which
    leads to `r 0`, and does its compare-exchange in state `r n`. -/
structure TryLockFails (t : ι) (before : State ι) (r : Nat → State ι) (n : Nat) : Prop where
  reachable : (system ι).Reachable before
  load : next before (.tryLock t) = some (r 0)
  path : (system ι).Path r n
  waits : ∀ k ≤ n, (r k).threads t = (r 0).threads t
  fails : ((r n).lock.compareExchange before.lock.owner_ticket_).2 = false

namespace Queue

variable {s : State ι} {o : Nat}

omit [DecidableEq ι] in
theorem has_iff (h : Queue s o) {t : ι} {v : UInt64} :
    (s.threads t).Has v ↔ o ≤ v.toNat ∧ s.tickets[v.toNat]? = some t := by
  constructor
  · exact (h.place t).issued v
  · rintro ⟨hle, hv⟩
    have hhas := h.outstanding v.toNat t hle hv
    rwa [UInt64.ofNat_toNat] at hhas

omit [DecidableEq ι] in
theorem ordered (h : Queue s o) : s.Ordered := by
  refine ⟨?_, ?_, ?_, ?_⟩
  · rw [UInt64.le_iff_toNat_le, h.owner_toNat, h.next_toNat]
    exact h.le
  · intro v hle hlt
    rw [UInt64.le_iff_toNat_le, h.owner_toNat] at hle
    rw [UInt64.lt_iff_toNat_lt, h.next_toNat] at hlt
    refine ⟨s.tickets[v.toNat], h.has_iff.mpr ⟨hle, List.getElem?_eq_getElem hlt⟩, ?_⟩
    intro t ht
    have hv := (h.has_iff.mp ht).2
    rw [List.getElem?_eq_getElem hlt] at hv
    exact (Option.some.inj hv).symm
  · intro t v hv
    obtain ⟨hle, hv⟩ := h.has_iff.mp hv
    rw [UInt64.le_iff_toNat_le, UInt64.lt_iff_toNat_lt, h.owner_toNat, h.next_toNat]
    exact ⟨hle, (List.getElem?_eq_some_iff.mp hv).1⟩
  · rintro t v w hplain (hv | hv) (hw | hw)
    · exact Option.some.inj (hv.symm.trans hw)
    · exact (hplain (by simp [hv]) w hw).elim
    · exact (hplain (by simp [hw]) v hv).elim
    · exact Pc.spin.inj (hv.symm.trans hw)

omit [DecidableEq ι] in
theorem granted_prefix (h : Queue s o) : s.granted <+: s.tickets := by
  by_cases hfree : ∀ t, (s.threads t).holds = none
  · rw [h.free hfree]
    exact List.take_prefix _ _
  · obtain ⟨t, ht⟩ := not_forall.mp hfree
    obtain ⟨v, hv⟩ := Option.ne_none_iff_exists'.mp ht
    rw [h.held t v hv]
    exact List.take_prefix _ _

omit [DecidableEq ι] in
/-- The holder is the only one. -/
theorem heldBy (h : Queue s o) {t : ι} {v : UInt64} (hv : (s.threads t).holds = some v) : s.HeldBy t := by
  constructor
  · rw [hv, h.holds_eq hv]
  · intro j hj
    cases hw : (s.threads j).holds with
    | none => rfl
    | some w => exact (hj (h.exclusive hw hv)).elim

omit [DecidableEq ι] in
/-- With no thread holding or requesting the lock, the counters are equal. -/
theorem next_eq_owner (h : Queue s o) (hnone : ∀ t v, ¬ (s.threads t).Has v) :
    s.lock.next_free_ticket_ = s.lock.owner_ticket_ := by
  have heq : o = s.tickets.length := by
    by_contra hne
    have hlt : o < s.tickets.length := Nat.lt_of_le_of_ne h.le hne
    exact hnone _ _ (h.outstanding o _ (Nat.le_refl o) (List.getElem?_eq_getElem hlt))
  rw [h.next, h.owner, heq]

/-- Only a holder moves `owner_ticket_`. -/
theorem owner_stepped {s' : State ι} (h : Queue s o) (hnone : ∀ t v, ¬ (s.threads t).Has v)
    (hstep : Stepped s s') : s'.lock.owner_ticket_ = s.lock.owner_ticket_ := by
  cases hstep with
  | release t owner pc => exact (hnone t owner (.inl ((h.place t).loaded owner pc))).elim
  | lock t pc | tryLock t pc | unlock t pc holds | enter t pc | spin | acquire t pc | fail t current pc => rfl

end Queue

/-- **`TryLock` does not fail without reason**: between its load and its compare-exchange another thread
    holds the lock or requests it, or the thread held the lock itself. -/
theorem TryLockFails.wanted {t : ι} {before : State ι} {r : Nat → State ι} {n : Nat}
    (h : TryLockFails t before r n) :
    (∃ k ≤ n, ∃ j, j ≠ t ∧ ∃ v, ((r k).threads j).Has v) ∨ (before.threads t).holds ≠ none := by
  by_contra hcon
  obtain ⟨hothers, hself⟩ := not_or.mp hcon
  have hload := h.load
  simp only [next, Option.ite_none_right_eq_some, Option.some.injEq] at hload
  obtain ⟨hpc, hload⟩ := hload
  have hmine : (r 0).threads t = ⟨.tried before.lock.owner_ticket_, none⟩ := by
    rw [← hload, ← not_not.mp hself]
    exact Function.update_self ..
  have hreach : (system ι).Reachable (r 0) := by
    refine h.reachable.step ⟨?_, .tryLock t, h.load⟩
    obtain ⟨o, ho⟩ := reachable_queue h.reachable
    rw [← hload]
    exact ho.lt
  have hnone : ∀ k ≤ n, ∀ j v, ¬ ((r k).threads j).Has v := by
    intro k hk j v hv
    by_cases hj : j = t
    · subst hj
      rw [h.waits k hk, hmine] at hv
      rcases hv with hv | hv <;> cases hv
    · exact hothers ⟨k, hk, j, hj, v, hv⟩
  have howner : (r n).lock.owner_ticket_ = before.lock.owner_ticket_ := by
    refine h.path.invariant (P := fun k => (r k).lock.owner_ticket_ = before.lock.owner_ticket_) ?_ ?_
      (Nat.le_refl n)
    · rw [← hload]
      rfl
    · intro k hk hP hstep
      obtain ⟨o, ho⟩ := reachable_queue (h.path.reachable hreach (Nat.le_of_lt hk))
      obtain ⟨-, a, hnext⟩ := hstep
      exact (ho.owner_stepped (hnone k (Nat.le_of_lt hk)) (next_stepped hnext)).trans hP
  obtain ⟨o, ho⟩ := reachable_queue (h.path.reachable hreach (Nat.le_refl n))
  have hfails := h.fails
  rw [compareExchange, if_pos ((ho.next_eq_owner (hnone n (Nat.le_refl n))).trans howner)] at hfails
  cases hfails

/-- **Exclusive, first come first served, and no failure without reason.** -/
theorem exclusive_fifo (ι : Type) [DecidableEq ι] :
    (∀ s : State ι, (system ι).Reachable s → s.Exclusive ∧ s.Ordered ∧ s.granted <+: s.tickets) ∧
    (∀ (s s' : State ι) (t : ι) (current : UInt64), (system ι).Reachable s →
      (s.threads t).pc = .tried current → (s.lock.compareExchange current).2 = true →
      next s (.step t) = some s' → (system ι).Reachable s' → s'.HeldBy t) ∧
    ∀ (t : ι) (before : State ι) (r : Nat → State ι) (n : Nat), TryLockFails t before r n →
      (∃ k ≤ n, ∃ j, j ≠ t ∧ ∃ v, ((r k).threads j).Has v) ∨ (before.threads t).holds ≠ none := by
  refine ⟨?_, ?_, fun t before r n h => h.wanted⟩
  · intro s hs
    obtain ⟨o, ho⟩ := reachable_queue hs
    refine ⟨?_, ho.ordered, ho.granted_prefix⟩
    intro i j hi hj
    obtain ⟨v, hv⟩ := Option.ne_none_iff_exists'.mp hi
    obtain ⟨w, hw⟩ := Option.ne_none_iff_exists'.mp hj
    exact ho.exclusive hv hw
  · intro s s' t current _ hpc hsuccess hnext hs'
    obtain ⟨o, ho⟩ := reachable_queue hs'
    have hcurrent : s.lock.next_free_ticket_ = current := by
      by_contra hne
      rw [compareExchange, if_neg hne] at hsuccess
      cases hsuccess
    have hholds : (s'.threads t).holds = some current := by
      simp only [next, hpc, compareExchange, if_pos hcurrent, Option.some.injEq] at hnext
      rw [← hnext]
      show (Function.update s.threads t ⟨.out, some current⟩ t).holds = some current
      rw [Function.update_self]
    exact ho.heldBy hholds

/-- Thread 0 has the lock by `TryLock`, and thread 1 waits for it. -/
def contended : List (Action (Fin 2)) := [.tryLock 0, .step 0, .lock 1, .step 1]

theorem exclusive_fifo_contended : ∃ s : State (Fin 2), (system (Fin 2)).Reachable s ∧
    s.tickets = [0, 1] ∧ s.granted <+: s.tickets := by
  have hrun : ∃ s, System.runIf (fun _ s' => decide (s'.tickets.length < 2 ^ 64)) next {} contended = some s ∧
      s.tickets = [0, 1] := ⟨_, rfl, rfl⟩
  obtain ⟨s, hs, htickets⟩ := hrun
  have hreach : (system (Fin 2)).Reachable s :=
    ⟨{}, rfl, System.steps_of_runIf (fun _ _ hok => of_decide_eq_true hok) hs⟩
  exact ⟨s, hreach, htickets, ((exclusive_fifo (Fin 2)).1 s hreach).2.2⟩

/-! ## `TryLock` by the holder -/

/-- The only thread holds the lock. -/
def held : State (Fin 1) := (System.run next {} [.lock 0, .step 0]).getD {}

theorem tryLockFails_held :
    TryLockFails 0 held (fun _ => (next held (.tryLock 0)).getD {}) 0 where
  reachable := by
    have hrun : System.runIf (fun _ s' => decide (s'.tickets.length < 2 ^ 64)) next {} [.lock 0, .step 0] =
        some held := rfl
    exact ⟨{}, rfl, System.steps_of_runIf (fun _ _ hok => of_decide_eq_true hok) hrun⟩
  load := rfl
  path := nofun
  waits k hk := rfl
  fails := rfl

theorem wanted_by_other : ¬ ∀ (m : Nat) (t : Fin m) (before : State (Fin m)) (r : Nat → State (Fin m)) (n : Nat),
    TryLockFails t before r n → ∃ k ≤ n, ∃ j, j ≠ t ∧ ∃ v, ((r k).threads j).Has v := by
  intro h
  obtain ⟨k, -, j, hj, -⟩ := h 1 0 held _ 0 tryLockFails_held
  exact hj (Subsingleton.elim j 0)

end TicketLock
end Locks
end Tpcc
