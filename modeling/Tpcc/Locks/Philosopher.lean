import Mathlib.Logic.Function.Basic
import Tpcc.Transition.LockOrder
import Tpcc.Transition.System

/-!
# `Locks.Philosopher` — the dining philosophers

`Philosopher::EatThenThink`, `AcquireForks`, `Eat` and `ReleaseForks`, one `lock` or `unlock` of a fork at a
time, for a table of any number of seats. `Table` is not part of the repository: seat `i` has the left fork `i`
and the right fork `(i + 1) % n`.

A philosopher of an even seat takes the left fork first, one of an odd seat the right one. So the forks are
taken in the order of a rank (`rank_first_lt`): even ones, then fork 0, then odd ones.

## Contents
- **The table**, and the philosophers at it.
- **Ownership.** `Inv`: a fork is locked by those who are to unlock it.
- **Progress**, from the order of the forks.
-/

namespace Tpcc
namespace Locks
namespace Dining

open Transition

/-- `Table`: its seats, with as many plates and forks. -/
structure Table where
  seats : Nat
  two_le : 2 ≤ seats

namespace Table

/-- `LeftFork`. -/
def leftFork (_ : Table) (seat : Nat) : Nat := seat

/-- `RightFork`. -/
def rightFork (t : Table) (seat : Nat) : Nat := (seat + 1) % t.seats

/-- `ToRight`. -/
def toRight (t : Table) (seat : Nat) : Nat := (seat + 1) % t.seats

/-- The fork that `AcquireForks` locks, and `ReleaseForks` unlocks, first. -/
def first (t : Table) (seat : Nat) : Nat := if seat % 2 = 0 then t.leftFork seat else t.rightFork seat

/-- The other one. -/
def second (t : Table) (seat : Nat) : Nat := if seat % 2 = 0 then t.rightFork seat else t.leftFork seat

end Table

/-- Where a philosopher is. -/
inductive Pc where
  /-- In `Think`, or in front of the first `EatThenThink`. -/
  | think
  /-- `AcquireForks`: the first `lock()`. -/
  | lockFirst
  /-- `AcquireForks`: the second `lock()`. -/
  | lockSecond
  /-- In `Eat`. -/
  | eat
  /-- `ReleaseForks`: the first `unlock()`. -/
  | unlockFirst
  /-- `ReleaseForks`: the second `unlock()`. -/
  | unlockSecond
  deriving DecidableEq

/-- The forks, each with the seat that has locked it, and the philosophers, by their seats. -/
structure State where
  forks : Nat → Option Nat := fun _ => none
  philosophers : Nat → Pc := fun _ => .think
  meals_ : Nat → Nat := fun _ => 0

namespace State

def goOn (s : State) (seat : Nat) (pc : Pc) : State :=
  { s with philosophers := Function.update s.philosophers seat pc }

/-- `fork.lock()`, which blocks while the fork is locked. -/
def lock (s : State) (seat fork : Nat) : Option State :=
  match s.forks fork with
  | none => some { s with forks := Function.update s.forks fork (some seat) }
  | some _ => none

/-- `fork.unlock()`. -/
def unlock (s : State) (fork : Nat) : State := { s with forks := Function.update s.forks fork none }

end State

/-- The philosopher of a seat takes the next step. -/
def next (t : Table) (s : State) (seat : Nat) : Option State :=
  if seat < t.seats then
    match s.philosophers seat with
    | .think => some (s.goOn seat .lockFirst)
    | .lockFirst => (s.lock seat (t.first seat)).map fun s => s.goOn seat .lockSecond
    | .lockSecond => (s.lock seat (t.second seat)).map fun s => s.goOn seat .eat
    | .eat => some { s.goOn seat .unlockFirst with meals_ := Function.update s.meals_ seat (s.meals_ seat + 1) }
    | .unlockFirst => some ((s.unlock (t.first seat)).goOn seat .unlockSecond)
    | .unlockSecond => some ((s.unlock (t.second seat)).goOn seat .think)
  else none

/-- All runs at a table. -/
def system (t : Table) : System State := System.ofNext {} (next t)

/-! ## Ownership -/

/-- The forks that a philosopher has locked. -/
def held (t : Table) (seat : Nat) : Pc → List Nat
  | .think => []
  | .lockFirst => []
  | .lockSecond => [t.first seat]
  | .eat => [t.first seat, t.second seat]
  | .unlockFirst => [t.first seat, t.second seat]
  | .unlockSecond => [t.second seat]

/-- The fork that a philosopher is about to unlock. -/
def unlocks (t : Table) (seat : Nat) : Pc → Option Nat
  | .unlockFirst => some (t.first seat)
  | .unlockSecond => some (t.second seat)
  | _ => none

/-- The fork that a philosopher is about to lock. -/
def wants (t : Table) (seat : Nat) : Pc → Option Nat
  | .lockFirst => some (t.first seat)
  | .lockSecond => some (t.second seat)
  | _ => none

/-- A fork is locked by the philosopher that holds it. -/
def Inv (t : Table) (s : State) : Prop :=
  ∀ fork seat, s.forks fork = some seat ↔ seat < t.seats ∧ fork ∈ held t seat (s.philosophers seat)

variable {t : Table} {s s' : State} {seat fork : Nat} {pc : Pc}

theorem toRight_ne (t : Table) (seat : Nat) (h : seat < t.seats) : t.toRight seat ≠ seat := by
  have htwo := t.two_le
  unfold Table.toRight
  rcases Nat.lt_or_eq_of_le (show seat + 1 ≤ t.seats from h) with hlt | heq
  · rw [Nat.mod_eq_of_lt hlt]
    omega
  · rw [heq, Nat.mod_self]
    omega

theorem first_ne_second (h : seat < t.seats) : t.first seat ≠ t.second seat := by
  have hne := toRight_ne t seat h
  unfold Table.first Table.second Table.leftFork Table.rightFork
  split
  · exact hne.symm
  · exact hne

/-- In `Eat`, a philosopher holds both forks. -/
theorem mem_held_eat : fork ∈ held t seat .eat ↔ fork = t.leftFork seat ∨ fork = t.rightFork seat := by
  simp only [held, Table.first, Table.second, List.mem_cons, List.not_mem_nil, or_false]
  split
  · exact Iff.rfl
  · exact or_comm

/-- The other philosophers hold what they held. -/
theorem Inv.of_update {forks : Nat → Option Nat} (h : Inv t s)
    (hself : ∀ fork, forks fork = some seat ↔ seat < t.seats ∧ fork ∈ held t seat pc)
    (hothers : ∀ fork other, other ≠ seat → (forks fork = some other ↔ s.forks fork = some other))
    {meals : Nat → Nat} :
    Inv t { forks := forks, philosophers := Function.update s.philosophers seat pc, meals_ := meals } := by
  intro fork other
  by_cases hother : other = seat
  · subst hother
    show forks fork = some other ↔ other < t.seats ∧ fork ∈ held t other (Function.update s.philosophers other pc other)
    rw [Function.update_self]
    exact hself fork
  · show forks fork = some other ↔ other < t.seats ∧ fork ∈ held t other (Function.update s.philosophers seat pc other)
    rw [Function.update_of_ne hother, hothers fork other hother]
    exact h fork other

/-- A step that moves no fork. -/
theorem Inv.goOn (h : Inv t s) (hheld : held t seat pc = held t seat (s.philosophers seat)) {meals : Nat → Nat} :
    Inv t { s.goOn seat pc with meals_ := meals } := by
  apply h.of_update
  · intro fork
    rw [hheld]
    exact h fork seat
  · intro fork other _
    rfl

/-- A fork that was free is locked. -/
theorem Inv.lock (h : Inv t s) (hseat : seat < t.seats) (hfree : s.forks fork = none)
    (hheld : ∀ f, f ∈ held t seat pc ↔ f = fork ∨ f ∈ held t seat (s.philosophers seat)) :
    Inv t (State.goOn { s with forks := Function.update s.forks fork (some seat) } seat pc) := by
  apply h.of_update
  · intro f
    rw [hheld]
    show Function.update s.forks fork (some seat) f = some seat ↔ _
    by_cases hf : f = fork
    · subst hf
      rw [Function.update_self]
      exact ⟨fun _ => ⟨hseat, .inl rfl⟩, fun _ => rfl⟩
    · rw [Function.update_of_ne hf, h f seat, or_iff_right hf]
  · intro f other hother
    show Function.update s.forks fork (some seat) f = some other ↔ _
    by_cases hf : f = fork
    · subst hf
      rw [Function.update_self, hfree]
      constructor
      · intro heq
        exact absurd (Option.some.inj heq).symm hother
      · intro heq
        cases heq
    · rw [Function.update_of_ne hf]

/-- A fork is unlocked by the philosopher that holds it. -/
theorem Inv.unlock (h : Inv t s) (hfork : s.forks fork = some seat)
    (hheld : ∀ f, f ∈ held t seat pc ↔ f ≠ fork ∧ f ∈ held t seat (s.philosophers seat)) :
    Inv t ((s.unlock fork).goOn seat pc) := by
  apply h.of_update
  · intro f
    rw [hheld]
    show Function.update s.forks fork none f = some seat ↔ _
    by_cases hf : f = fork
    · subst hf
      rw [Function.update_self]
      constructor
      · intro heq
        cases heq
      · rintro ⟨-, hne, -⟩
        exact absurd rfl hne
    · rw [Function.update_of_ne hf, h f seat]
      simp only [ne_eq, hf, not_false_eq_true, true_and]
  · intro f other hother
    show Function.update s.forks fork none f = some other ↔ _
    by_cases hf : f = fork
    · subst hf
      rw [Function.update_self, hfork]
      constructor
      · intro heq
        cases heq
      · intro heq
        exact absurd (Option.some.inj heq).symm hother
    · rw [Function.update_of_ne hf]

theorem inv_initial (t : Table) : Inv t {} := by
  intro fork seat
  constructor
  · intro h
    cases h
  · rintro ⟨-, h⟩
    cases h

/-- Whoever is about to unlock a fork has locked it. -/
theorem Inv.owner (h : Inv t s) (hseat : seat < t.seats) (hunlocks : unlocks t seat (s.philosophers seat) = some fork) :
    s.forks fork = some seat := by
  rw [h fork seat]
  refine ⟨hseat, ?_⟩
  cases hpc : s.philosophers seat with
  | unlockFirst =>
      rw [hpc] at hunlocks
      cases hunlocks
      exact List.mem_cons_self
  | unlockSecond =>
      rw [hpc] at hunlocks
      cases hunlocks
      exact List.mem_cons_self
  | _ =>
      rw [hpc] at hunlocks
      cases hunlocks

/-- **Every step keeps the invariant.** -/
theorem Inv.next (h : Inv t s) (hstep : next t s seat = some s') : Inv t s' := by
  unfold Dining.next at hstep
  split at hstep
  · next hseat =>
      cases hpc : s.philosophers seat with
      | think =>
          simp only [hpc, Option.some.injEq] at hstep
          subst hstep
          apply h.goOn
          rw [hpc]
          rfl
      | lockFirst =>
          simp only [hpc, State.lock] at hstep
          split at hstep
          · next hfree =>
              cases hstep
              apply h.lock hseat hfree
              intro f
              rw [hpc]
              exact List.mem_cons
          · cases hstep
      | lockSecond =>
          simp only [hpc, State.lock] at hstep
          split at hstep
          · next hfree =>
              cases hstep
              apply h.lock hseat hfree
              intro f
              rw [hpc]
              simp only [held, List.mem_cons, List.not_mem_nil, or_false]
              exact or_comm
          · cases hstep
      | eat =>
          simp only [hpc, Option.some.injEq] at hstep
          subst hstep
          apply h.goOn
          rw [hpc]
          rfl
      | unlockFirst =>
          simp only [hpc, Option.some.injEq] at hstep
          subst hstep
          apply h.unlock (h.owner hseat (by rw [hpc]; rfl))
          intro f
          rw [hpc]
          simp only [held, List.mem_cons, List.not_mem_nil, or_false]
          constructor
          · rintro rfl
            exact ⟨(first_ne_second hseat).symm, .inr rfl⟩
          · rintro ⟨hne, hf⟩
            exact hf.resolve_left hne
      | unlockSecond =>
          simp only [hpc, Option.some.injEq] at hstep
          subst hstep
          apply h.unlock (h.owner hseat (by rw [hpc]; rfl))
          intro f
          rw [hpc]
          simp only [held, List.mem_cons, List.not_mem_nil, or_false]
          exact ⟨False.elim, fun hf => hf.1 hf.2⟩
  · cases hstep

theorem inv (h : (system t).Reachable s) : Inv t s :=
  h.invariant_next (inv_initial t) fun _ _ _ hs hstep => hs.next hstep

/-! ## Progress -/

/-- The order of the forks. -/
def rank (fork : Nat) : Nat := if fork % 2 = 1 then 2 else if fork = 0 then 1 else 0

theorem rank_odd (h : fork % 2 = 1) : rank fork = 2 := if_pos h

theorem rank_even (h : fork % 2 = 0) : rank fork ≤ 1 := by
  unfold rank
  split
  · omega
  · split <;> omega

theorem rank_le (fork : Nat) : rank fork ≤ 2 := by
  rcases Nat.mod_two_eq_zero_or_one fork with heven | hodd
  · exact Nat.le_succ_of_le (rank_even heven)
  · exact Nat.le_of_eq (rank_odd hodd)

/-- **The forks are taken in their order**, also where two seats with even numbers are neighbours. -/
theorem rank_first_lt (h : seat < t.seats) : rank (t.first seat) < rank (t.second seat) := by
  have htwo := t.two_le
  unfold Table.first Table.second Table.leftFork Table.rightFork
  rcases Nat.mod_two_eq_zero_or_one seat with heven | hodd
  · rw [if_pos heven, if_pos heven]
    rcases Nat.lt_or_eq_of_le (show seat + 1 ≤ t.seats from h) with hlt | hlast
    · have heven' := rank_even heven
      rw [Nat.mod_eq_of_lt hlt, rank_odd (show (seat + 1) % 2 = 1 by omega)]
      omega
    · -- the last seat of an odd number of them: its right fork is fork 0
      rw [hlast, Nat.mod_self]
      have hrank : rank seat = 0 := by
        unfold rank
        rw [if_neg (by omega), if_neg (by omega)]
      rw [hrank]
      decide
  · have heven' : rank ((seat + 1) % t.seats) ≤ 1 := by
      apply rank_even
      rcases Nat.lt_or_eq_of_le (show seat + 1 ≤ t.seats from h) with hlt | hlast
      · rw [Nat.mod_eq_of_lt hlt]
        omega
      · rw [hlast, Nat.mod_self]
    rw [if_neg (by omega), if_neg (by omega), rank_odd hodd]
    omega

/-- A philosopher wants a fork behind the ones it holds. -/
theorem rank_lt_of_wants {fork' : Nat} (hseat : seat < t.seats) (hheld : fork ∈ held t seat pc)
    (hwants : wants t seat pc = some fork') : rank fork < rank fork' := by
  cases pc with
  | lockSecond =>
      cases hwants
      obtain rfl := List.mem_singleton.mp hheld
      exact rank_first_lt hseat
  | lockFirst => cases hheld
  | _ => cases hwants

/-- Who does not wait for a fork can take a step. -/
theorem exists_next (hseat : seat < t.seats)
    (hfree : ∀ fork, wants t seat (s.philosophers seat) = some fork → s.forks fork = none) :
    ∃ s', next t s seat = some s' := by
  unfold next
  rw [if_pos hseat]
  cases hpc : s.philosophers seat with
  | lockFirst =>
      have hlock := hfree (t.first seat) (by rw [hpc]; rfl)
      simp only [State.lock, hlock]
      exact ⟨_, rfl⟩
  | lockSecond =>
      have hlock := hfree (t.second seat) (by rw [hpc]; rfl)
      simp only [State.lock, hlock]
      exact ⟨_, rfl⟩
  | _ => exact ⟨_, rfl⟩

/-- **Some philosopher can take a step.** -/
theorem Inv.progress (h : Inv t s) : ∃ seat < t.seats, ∃ s', Dining.next t s seat = some s' := by
  have htwo := t.two_le
  by_cases hlocked : ∃ fork seat, s.forks fork = some seat
  · obtain ⟨fork, seat, hfork⟩ := hlocked
    -- climb the chain of philosophers that wait for each other, from the one that holds this fork
    have hordered : ∀ seat fork fork', s.forks fork = some seat →
        (seat < t.seats ∧ wants t seat (s.philosophers seat) = some fork') → rank fork < rank fork' :=
      fun seat fork fork' hholds hwants => rank_lt_of_wants hwants.1 ((h fork seat).mp hholds).2 hwants.2
    obtain ⟨seat', fork', hholds, hnot⟩ := exists_not_waits rank rank_le hordered hfork
    have hseat' := ((h fork' seat').mp hholds).1
    refine ⟨seat', hseat', exists_next hseat' ?_⟩
    intro f hwants
    cases hf : s.forks f with
    | none => rfl
    | some other => exact absurd ⟨f, other, ⟨hseat', hwants⟩, hf⟩ hnot
  · refine ⟨0, by omega, exists_next (by omega) ?_⟩
    intro f _
    cases hf : s.forks f with
    | none => rfl
    | some other => exact absurd ⟨f, other, hf⟩ hlocked

/-- What is promised of a table. -/
structure Dines (t : Table) (s : State) : Prop where
  neighbours : ∀ seat < t.seats, ¬ (s.philosophers seat = .eat ∧ s.philosophers (t.toRight seat) = .eat)
  owner : ∀ seat < t.seats, ∀ fork, unlocks t seat (s.philosophers seat) = some fork → s.forks fork = some seat
  progress : ∃ seat < t.seats, ∃ s', next t s seat = some s'

/-- **The dining philosophers.** In every reachable state of every table, neighbours are not in `Eat` together,
    a fork is unlocked by the philosopher that holds it, and some philosopher can take a step. -/
theorem philosophers_dine (t : Table) {s : State} (h : (system t).Reachable s) : Dines t s := by
  have hinv := inv h
  refine ⟨?_, fun seat hseat fork hunlocks => hinv.owner hseat hunlocks, hinv.progress⟩
  rintro seat hseat ⟨heat, heat'⟩
  -- the fork between them has two owners
  have hright : s.forks (t.toRight seat) = some seat := by
    rw [hinv]
    refine ⟨hseat, ?_⟩
    rw [heat]
    exact mem_held_eat.mpr (.inr rfl)
  have hleft : s.forks (t.toRight seat) = some (t.toRight seat) := by
    rw [hinv]
    refine ⟨Nat.mod_lt _ (Nat.lt_of_lt_of_le Nat.two_pos t.two_le), ?_⟩
    rw [heat']
    exact mem_held_eat.mpr (.inl rfl)
  rw [hright] at hleft
  exact toRight_ne t seat hseat (Option.some.inj hleft).symm

/-- Seats 0 and 2 are neighbours, and both even: philosopher 0 eats, and the others wait. -/
theorem philosophers_dine_three : ∃ s, (system ⟨3, by decide⟩).Reachable s ∧ s.philosophers 0 = .eat ∧
    s.philosophers 2 = .lockSecond ∧ Dines ⟨3, by decide⟩ s := by
  have hrun : ∃ s, System.run (next ⟨3, by decide⟩) {} [0, 2, 2, 0, 0, 1] = some s ∧ s.philosophers 0 = .eat ∧
      s.philosophers 2 = .lockSecond := ⟨_, rfl, rfl, rfl⟩
  obtain ⟨s, hs, heat, hwait⟩ := hrun
  have hreach : (system ⟨3, by decide⟩).Reachable s := System.reachable_of_run _ hs
  exact ⟨s, hreach, heat, hwait, philosophers_dine _ hreach⟩

end Dining
end Locks
end Tpcc
