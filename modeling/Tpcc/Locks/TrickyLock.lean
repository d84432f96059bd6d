import Mathlib.Data.Fintype.Basic
import Tpcc.Transition.System
import Tpcc.Transition.Total

/-!
# `Locks.TrickyLock` — a lock that gives way for ever

The test `LiveLock`: contenders are fibers of one thread, and `contender` runs from one `Yield` to the next without being
disturbed. It enters its critical section if `thread_count` was 0, and else yields, takes itself out of `thread_count`
again and tries once more. So a fiber that waits is counted, and two of them keep each other out.

There are any number of contenders here (the test has two) and of iterations.

## Contents
- **The contenders.** `turn`, what a fiber does when it is resumed.
- **Any schedule.** `Counted`: what `thread_count` counts. Two fibers that wait, wait for ever.
- **The run loop**, which resumes the fibers in turns: `Round`.
- **Results.** `trickyLock_livelocks`.
-/

namespace Tpcc
namespace Locks
namespace TrickyLock

open Transition

/-! ## The contenders -/

/-- Where a contender is, in iteration `i`. -/
inductive Pc where
  /-- It has not run yet. -/
  | start
  /-- At `Yield`, in the loop of `Lock`. -/
  | waits (i : Nat)
  /-- At `Yield`, in front of `Unlock`. -/
  | holds (i : Nat)
  | finished
  deriving DecidableEq

structure State (ι : Type) where
  thread_count : Nat := 0
  cs_count : Nat := 0
  pc : ι → Pc := fun _ => .start

variable {ι : Type} [DecidableEq ι]

namespace State

def setPc (s : State ι) (f : ι) (pc : Pc) : State ι := { s with pc := Function.update s.pc f pc }

/-- `Lock`, up to the next `Yield`: it has yielded in the loop, or behind the critical section. -/
def lock (s : State ι) (f : ι) (i : Nat) : State ι :=
  if 0 < s.thread_count then { s with thread_count := s.thread_count + 1 }.setPc f (.waits i)
  else { s with thread_count := s.thread_count + 1, cs_count := s.cs_count + 1 }.setPc f (.holds i)

/-- `--thread_count`. -/
def release (s : State ι) : State ι := { s with thread_count := s.thread_count - 1 }

/-- The test of the `for` loop, and the iteration. -/
def iterate (s : State ι) (kIterations : Nat) (f : ι) (i : Nat) : State ι :=
  if i < kIterations then s.lock f i else s.setPc f .finished

end State

/-- Fiber `f` is resumed, and goes on to its next `Yield` or to its end. -/
def turn (kIterations : Nat) (s : State ι) (f : ι) : Option (State ι) :=
  match s.pc f with
  | .start => some (s.iterate kIterations f 0)
  | .waits i => some (s.release.lock f i)
  | .holds i => some (s.release.iterate kIterations f (i + 1))
  | .finished => none

/-- All schedules of the contenders. -/
def system (ι : Type) [DecidableEq ι] (kIterations : Nat) : System (State ι) := System.ofNext {} (turn kIterations)

/-! ## Any schedule -/

/-- Whether `thread_count` counts the contender. -/
def counts : Pc → Nat
  | .waits _ => 1
  | .holds _ => 1
  | _ => 0

section

variable [Fintype ι] {kIterations : Nat} {s s' : State ι} {f g : ι} {i j : Nat}

/-- `thread_count` counts the contenders in `Lock` and behind it, and one at most is behind it. -/
structure Inv (s : State ι) : Prop where
  count : s.thread_count = total counts s.pc
  exclusive : ∀ f g i j, s.pc f = .holds i → s.pc g = .holds j → f = g

/-- The same, where fiber `f` has been taken out. -/
structure Out (s : State ι) (f : ι) : Prop where
  count : s.thread_count + counts (s.pc f) = total counts s.pc
  exclusive : ∀ g g' i j, g ≠ f → g' ≠ f → s.pc g = .holds i → s.pc g' = .holds j → g = g'

omit [DecidableEq ι] in
theorem Inv.start (h : Inv s) (hf : s.pc f = .start) : Out s f := by
  refine ⟨?_, fun g g' i j _ _ => h.exclusive g g' i j⟩
  rw [hf]
  exact h.count

omit [DecidableEq ι] in
/-- A contender that is counted takes itself out. -/
theorem Inv.release (h : Inv s) (hf : counts (s.pc f) = 1) : Out s.release f := by
  have hle := le_total counts s.pc f
  have hcount := h.count
  refine ⟨?_, fun g g' i j _ _ => h.exclusive g g' i j⟩
  show s.thread_count - 1 + counts (s.pc f) = total counts s.pc
  omega

theorem Out.count_setPc (h : Out s f) (pc : Pc) :
    s.thread_count + counts pc = total counts (Function.update s.pc f pc) := by
  have hcount := h.count
  have hupdate := total_update counts s.pc f pc
  omega

/-- What the others are, where fiber `f` becomes `pc`. -/
theorem Out.exclusive_setPc (h : Out s f) {pc : Pc} (hpc : ∀ i, pc = .holds i → ∀ g, g ≠ f → counts (s.pc g) = 0)
    (g g' : ι) (i j : Nat) (hg : Function.update s.pc f pc g = .holds i) (hg' : Function.update s.pc f pc g' = .holds j) :
    g = g' := by
  by_cases hgf : g = f <;> by_cases hgf' : g' = f
  · exact hgf.trans hgf'.symm
  · rw [hgf, Function.update_self] at hg
    rw [Function.update_of_ne hgf'] at hg'
    have hzero := hpc i hg g' hgf'
    rw [hg'] at hzero
    cases hzero
  · rw [hgf', Function.update_self] at hg'
    rw [Function.update_of_ne hgf] at hg
    have hzero := hpc j hg' g hgf
    rw [hg] at hzero
    cases hzero
  · rw [Function.update_of_ne hgf] at hg
    rw [Function.update_of_ne hgf'] at hg'
    exact h.exclusive g g' i j hgf hgf' hg hg'

omit [DecidableEq ι] in
/-- Another contender that is counted keeps the counter above 0. -/
theorem Out.pos (h : Out s f) (hne : g ≠ f) : counts (s.pc g) ≤ s.thread_count := by
  have hle := add_le_total counts s.pc hne
  have hcount := h.count
  omega

theorem Out.lock (h : Out s f) (i : Nat) : Inv (s.lock f i) := by
  unfold State.lock
  split
  · exact ⟨h.count_setPc (.waits i), h.exclusive_setPc nofun⟩
  · next hzero =>
      refine ⟨h.count_setPc (.holds i), h.exclusive_setPc fun _ _ g hne => ?_⟩
      have hpos := h.pos hne
      omega

theorem Out.iterate (h : Out s f) (i : Nat) : Inv (s.iterate kIterations f i) := by
  unfold State.iterate
  split
  · exact h.lock i
  · exact ⟨h.count_setPc .finished, h.exclusive_setPc nofun⟩

/-- **A turn keeps the invariant.** -/
theorem Inv.turn (h : Inv s) (hturn : turn kIterations s f = some s') : Inv s' := by
  unfold TrickyLock.turn at hturn
  split at hturn
  · next hf =>
      obtain rfl := Option.some.inj hturn
      exact (h.start hf).iterate 0
  · next i hf =>
      obtain rfl := Option.some.inj hturn
      exact (h.release (by rw [hf]; rfl)).lock i
  · next i hf =>
      obtain rfl := Option.some.inj hturn
      exact (h.release (by rw [hf]; rfl)).iterate (i + 1)
  · cases hturn

theorem reachable_inv (h : (system ι kIterations).Reachable s) : Inv s := by
  refine h.invariant_next (P := Inv) ⟨?_, nofun⟩ fun _ _ _ hinv hturn => hinv.turn hturn
  exact (total_eq_zero fun _ => rfl).symm

/-! ### Two that wait -/

/-- What a turn of fiber `f` is, while another contender waits. -/
structure GivesWay (s s' : State ι) (f : ι) : Prop where
  cs_count : s'.cs_count = s.cs_count
  others : ∀ g, g ≠ f → s'.pc g = s.pc g
  waits : ∀ i, s.pc f = .waits i → s'.pc f = .waits i

omit [Fintype ι] in
theorem lock_of_pos (h : 0 < s.thread_count) (i : Nat) :
    s.lock f i = { s with thread_count := s.thread_count + 1 }.setPc f (.waits i) := if_pos h

omit [Fintype ι] in
theorem givesWay_iterate (h : 0 < s.thread_count) (hf : ∀ i, s.pc f ≠ .waits i) (i : Nat) :
    GivesWay s (s.iterate kIterations f i) f := by
  unfold State.iterate
  split
  · rw [lock_of_pos h]
    exact ⟨rfl, fun g hne => Function.update_of_ne hne .., fun i hi => absurd hi (hf i)⟩
  · exact ⟨rfl, fun g hne => Function.update_of_ne hne .., fun i hi => absurd hi (hf i)⟩

/-- **While somebody waits, nobody else enters.** -/
theorem Inv.givesWay (h : Inv s) (hg : s.pc g = .waits j) (hne : g ≠ f) (hturn : TrickyLock.turn kIterations s f = some s') :
    GivesWay s s' f := by
  have hpos : ∀ {s₁ : State ι}, Out s₁ f → s₁.pc = s.pc → 0 < s₁.thread_count := by
    intro s₁ hout hpc
    have hle := hout.pos hne
    rw [hpc, hg] at hle
    exact hle
  unfold TrickyLock.turn at hturn
  split at hturn
  · next hf =>
      obtain rfl := Option.some.inj hturn
      exact givesWay_iterate (hpos (h.start hf) rfl) (by simp [hf]) 0
  · next i hf =>
      obtain rfl := Option.some.inj hturn
      rw [lock_of_pos (hpos (h.release (by rw [hf]; rfl)) rfl)]
      refine ⟨rfl, fun g hne => Function.update_of_ne hne .., fun i' hi' => ?_⟩
      rw [hf] at hi'
      cases hi'
      exact Function.update_self ..
  · next i hf =>
      obtain rfl := Option.some.inj hturn
      have hway : GivesWay s.release (s.release.iterate kIterations f (i + 1)) f := by
        refine givesWay_iterate (hpos (h.release (by rw [hf]; rfl)) rfl) ?_ (i + 1)
        intro i' hi'
        exact nomatch hf.symm.trans hi'
      exact ⟨hway.cs_count, hway.others, hway.waits⟩
  · cases hturn

/-- **Two that wait, wait for ever**, and nobody enters any more. -/
theorem livelock_steps (hs : (system ι kIterations).Reachable s) (hne : f ≠ g) (hf : s.pc f = .waits i)
    (hg : s.pc g = .waits j) (h : (system ι kIterations).Steps s s') :
    s'.pc f = .waits i ∧ s'.pc g = .waits j ∧ s'.cs_count = s.cs_count := by
  induction h with
  | refl => exact ⟨hf, hg, rfl⟩
  | tail hsteps hstep ih =>
      obtain ⟨hf, hg, hcount⟩ := ih
      obtain ⟨k, hturn⟩ := hstep
      have hinv := reachable_inv (hs.steps hsteps)
      by_cases hk : f = k
      · subst hk
        have hway := hinv.givesWay hg (Ne.symm hne) hturn
        exact ⟨hway.waits i hf, (hway.others g (Ne.symm hne)).trans hg, hway.cs_count.trans hcount⟩
      · have hway := hinv.givesWay hf hk hturn
        refine ⟨(hway.others f hk).trans hf, ?_, hway.cs_count.trans hcount⟩
        by_cases hgk : g = k
        · subst hgk
          exact hway.waits j hg
        · exact (hway.others g hgk).trans hg

end

/-! ## The run loop -/

/-- The run loop: the fibers that wait to be resumed, in order. -/
structure RunLoop (ι : Type) where
  state : State ι := {}
  queue : List ι

/-- The first fiber is resumed; `Yield` puts it behind the others. -/
def runOne (kIterations : Nat) (l : RunLoop ι) : Option (RunLoop ι) :=
  match l.queue with
  | [] => none
  | f :: rest =>
      (turn kIterations l.state f).map fun s => ⟨s, if s.pc f = .finished then rest else rest ++ [f]⟩

/-- So many iterations of the run loop. -/
def run (kIterations : Nat) : Nat → RunLoop ι → Option (RunLoop ι)
  | 0, l => some l
  | m + 1, l => (runOne kIterations l).bind (run kIterations m)

section

variable {kIterations : Nat} {l : RunLoop ι} {fs : List ι}

/-- Where the run loop is, after its first iteration: the first contender is behind its critical section, and the next
    ones find it there; or all contenders wait. -/
inductive Round (fs : List ι) (l : RunLoop ι) : Prop where
  | entering {f : ι} {waiting todo : List ι} (queue : l.queue = todo ++ f :: waiting) (fibers : fs = f :: (waiting ++ todo))
      (holds : l.state.pc f = .holds 0) (waits : ∀ g ∈ waiting, ∃ i, l.state.pc g = .waits i)
      (start : ∀ g ∈ todo, l.state.pc g = .start) (count : l.state.thread_count = waiting.length + 1)
      (once : l.state.cs_count = 1)
  | livelock (queue : l.queue.Perm fs) (waits : ∀ g ∈ l.queue, ∃ i, l.state.pc g = .waits i)
      (count : l.state.thread_count = l.queue.length) (once : l.state.cs_count = 1)

omit [DecidableEq ι] in
theorem Round.facts (h : Round fs l) : l.queue.Perm fs ∧ l.state.cs_count = 1 := by
  cases h with
  | entering queue fibers _ _ _ _ once =>
      refine ⟨?_, once⟩
      rw [queue, fibers]
      exact List.perm_middle.trans (List.perm_append_comm.cons _)
  | livelock queue _ _ once => exact ⟨queue, once⟩

/-- The first fiber of the queue comes to wait, in some iteration. -/
theorem runOne_waits {f : ι} {rest : List ι} (hqueue : l.queue = f :: rest) {s : State ι} {i : Nat}
    (hturn : turn kIterations l.state f = some (s.lock f i)) (hpos : 0 < s.thread_count) :
    runOne kIterations l =
      some ⟨{ s with thread_count := s.thread_count + 1 }.setPc f (.waits i), rest ++ [f]⟩ := by
  have hpc : ({ s with thread_count := s.thread_count + 1 }.setPc f (.waits i)).pc f ≠ .finished := by
    simp [State.setPc]
  unfold runOne
  rw [hqueue]
  simp only [hturn, lock_of_pos hpos, Option.map_some, if_neg hpc]

/-- Those that wait still do, and `f` does now. -/
theorem waits_update {s : State ι} {f : ι} {rest : List ι} (hrest : ∀ g ∈ rest, ∃ i, s.pc g = .waits i) (i : Nat) :
    ∀ g ∈ rest ++ [f], ∃ j, Function.update s.pc f (.waits i) g = .waits j := by
  intro g hg
  by_cases hgf : g = f
  · subst hgf
    exact ⟨i, Function.update_self ..⟩
  · rcases List.mem_append.mp hg with hg | hg
    · obtain ⟨j, hj⟩ := hrest g hg
      exact ⟨j, (Function.update_of_ne hgf ..).trans hj⟩
    · exact absurd (List.mem_singleton.mp hg) hgf

/-- The next contender finds the first one behind its critical section. -/
theorem enter_next {f t : ι} {waiting todo : List ι} (hk : 2 ≤ kIterations) (hnodup : fs.Nodup)
    (queue : l.queue = t :: todo ++ f :: waiting) (fibers : fs = f :: (waiting ++ t :: todo))
    (holds : l.state.pc f = .holds 0) (waits : ∀ g ∈ waiting, ∃ i, l.state.pc g = .waits i)
    (start : ∀ g ∈ t :: todo, l.state.pc g = .start) (count : l.state.thread_count = waiting.length + 1)
    (once : l.state.cs_count = 1) : ∃ l', runOne kIterations l = some l' ∧ Round fs l' := by
  have hturn : turn kIterations l.state t = some (l.state.lock t 0) := by
    simp only [turn, start t List.mem_cons_self, State.iterate, if_pos (Nat.lt_of_lt_of_le Nat.zero_lt_two hk)]
  refine ⟨_, runOne_waits queue hturn (count ▸ Nat.succ_pos _), ?_⟩
  rw [fibers] at hnodup
  obtain ⟨hf, hnodup⟩ := List.nodup_cons.mp hnodup
  obtain ⟨-, htodo, hdisjoint⟩ := List.nodup_append.mp hnodup
  have hft : f ≠ t := fun heq => hf (heq ▸ List.mem_append_right _ List.mem_cons_self)
  have hqueue : (todo ++ f :: waiting) ++ [t] = todo ++ f :: (waiting ++ [t]) := by
    rw [List.append_assoc, List.cons_append]
  have hfibers : fs = f :: ((waiting ++ [t]) ++ todo) := by
    rw [fibers, List.append_assoc, List.singleton_append]
  refine .entering hqueue hfibers ?_ ?_ ?_ ?_ once
  · exact (Function.update_of_ne hft ..).trans holds
  · exact waits_update waits 0
  · intro g hg
    have hgt : g ≠ t := fun heq => (List.nodup_cons.mp htodo).1 (heq ▸ hg)
    exact (Function.update_of_ne hgt ..).trans (start g (List.mem_cons_of_mem t hg))
  · show l.state.thread_count + 1 = (waiting ++ [t]).length + 1
    rw [count, List.length_append]
    rfl

/-- **One iteration of the run loop.** -/
theorem Round.next (hk : 2 ≤ kIterations) (hnodup : fs.Nodup) (hlength : 2 ≤ fs.length) (h : Round fs l) :
    ∃ l', runOne kIterations l = some l' ∧ Round fs l' := by
  cases h with
  | @entering f waiting todo queue fibers holds waits start count once =>
      cases todo with
      | cons t todo => exact enter_next hk hnodup queue fibers holds waits start count once
      | nil =>
          -- the first contender unlocks, and finds the others waiting
          have hwaiting : 0 < waiting.length := by
            rw [fibers, List.append_nil, List.length_cons] at hlength
            exact Nat.lt_of_succ_lt_succ hlength
          have hturn : turn kIterations l.state f = some (l.state.release.lock f 1) := by
            simp only [turn, holds, State.iterate, if_pos (Nat.lt_of_lt_of_le Nat.one_lt_two hk)]
          have hcount : l.state.release.thread_count = waiting.length := by
            show l.state.thread_count - 1 = waiting.length
            rw [count, Nat.add_sub_cancel]
          refine ⟨_, runOne_waits queue hturn (hcount ▸ hwaiting), .livelock ?_ (waits_update waits 1) ?_ once⟩
          · rw [fibers, List.append_nil]
            exact List.perm_append_singleton f waiting
          · show l.state.release.thread_count + 1 = (waiting ++ [f]).length
            rw [hcount, List.length_append]
            rfl
  | livelock queue waits count once =>
      cases hqueue : l.queue with
      | nil =>
          have hperm := queue.length_eq
          rw [hqueue, List.length_nil] at hperm
          rw [← hperm] at hlength
          cases hlength
      | cons f rest =>
          rw [hqueue] at queue waits count
          obtain ⟨i, hf⟩ := waits f List.mem_cons_self
          have hturn : turn kIterations l.state f = some (l.state.release.lock f i) := by simp only [turn, hf]
          have hcount : l.state.release.thread_count = rest.length := by
            show l.state.thread_count - 1 = rest.length
            rw [count, List.length_cons, Nat.add_sub_cancel]
          have hrest : 0 < rest.length := by
            rw [← queue.length_eq, List.length_cons] at hlength
            exact Nat.lt_of_succ_lt_succ hlength
          refine ⟨_, runOne_waits hqueue hturn (hcount ▸ hrest), .livelock ?_ ?_ ?_ once⟩
          · exact (List.perm_append_singleton f rest).trans queue
          · exact waits_update (fun g hg => waits g (List.mem_cons_of_mem f hg)) i
          · show l.state.release.thread_count + 1 = (rest ++ [f]).length
            rw [hcount, List.length_append]
            rfl

/-- The first contender enters. -/
theorem first_round (hk : 2 ≤ kIterations) (f : ι) (todo : List ι) (hf : f ∉ todo) :
    ∃ l', runOne kIterations { queue := f :: todo } = some l' ∧ Round (f :: todo) l' := by
  have hturn : turn kIterations ({} : State ι) f =
      some (({ thread_count := 1, cs_count := 1 } : State ι).setPc f (.holds 0)) := by
    simp only [turn, State.iterate, if_pos (Nat.lt_of_lt_of_le Nat.zero_lt_two hk)]
    rfl
  have hpc : (({ thread_count := 1, cs_count := 1 } : State ι).setPc f (.holds 0)).pc f ≠ .finished := by
    simp [State.setPc]
  have hone : runOne kIterations { queue := f :: todo } =
      some ⟨({ thread_count := 1, cs_count := 1 } : State ι).setPc f (.holds 0), todo ++ [f]⟩ := by
    unfold runOne
    simp only [hturn, Option.map_some, if_neg hpc]
  have hqueue : todo ++ [f] = todo ++ f :: [] := rfl
  refine ⟨_, hone, .entering hqueue rfl ?_ nofun ?_ rfl rfl⟩
  · exact Function.update_self ..
  · intro g hg
    have hgf : g ≠ f := fun heq => hf (heq ▸ hg)
    exact Function.update_of_ne hgf ..

theorem rounds (hk : 2 ≤ kIterations) (hnodup : fs.Nodup) (hlength : 2 ≤ fs.length) (m : Nat) (h : Round fs l) :
    ∃ l', run kIterations m l = some l' ∧ Round fs l' := by
  induction m generalizing l with
  | zero => exact ⟨l, rfl, h⟩
  | succ m ih =>
      obtain ⟨l₁, hone, hround⟩ := h.next hk hnodup hlength
      obtain ⟨l', hrun, hround'⟩ := ih hround
      refine ⟨l', ?_, hround'⟩
      rw [run, hone]
      exact hrun

end

/-- **The lock is a livelock.** Under every schedule, one contender at most is behind its critical section; and once two
    contenders wait, they wait for ever, and no critical section is entered any more. The run loop, which resumes the fibers
    in turns, gets there whenever there are two or more contenders with two or more iterations: it enters the critical section
    once and goes on for ever, with all contenders in its queue. -/
theorem trickyLock_livelocks [Fintype ι] (kIterations : Nat) :
    (∀ s : State ι, (system ι kIterations).Reachable s →
      (∀ f g i j, s.pc f = .holds i → s.pc g = .holds j → f = g) ∧
        ∀ f g i j, f ≠ g → s.pc f = .waits i → s.pc g = .waits j → ∀ s', (system ι kIterations).Steps s s' →
          s'.pc f = .waits i ∧ s'.pc g = .waits j ∧ s'.cs_count = s.cs_count) ∧
      ∀ fs : List ι, fs.Nodup → 2 ≤ fs.length → 2 ≤ kIterations → ∀ m, ∃ l : RunLoop ι,
        run kIterations (m + 1) { queue := fs } = some l ∧ l.state.cs_count = 1 ∧ l.queue.Perm fs := by
  refine ⟨fun s hs => ⟨(reachable_inv hs).exclusive, fun f g i j hne hf hg s' => livelock_steps hs hne hf hg⟩, ?_⟩
  intro fs hnodup hlength hk m
  cases fs with
  | nil => cases hlength
  | cons f todo =>
      obtain ⟨l₁, hone, hround⟩ := first_round hk f todo (List.nodup_cons.mp hnodup).1
      obtain ⟨l, hrun, hround'⟩ := rounds hk hnodup hlength m hround
      refine ⟨l, ?_, hround'.facts.2, hround'.facts.1⟩
      rw [run, hone]
      exact hrun

/-- The two contenders of the test, with its 100 iterations, when they have been resumed 123456 times. -/
theorem trickyLock_livelocks_test : ∃ l : RunLoop (Fin 2), run 100 123456 { queue := ([0, 1] : List (Fin 2)) } = some l ∧
    l.state.cs_count = 1 ∧ l.queue.Perm [0, 1] :=
  (trickyLock_livelocks 100).2 [0, 1] (by decide) (by decide) (by decide) 123455

end TrickyLock
end Locks
end Tpcc
