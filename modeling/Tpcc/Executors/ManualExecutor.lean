import Mathlib.Algebra.GroupWithZero.Nat
import Tpcc.Support.Forest
import Tpcc.Transition.Loop

/-!
# `Executors.ManualExecutor` — tasks run by hand, in breadth-first order

`ManualExecutor` and `ExecuteHere`. A task is a finite tree: to run it is to schedule its children, and then
to return or to throw. The queue of tasks then yields the breadth-first order of the forest, whichever of the
three loops takes the next task.

## Contents
- **The code**, under the names it has in the source. `ran` records the tasks in the order of their runs.
- **Order.** `Follows`: what has run, and what the queue will yield, make up the order. It is kept by each run
  of a task, and so by the loops.
-/

namespace Tpcc
namespace Executors
namespace Manual

open Transition Tpcc.Tree

/-- A task: its name, and how its run ends once its children have been scheduled. -/
abbrev Task (α X : Type) := Tree (α × Except X Unit)

structure ManualExecutor (α X : Type) where
  tasks_ : List (Task α X) := []
  ran : List (Task α X) := []

namespace ManualExecutor

variable {α X : Type}

/-- `Execute`. -/
def execute (s : ManualExecutor α X) (task : Task α X) : ManualExecutor α X :=
  { s with tasks_ := s.tasks_ ++ [task] }

/-- `task()`. -/
def call (s : ManualExecutor α X) (task : Task α X) : Except X Unit × ManualExecutor α X :=
  (task.value.2, task.children.foldl execute { s with ran := s.ran ++ [task] })

/-- `ExecuteHere`. -/
def executeHere (s : ManualExecutor α X) (task : Task α X) : ManualExecutor α X :=
  match s.call task with
  | (.ok (), s') => s'
  -- exceptions are ignored
  | (.error _, s') => s'

/-- `PopTask`, of a queue that is not empty. -/
def popTask (s : ManualExecutor α X) : Option (Task α X × ManualExecutor α X) :=
  match s.tasks_ with
  | [] => none
  | task :: rest => some (task, { s with tasks_ := rest })

/-- The loop of `RunAtMost` from turn `i` on, with `n` turns left. -/
def runLoop : Nat → Nat → ManualExecutor α X → Nat × ManualExecutor α X
  | 0, i, s => (i, s)
  | n + 1, i, s =>
      match s.popTask with
      | none => (i, s)
      | some (task, s') => runLoop n (i + 1) (s'.executeHere task)

/-- `RunAtMost`. -/
def runAtMost (s : ManualExecutor α X) (limit : Nat) : Nat × ManualExecutor α X := runLoop limit 0 s

/-- `RunAllScheduled`. -/
def runAllScheduled (s : ManualExecutor α X) : Nat × ManualExecutor α X := s.runAtMost s.tasks_.length

/-- One turn of the loop of `Drain`. -/
def drainTurn : UInt64 × ManualExecutor α X → Turn (UInt64 × ManualExecutor α X) (UInt64 × ManualExecutor α X)
  | (count, s) =>
      match s.popTask with
      | none => .done (count, s)
      | some (task, s') => .again (count + 1, s'.executeHere task)

/-- `Drain`, in at most `fuel` turns. -/
def drain (s : ManualExecutor α X) (fuel : Nat) : Option (UInt64 × ManualExecutor α X) := loop drainTurn fuel (0, s)

/-- One call of `RunAtMost` after the other: what they return, and the executor after them. -/
def runAtMosts : List Nat → ManualExecutor α X → List Nat × ManualExecutor α X
  | [], s => ([], s)
  | limit :: limits, s =>
      let run := s.runAtMost limit
      let runs := runAtMosts limits run.2
      (run.1 :: runs.1, runs.2)

/-! ## Order -/

variable {tasks : List (Task α X)} {s s' : ManualExecutor α X} {task : Task α X} {rest : List (Task α X)}

theorem foldl_execute (children : List (Task α X)) (s : ManualExecutor α X) :
    children.foldl execute s = { s with tasks_ := s.tasks_ ++ children } := by
  induction children generalizing s with
  | nil => rw [List.append_nil]; rfl
  | cons child children ih =>
      rw [List.foldl_cons, ih, execute, List.append_assoc]
      rfl

/-- Whether the task throws or not. -/
theorem executeHere_eq (s : ManualExecutor α X) (task : Task α X) :
    s.executeHere task = { tasks_ := s.tasks_ ++ task.children, ran := s.ran ++ [task] } := by
  have hcall : (s.call task).2 = { tasks_ := s.tasks_ ++ task.children, ran := s.ran ++ [task] } :=
    foldl_execute _ _
  rw [← hcall, executeHere]
  split <;> simp_all only

theorem popTask_cons (h : s.tasks_ = task :: rest) : s.popTask = some (task, { s with tasks_ := rest }) := by
  simp only [popTask, h]

/-- What has run, and what the queue will yield, make up the breadth-first order of `tasks`. -/
def Follows (tasks : List (Task α X)) (s : ManualExecutor α X) : Prop :=
  s.ran ++ breadthFirst s.tasks_ = breadthFirst tasks

/-- **One task.** -/
theorem Follows.step (h : Follows tasks s) (htask : s.tasks_ = task :: rest) :
    Follows tasks (executeHere { s with tasks_ := rest } task) := by
  rw [Follows, htask, breadthFirst_cons] at h
  rw [executeHere_eq, Follows, ← h, List.append_assoc]
  rfl

theorem Follows.prefix (h : Follows tasks s) : s.ran <+: breadthFirst tasks := ⟨_, h⟩

theorem Follows.ran_eq (h : Follows tasks s) : s.ran = (breadthFirst tasks).take s.ran.length :=
  List.prefix_iff_eq_take.mp h.prefix

/-- The nodes that have not run. -/
theorem Follows.length (h : Follows tasks s) : s.ran.length + forestSize s.tasks_ = forestSize tasks := by
  rw [← length_breadthFirst, ← length_breadthFirst, ← h, List.length_append]

/-- A call returns `count`, and has run that many tasks. -/
structure Runs (tasks : List (Task α X)) (s : ManualExecutor α X) (count : Nat) (s' : ManualExecutor α X) : Prop where
  follows : Follows tasks s'
  count : s'.ran.length = s.ran.length + count

theorem Runs.ran_eq {count : Nat} (h : Runs tasks s count s') :
    s'.ran = (breadthFirst tasks).take (s.ran.length + count) := by
  rw [← h.count]
  exact h.follows.ran_eq

/-- The loop of `RunAtMost`: it stops when `n` turns are over, or no task is left. -/
theorem runLoop_spec (h : Follows tasks s) (n i : Nat) :
    ∃ count, (runLoop n i s).1 = i + count ∧ count = min n (forestSize s.tasks_) ∧
      Runs tasks s count (runLoop n i s).2 := by
  induction n generalizing i s with
  | zero => exact ⟨0, rfl, (Nat.zero_min _).symm, h, rfl⟩
  | succ n ih =>
      cases htasks : s.tasks_ with
      | nil =>
          have hpop : s.popTask = none := by simp only [popTask, htasks]
          rw [runLoop, hpop]
          exact ⟨0, rfl, rfl, h, rfl⟩
      | cons task rest =>
          obtain ⟨count, hcount, hmin, hruns⟩ := ih (h.step htasks) (i + 1)
          rw [runLoop, popTask_cons htasks]
          have hsize := h.length
          have hsize' := (h.step htasks).length
          have hlength : (executeHere { s with tasks_ := rest } task).ran.length = s.ran.length + 1 := by
            rw [executeHere_eq, List.length_append, List.length_singleton]
          rw [htasks] at hsize
          refine ⟨count + 1, ?_, ?_, hruns.follows, ?_⟩
          · rw [hcount]
            omega
          · omega
          · rw [hruns.count, hlength]
            omega

theorem runAtMost_spec (h : Follows tasks s) (limit : Nat) :
    (s.runAtMost limit).1 = min limit (forestSize s.tasks_) ∧
      Runs tasks s (s.runAtMost limit).1 (s.runAtMost limit).2 := by
  obtain ⟨count, hcount, hmin, hruns⟩ := runLoop_spec h limit 0
  rw [Nat.zero_add] at hcount
  rw [← hcount] at hmin hruns
  exact ⟨hmin, hruns⟩

theorem runAtMosts_spec (h : Follows tasks s) (limits : List Nat) :
    (runAtMosts limits s).1.sum = min limits.sum (forestSize s.tasks_) ∧
      Runs tasks s (runAtMosts limits s).1.sum (runAtMosts limits s).2 := by
  induction limits generalizing s with
  | nil => exact ⟨(Nat.zero_min _).symm, h, rfl⟩
  | cons limit limits ih =>
      obtain ⟨hcount, hruns⟩ := runAtMost_spec h limit
      obtain ⟨hcounts, hruns'⟩ := ih hruns.follows
      have hsize := h.length
      have hsize' := hruns.follows.length
      have hlength := hruns.count
      rw [runAtMosts, List.sum_cons, List.sum_cons]
      refine ⟨by omega, hruns'.follows, ?_⟩
      rw [hruns'.count, hlength]
      exact Nat.add_assoc _ _ _

/-- As many tasks run as are queued, and they are those in front of all others. -/
theorem runAllScheduled_spec (h : Follows tasks s) :
    s.runAllScheduled.1 = s.tasks_.length ∧ s.runAllScheduled.2.ran = s.ran ++ s.tasks_ ∧
      Follows tasks s.runAllScheduled.2 := by
  obtain ⟨hcount, hruns⟩ := runAtMost_spec h s.tasks_.length
  have hqueued := forestSize_nextLevel s.tasks_
  have hall : s.runAllScheduled.1 = s.tasks_.length := by
    rw [runAllScheduled, hcount]
    omega
  refine ⟨hall, ?_, hruns.follows⟩
  have hsplit : breadthFirst tasks = (s.ran ++ s.tasks_) ++ breadthFirst (nextLevel s.tasks_) := by
    rw [← h, breadthFirst_eq, List.append_assoc]
  rw [runAllScheduled] at hall ⊢
  rw [hruns.ran_eq, hall, hsplit, ← List.length_append, List.take_left]

/-- `count` in `Drain` is the number of tasks that it has run, as a `size_t`. -/
def Drains (tasks : List (Task α X)) (s : ManualExecutor α X) (c : UInt64 × ManualExecutor α X) : Prop :=
  ∃ count, c.1 = .ofNat count ∧ Runs tasks s count c.2

theorem Drains.turn {c c' : UInt64 × ManualExecutor α X} (h : Drains tasks s c) (hturn : drainTurn c = .again c') :
    Drains tasks s c' ∧ forestSize c'.2.tasks_ < forestSize c.2.tasks_ := by
  obtain ⟨_, s₁⟩ := c
  obtain ⟨count, rfl, hruns⟩ := h
  cases htasks : s₁.tasks_ with
  | nil => simp only [drainTurn, popTask, htasks, reduceCtorEq] at hturn
  | cons task rest =>
      simp only [drainTurn, popTask_cons htasks] at hturn
      cases hturn
      have hcount : (executeHere { s₁ with tasks_ := rest } task).ran.length = s₁.ran.length + 1 := by
        rw [executeHere_eq, List.length_append, List.length_singleton]
      have hstep : Follows tasks (executeHere { s₁ with tasks_ := rest } task) := hruns.follows.step htasks
      have hsize : s₁.ran.length + forestSize s₁.tasks_ = forestSize tasks := hruns.follows.length
      have hsize' := hstep.length
      refine ⟨⟨count + 1, (UInt64.ofNat_add count 1).symm, hstep, ?_⟩, ?_⟩
      · rw [hcount, hruns.count]
        rfl
      · rw [← htasks]
        show forestSize (executeHere { s₁ with tasks_ := rest } task).tasks_ < forestSize s₁.tasks_
        omega

theorem Drains.done {c r : UInt64 × ManualExecutor α X} (h : Drains tasks s c) (hturn : drainTurn c = .done r) :
    Drains tasks s r ∧ r.2.tasks_ = [] := by
  obtain ⟨count, s₁⟩ := c
  cases htasks : s₁.tasks_ with
  | nil =>
      simp only [drainTurn, popTask, htasks] at hturn
      cases hturn
      exact ⟨h, htasks⟩
  | cons task rest =>
      simp only [drainTurn, popTask_cons htasks] at hturn
      cases hturn

/-- The loop of `Drain` returns, with the number of tasks that were left. -/
theorem drain_spec (h : Follows tasks s) :
    ∃ count s', Runs tasks s count s' ∧ s'.tasks_ = [] ∧
      ∀ fuel, forestSize s.tasks_ < fuel → s.drain fuel = some (.ofNat count, s') := by
  obtain ⟨⟨_, s'⟩, ⟨⟨count, rfl, hruns⟩, hempty⟩, hloop⟩ := loop_total (I := Drains tasks s)
    (Q := fun r => Drains tasks s r ∧ r.2.tasks_ = []) (fun c : UInt64 × ManualExecutor α X => forestSize c.2.tasks_)
    (fun _ _ hdrains hturn => hdrains.turn hturn) (fun _ _ hdrains hturn => hdrains.done hturn)
    (s := (0, s)) ⟨0, rfl, h, rfl⟩
  exact ⟨count, s', hruns, hempty, hloop⟩

/-- **`ManualExecutor` runs its tasks in breadth-first order.** Any number of calls of `RunAtMost`, then
    `RunAllScheduled`, then `Drain`, on an executor with the given tasks in its queue. `Drain` counts in a `size_t`. -/
theorem runs_breadthFirst (tasks : List (Task α X)) (limits : List Nat) :
    ∃ counts s₁ n₂ s₂ n₃ s₃,
      runAtMosts limits ({ tasks_ := tasks } : ManualExecutor α X) = (counts, s₁) ∧
      s₁.ran = (breadthFirst tasks).take (min limits.sum (forestSize tasks)) ∧
      counts.sum = min limits.sum (forestSize tasks) ∧
      s₁.runAllScheduled = (n₂, s₂) ∧ s₂.ran = s₁.ran ++ s₁.tasks_ ∧ n₂ = s₁.tasks_.length ∧
      (∀ fuel, forestSize tasks < fuel → s₂.drain fuel = some (.ofNat n₃, s₃)) ∧
      s₃.ran = s₂.ran ++ (breadthFirst tasks).drop s₂.ran.length ∧ s₃.ran = breadthFirst tasks ∧
      s₂.ran.length + n₃ = forestSize tasks ∧ s₃.tasks_ = [] := by
  have hinit : Follows tasks { tasks_ := tasks } := rfl
  obtain ⟨hcounts, hruns₁⟩ := runAtMosts_spec hinit limits
  obtain ⟨hn₂, hran₂, hfollows₂⟩ := runAllScheduled_spec hruns₁.follows
  obtain ⟨n₃, s₃, hruns₃, hempty, hdrain⟩ := drain_spec hfollows₂
  have hran₁ := hruns₁.ran_eq
  rw [hcounts, List.length_nil, Nat.zero_add] at hran₁
  have hran₃ : s₃.ran = breadthFirst tasks := by
    have hfollows := hruns₃.follows
    rwa [Follows, hempty, breadthFirst_nil, List.append_nil] at hfollows
  have hsize := hfollows₂.length
  refine ⟨(runAtMosts limits _).1, (runAtMosts limits _).2, (runAtMosts limits _).2.runAllScheduled.1,
    (runAtMosts limits _).2.runAllScheduled.2, n₃, s₃, rfl, hran₁, hcounts, rfl, hran₂, hn₂, ?_, ?_, hran₃, ?_, hempty⟩
  · intro fuel hfuel
    exact hdrain fuel (by omega)
  · obtain ⟨others, hothers⟩ := hfollows₂.prefix
    rw [hran₃, ← hothers, List.drop_left]
  · rw [← hruns₃.count, hran₃, length_breadthFirst]

end ManualExecutor
end Manual
end Executors
end Tpcc
