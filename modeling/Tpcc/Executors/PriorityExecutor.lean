import Mathlib.Data.List.Nodup
import Tpcc.Support.PriorityQueue
import Tpcc.Transition.System

/-!
# `Executors.PriorityExecutor` — tasks in the order of their priorities

`PriorityExecutorImpl` over an underlying executor that runs each lambda it is given once, at any time and on any
thread, and `PriorityExecutorImplFixed`. The calls of `Execute` and the lambdas have no identity in the code, so the
state keeps those at one point of it as a list, or as a number where they carry nothing. At most one of them holds
`mutex_`, and `Section` says what it does next. The runs are those while the executor is alive: the lambdas own it.

A lambda runs whichever task is on top, mostly not the one it was submitted for. So nothing pairs the two but their
numbers (`Inv.length`), and where each task is (`Inv.once`). What the callers have passed is recorded beside the code
(`State.pass`, `fixes`), and each task carries the priority that it was passed with (`Inv.carried`).

## Contents
- **The code.** `TaskNodeComparator`, `State`, `next`.
- **The invariant.** `Stepped`, `Inv`.
- **Results.** `slots_match`.
-/

namespace Tpcc
namespace Executors
namespace PriorityExecutor

open Transition PriorityQueue

/-- Tasks are numbered as they are passed to `Execute`. A task that has been moved out leaves nothing. -/
structure TaskNode where
  task : Option Nat
  priority : Int
  deriving DecidableEq

def TaskNodeComparator (first second : TaskNode) : Prop := first.priority < second.priority

instance : DecidableRel TaskNodeComparator := fun first second =>
  inferInstanceAs (Decidable (first.priority < second.priority))

/-- `priority_executor_` is the executor of this development. -/
structure PriorityExecutorImplFixed where
  priority_ : Int

/-- What the holder of `mutex_` does next. -/
inductive Section where
  /-- `Execute`: `queue_.emplace(std::move(task), priority)`. -/
  | emplace (task : Nat) (priority : Int)
  /-- `Execute`: `guard.unlock()`. -/
  | emplaced
  /-- The lambda: `Task task = std::move(queue_.top().task)`. -/
  | top
  /-- The lambda: `queue_.pop()`. -/
  | pop (task : Nat)
  /-- The lambda: `guard.unlock()`. -/
  | popped (task : Nat)
  deriving DecidableEq

/-- `calls` are the calls of `Execute` that have yet to lock `mutex_`, and `submits` of them have unlocked it and are
    about to submit their lambda; `lambdas` have been submitted and have yet to lock; `taken` are the tasks of those
    that have unlocked and are about to run them. The rest is history: the priorities that `FixPriority` was called
    with, those that the tasks were passed with, and the tasks that were started. -/
structure State where
  queue_ : List TaskNode := []
  mutex_ : Option Section := none
  fixed : List PriorityExecutorImplFixed := []
  calls : List (Nat × Int) := []
  submits : Nat := 0
  lambdas : Nat := 0
  taken : List Nat := []
  fixes : List Int := []
  passed : List Int := []
  started : List Nat := []

/-- Someone calls `Execute` or `FixPriority`, or takes the next step of a call or of a lambda. `emplace` and `pop`
    have the arrangement that the queue is left in. -/
inductive Action where
  | execute (priority : Int)
  | fixPriority (priority : Int)
  | executeFixed (i : Nat)
  | lockExecute (task : Nat) (priority : Int)
  | emplace (queue : List TaskNode)
  | unlockExecute
  | submit
  | lockLambda
  | top
  | pop (queue : List TaskNode)
  | unlockLambda
  | start (task : Nat)

/-- A call of `Execute`, up to the lock. -/
def State.execute (s : State) (priority : Int) (task : Nat) : State := { s with calls := s.calls ++ [(task, priority)] }

def State.fixPriority (s : State) (priority : Int) : State := { s with fixed := s.fixed ++ [⟨priority⟩] }

def PriorityExecutorImplFixed.execute (x : PriorityExecutorImplFixed) (s : State) (task : Nat) : State :=
  s.execute x.priority_ task

/-- It is recorded that the next task is passed with `priority`. -/
def State.pass (s : State) (priority : Int) : State := { s with passed := s.passed ++ [priority] }

def next (s : State) : Action → Option State
  | .execute priority => some ((s.pass priority).execute priority s.passed.length)
  | .fixPriority priority => some ({ s with fixes := s.fixes ++ [priority] }.fixPriority priority)
  | .executeFixed i =>
      match s.fixed[i]?, s.fixes[i]? with
      | some x, some priority => some (x.execute (s.pass priority) s.passed.length)
      | _, _ => none
  | .lockExecute task priority =>
      if s.mutex_ = none ∧ (task, priority) ∈ s.calls then
        some { s with mutex_ := some (.emplace task priority), calls := s.calls.erase (task, priority) }
      else none
  | .emplace queue =>
      match s.mutex_ with
      | some (.emplace task priority) =>
          if Pushed TaskNodeComparator s.queue_ ⟨some task, priority⟩ queue then
            some { s with queue_ := queue, mutex_ := some .emplaced }
          else none
      | _ => none
  | .unlockExecute =>
      match s.mutex_ with
      | some .emplaced => some { s with mutex_ := none, submits := s.submits + 1 }
      | _ => none
  | .submit =>
      match s.submits with
      | submits + 1 => some { s with submits := submits, lambdas := s.lambdas + 1 }
      | 0 => none
  | .lockLambda =>
      match s.mutex_, s.lambdas with
      | none, lambdas + 1 => some { s with mutex_ := some .top, lambdas := lambdas }
      | _, _ => none
  | .top =>
      match s.mutex_, s.queue_ with
      -- what is run must be a task, and not what a move has left of one
      | some .top, ⟨some task, priority⟩ :: queue =>
          some { s with queue_ := ⟨none, priority⟩ :: queue, mutex_ := some (.pop task) }
      | _, _ => none
  | .pop queue =>
      match s.mutex_ with
      | some (.pop task) =>
          -- nothing here says that this is the entry that `top` has seen
          if s.queue_ ≠ [] ∧ Popped TaskNodeComparator s.queue_ queue then
            some { s with queue_ := queue, mutex_ := some (.popped task) }
          else none
      | _ => none
  | .unlockLambda =>
      match s.mutex_ with
      | some (.popped task) => some { s with mutex_ := none, taken := s.taken ++ [task] }
      | _ => none
  | .start task =>
      if task ∈ s.taken then some { s with taken := s.taken.erase task, started := s.started ++ [task] } else none

/-- All runs of an executor. -/
def system : System State := System.ofNext {} next

/-! ## Steps -/

/-- A task is passed, and carries the priority that it is passed with. -/
def State.passes (s : State) (priority : Int) : State := (s.pass priority).execute priority s.passed.length

/-- What one step does. -/
inductive Stepped (s : State) : State → Prop where
  | execute (priority : Int) : Stepped s (s.passes priority)
  | fixPriority (priority : Int) : Stepped s ({ s with fixes := s.fixes ++ [priority] }.fixPriority priority)
  | lockExecute (task : Nat) (priority : Int) (free : s.mutex_ = none) (call : (task, priority) ∈ s.calls) :
      Stepped s { s with mutex_ := some (.emplace task priority), calls := s.calls.erase (task, priority) }
  | emplace (task : Nat) (priority : Int) (queue : List TaskNode) (holds : s.mutex_ = some (.emplace task priority))
      (pushed : Pushed TaskNodeComparator s.queue_ ⟨some task, priority⟩ queue) :
      Stepped s { s with queue_ := queue, mutex_ := some .emplaced }
  | unlockExecute (holds : s.mutex_ = some .emplaced) :
      Stepped s { s with mutex_ := none, submits := s.submits + 1 }
  | submit (submits : Nat) (some : s.submits = submits + 1) :
      Stepped s { s with submits := submits, lambdas := s.lambdas + 1 }
  | lockLambda (lambdas : Nat) (free : s.mutex_ = none) (some : s.lambdas = lambdas + 1) :
      Stepped s { s with mutex_ := Option.some .top, lambdas := lambdas }
  | top (task : Nat) (priority : Int) (queue : List TaskNode) (holds : s.mutex_ = some .top)
      (found : s.queue_ = ⟨some task, priority⟩ :: queue) :
      Stepped s { s with queue_ := ⟨none, priority⟩ :: queue, mutex_ := some (.pop task) }
  | pop (task : Nat) (queue : List TaskNode) (holds : s.mutex_ = some (.pop task)) (found : s.queue_ ≠ [])
      (popped : Popped TaskNodeComparator s.queue_ queue) :
      Stepped s { s with queue_ := queue, mutex_ := some (.popped task) }
  | unlockLambda (task : Nat) (holds : s.mutex_ = some (.popped task)) :
      Stepped s { s with mutex_ := none, taken := s.taken ++ [task] }
  | start (task : Nat) (mem : task ∈ s.taken) :
      Stepped s { s with taken := s.taken.erase task, started := s.started ++ [task] }

/-- Each executor of `FixPriority` has the priority of its call. -/
def State.Fixed (s : State) : Prop := s.fixed = s.fixes.map fun priority => ⟨priority⟩

/-- **`FixPriority` passes the task on**, with the priority of its call. -/
theorem State.Fixed.execute {s : State} (h : s.Fixed) {i : Nat} {x : PriorityExecutorImplFixed} {priority : Int}
    (hx : s.fixed[i]? = some x) (hpriority : s.fixes[i]? = some priority) :
    x.execute (s.pass priority) s.passed.length = s.passes priority := by
  rw [h, List.getElem?_map, hpriority, Option.map_some, Option.some.injEq] at hx
  rw [← hx]
  rfl

theorem next_stepped {s s' : State} {a : Action} (hfixed : s.Fixed) (h : next s a = some s') : Stepped s s' := by
  cases a with
  | execute priority =>
      obtain rfl := Option.some.inj h
      exact .execute priority
  | fixPriority priority =>
      obtain rfl := Option.some.inj h
      exact .fixPriority priority
  | executeFixed i =>
      simp only [next] at h
      split at h
      · next x priority hx hpriority =>
          obtain rfl := Option.some.inj h
          rw [hfixed.execute hx hpriority]
          exact .execute priority
      · cases h
  | lockExecute task priority =>
      simp only [next] at h
      split at h
      · next hcall =>
          obtain rfl := Option.some.inj h
          exact .lockExecute task priority hcall.1 hcall.2
      · cases h
  | emplace queue =>
      simp only [next] at h
      split at h
      · next task priority hholds =>
          split at h
          · next hpushed =>
              obtain rfl := Option.some.inj h
              exact .emplace task priority queue hholds hpushed
          · cases h
      · cases h
  | unlockExecute =>
      simp only [next] at h
      split at h
      · next hholds =>
          obtain rfl := Option.some.inj h
          exact .unlockExecute hholds
      · cases h
  | submit =>
      simp only [next] at h
      split at h
      · next submits hsubmits =>
          obtain rfl := Option.some.inj h
          exact .submit submits hsubmits
      · cases h
  | lockLambda =>
      simp only [next] at h
      split at h
      · next lambdas hfree hlambdas =>
          obtain rfl := Option.some.inj h
          exact .lockLambda lambdas hfree hlambdas
      · cases h
  | top =>
      simp only [next] at h
      split at h
      · next task priority queue hholds hfound =>
          obtain rfl := Option.some.inj h
          exact .top task priority queue hholds hfound
      · cases h
  | pop queue =>
      simp only [next] at h
      split at h
      · next task hholds =>
          split at h
          · next hpopped =>
              obtain rfl := Option.some.inj h
              exact .pop task queue hholds hpopped.1 hpopped.2
          · cases h
      · cases h
  | unlockLambda =>
      simp only [next] at h
      split at h
      · next task hholds =>
          obtain rfl := Option.some.inj h
          exact .unlockLambda task hholds
      · cases h
  | start task =>
      simp only [next] at h
      split at h
      · next hmem =>
          obtain rfl := Option.some.inj h
          exact .start task hmem
      · cases h

/-! ## The invariant -/

namespace Section

/-- The entry of the queue that the holder answers for. -/
def slots : Section → Nat
  | .emplace _ _ => 0
  | .emplaced => 1
  | .top => 1
  | .pop _ => 1
  | .popped _ => 0

/-- The task that the holder has. -/
def task : Section → Option Nat
  | .emplace task _ => some task
  | .emplaced => none
  | .top => none
  | .pop task => some task
  | .popped task => some task

/-- 1 for a lambda that has not popped. -/
def lambdas : Section → Nat
  | .emplace _ _ => 0
  | .emplaced => 0
  | .top => 1
  | .pop _ => 1
  | .popped _ => 0

theorem lambdas_le_slots (x : Section) : x.lambdas ≤ x.slots := by
  cases x with
  | emplaced => exact Nat.zero_le 1
  | emplace | top | pop | popped => exact Nat.le_refl _

end Section

namespace State

/-- How often a task is somewhere: in a call, with the holder, in the queue, with a lambda, or started. -/
def places (s : State) (task : Nat) : Nat :=
  (s.calls.map Prod.fst).count task + (s.mutex_.bind Section.task).toList.count task +
    (s.queue_.filterMap TaskNode.task).count task + s.taken.count task + s.started.count task

end State

/-- Every entry has its task. -/
def Filled (queue : List TaskNode) : Prop := ∀ node ∈ queue, ∃ task, node.task = some task

/-- The task of the top has been moved out, and the others are there. -/
def Moved (queue : List TaskNode) : Prop := ∃ priority rest, queue = ⟨none, priority⟩ :: rest ∧ Filled rest

/-- The tasks of a state, each with a priority that stands beside it. -/
inductive State.Carries (s : State) (task : Nat) (priority : Int) : Prop where
  | call (mem : (task, priority) ∈ s.calls)
  | holder (holds : s.mutex_ = some (.emplace task priority))
  | entry (mem : ⟨some task, priority⟩ ∈ s.queue_)
  | moved (rest : List TaskNode) (holds : s.mutex_ = some (.pop task)) (found : s.queue_ = ⟨none, priority⟩ :: rest)

structure Inv (s : State) : Prop where
  heap : Heap TaskNodeComparator s.queue_
  length : s.queue_.length = s.submits + s.lambdas + s.mutex_.elim 0 Section.slots
  once : ∀ task, s.places task = if task < s.passed.length then 1 else 0
  moved : ∀ task, s.mutex_ = some (.pop task) → Moved s.queue_
  filled : (∀ task, s.mutex_ ≠ some (.pop task)) → Filled s.queue_
  fixed : s.Fixed
  carried : ∀ task priority, s.Carries task priority → s.passed[task]? = some priority

theorem inv_init : Inv {} where
  heap := trivial
  length := rfl
  once _ := rfl
  moved := nofun
  filled _ := nofun
  fixed := rfl
  carried := by
    rintro task priority (mem | holds | mem | ⟨rest, holds, found⟩)
    · cases mem
    · cases holds
    · cases mem
    · cases holds

theorem Inv.heap_stepped {s s' : State} (h : Inv s) (hstep : Stepped s s') : Heap TaskNodeComparator s'.queue_ := by
  cases hstep with
  | emplace task priority queue holds pushed => exact pushed.heap
  | pop task queue holds found popped => exact popped.heap
  | top task priority queue holds found =>
      -- a move leaves the priority
      have hheap := h.heap
      rw [found] at hheap
      intro node hnode
      rcases List.mem_cons.mp hnode with rfl | hnode
      · exact Int.lt_irrefl priority
      · exact hheap node (List.mem_cons_of_mem _ hnode)
  | execute | fixPriority | lockExecute | unlockExecute | submit | lockLambda | unlockLambda | start => exact h.heap

/-- **There is an entry for each lambda to come.** -/
theorem Inv.length_stepped {s s' : State} (h : Inv s) (hstep : Stepped s s') :
    s'.queue_.length = s'.submits + s'.lambdas + s'.mutex_.elim 0 Section.slots := by
  have hlength := h.length
  cases hstep with
  | execute | fixPriority | start => exact hlength
  | lockExecute task priority free call =>
      rw [free] at hlength
      exact hlength
  | emplace task priority queue holds pushed =>
      rw [holds] at hlength
      show queue.length = s.submits + s.lambdas + 1
      rw [pushed.perm.length_eq, List.length_cons, hlength]
      rfl
  | unlockExecute holds =>
      rw [holds] at hlength
      show s.queue_.length = s.submits + 1 + s.lambdas
      rw [hlength]
      exact Nat.add_right_comm s.submits s.lambdas 1
  | submit submits some =>
      -- one that is about to submit becomes a lambda
      show s.queue_.length = submits + (s.lambdas + 1) + s.mutex_.elim 0 Section.slots
      omega
  | lockLambda lambdas free some =>
      rw [free] at hlength
      show s.queue_.length = s.submits + lambdas + 1
      rw [hlength, some]
      rfl
  | top task priority queue holds found =>
      rw [holds, found] at hlength
      exact hlength
  | pop task queue holds found popped =>
      rw [holds] at hlength
      show queue.length = s.submits + s.lambdas
      rw [popped.perm.length_eq, List.length_tail, hlength]
      rfl
  | unlockLambda task holds =>
      rw [holds] at hlength
      exact hlength

theorem places_passes (s : State) (priority : Int) (t : Nat) :
    (s.passes priority).places t = s.places t + if s.passed.length = t then 1 else 0 := by
  unfold State.passes State.pass State.execute State.places
  simp only [List.map_append, List.map_cons, List.map_nil, List.count_append, List.count_singleton, beq_iff_eq]
  omega

/-- **A step moves tasks**, unless it is a call of `Execute`. -/
theorem Inv.places_stepped {s s' : State} (h : Inv s) (hstep : Stepped s s') (t : Nat) :
    (∃ priority, s' = s.passes priority) ∨ s'.passed = s.passed ∧ s'.places t = s.places t := by
  cases hstep with
  | execute priority => exact .inl ⟨priority, rfl⟩
  | fixPriority | submit => exact .inr ⟨rfl, rfl⟩
  | lockExecute task priority free call =>
      refine .inr ⟨rfl, ?_⟩
      have hcalls := ((List.perm_cons_erase call).map Prod.fst).count_eq t
      unfold State.places
      simp only [free, hcalls, List.map_cons, List.count_cons, Option.bind_some, Option.bind_none, Section.task,
        Option.toList_some, Option.toList_none, List.count_nil]
      omega
  | emplace task priority queue holds pushed =>
      refine .inr ⟨rfl, ?_⟩
      have hqueue := (pushed.perm.filterMap TaskNode.task).count_eq t
      unfold State.places
      simp only [holds, hqueue, List.filterMap_cons, List.count_cons, Option.bind_some, Section.task,
        Option.toList_some, Option.toList_none, List.count_nil]
      omega
  | unlockExecute holds | lockLambda _ holds =>
      refine .inr ⟨rfl, ?_⟩
      unfold State.places
      simp only [holds, Option.bind_some, Option.bind_none, Section.task]
  | top task priority queue holds found =>
      refine .inr ⟨rfl, ?_⟩
      unfold State.places
      simp only [holds, found, List.filterMap_cons, List.count_cons, Option.bind_some, Section.task,
        Option.toList_some, Option.toList_none, List.count_nil]
      omega
  | pop task queue holds found popped =>
      refine .inr ⟨rfl, ?_⟩
      -- the entry that is popped has no task
      obtain ⟨priority, rest, hqueue, -⟩ := h.moved task holds
      have hrest := (popped.perm.filterMap TaskNode.task).count_eq t
      unfold State.places
      simp only [holds, hrest, hqueue, List.filterMap_cons, List.tail_cons, Option.bind_some, Section.task]
  | unlockLambda task holds =>
      refine .inr ⟨rfl, ?_⟩
      unfold State.places
      simp only [holds, Option.bind_some, Option.bind_none, Section.task, List.count_append, Option.toList_some,
        Option.toList_none, List.count_nil]
      omega
  | start task mem =>
      refine .inr ⟨rfl, ?_⟩
      have htaken := (List.perm_cons_erase mem).count_eq t
      unfold State.places
      simp only [htaken, List.count_append, List.count_cons, List.count_nil]
      omega

/-- **Each task is in one place.** -/
theorem Inv.once_stepped {s s' : State} (h : Inv s) (hstep : Stepped s s') (t : Nat) :
    s'.places t = if t < s'.passed.length then 1 else 0 := by
  have honce := h.once t
  rcases h.places_stepped hstep t with ⟨priority, rfl⟩ | ⟨hpassed, hplaces⟩
  · have hpassed : (s.passes priority).passed.length = s.passed.length + 1 := List.length_append
    rw [places_passes, honce, hpassed]
    split <;> split <;> split <;> omega
  · rw [hplaces, hpassed]
    exact honce

theorem Inv.moved_stepped {s s' : State} (h : Inv s) (hstep : Stepped s s') {task : Nat}
    (hholds : s'.mutex_ = some (.pop task)) : Moved s'.queue_ := by
  cases hstep with
  | execute | fixPriority | submit | start => exact h.moved task hholds
  | lockExecute | emplace | unlockExecute | lockLambda | pop | unlockLambda => cases hholds
  | top task priority queue holds found =>
      refine ⟨priority, queue, rfl, fun node hnode => ?_⟩
      apply h.filled
      · rw [holds]
        exact nofun
      · rw [found]
        exact List.mem_cons_of_mem _ hnode

theorem Inv.filled_stepped {s s' : State} (h : Inv s) (hstep : Stepped s s')
    (hholds : ∀ task, s'.mutex_ ≠ some (.pop task)) : Filled s'.queue_ := by
  cases hstep with
  | execute | fixPriority | submit | start => exact h.filled hholds
  | lockExecute task priority holds | unlockExecute holds | lockLambda _ holds | unlockLambda _ holds =>
      apply h.filled
      rw [holds]
      exact nofun
  | emplace task priority queue holds pushed =>
      intro node hnode
      rcases List.mem_cons.mp (pushed.perm.mem_iff.mp hnode) with rfl | hnode
      · exact ⟨task, rfl⟩
      · exact h.filled (by rw [holds]; exact nofun) node hnode
  | top task priority queue holds found => exact absurd rfl (hholds task)
  | pop task queue holds found popped =>
      -- only the top was without its task, and it is gone
      obtain ⟨priority, rest, hqueue, hfilled⟩ := h.moved task holds
      intro node hnode
      apply hfilled
      have hmem := popped.perm.mem_iff.mp hnode
      rw [hqueue] at hmem
      exact hmem

theorem Inv.fixed_stepped {s s' : State} (h : Inv s) (hstep : Stepped s s') : s'.Fixed := by
  have hfixed := h.fixed
  unfold State.Fixed at *
  cases hstep with
  | fixPriority priority =>
      show s.fixed ++ _ = (s.fixes ++ _).map _
      rw [hfixed, List.map_append]
      rfl
  | execute | lockExecute | emplace | unlockExecute | submit | lockLambda | top | pop | unlockLambda | start =>
      exact hfixed

/-- **No step changes the priority of a task**, and one that is passed carries the priority that it is passed with. -/
theorem Stepped.carries {s s' : State} (hstep : Stepped s s') {t : Nat} {p : Int}
    (hcarries : s'.Carries t p) : s.Carries t p ∨ s' = s.passes p ∧ t = s.passed.length := by
  cases hstep with
  | execute priority =>
      cases hcarries with
      | call mem =>
          rcases List.mem_append.mp mem with mem | mem
          · exact .inl (.call mem)
          · obtain ⟨rfl, rfl⟩ := Prod.mk.inj (List.mem_singleton.mp mem)
            exact .inr ⟨rfl, rfl⟩
      | holder holds => exact .inl (.holder holds)
      | entry mem => exact .inl (.entry mem)
      | moved rest holds found => exact .inl (.moved rest holds found)
  | fixPriority | submit | start =>
      left
      cases hcarries with
      | call mem => exact .call mem
      | holder holds => exact .holder holds
      | entry mem => exact .entry mem
      | moved rest holds found => exact .moved rest holds found
  | unlockExecute | lockLambda | unlockLambda =>
      left
      cases hcarries with
      | call mem => exact .call mem
      | holder holds => cases holds
      | entry mem => exact .entry mem
      | moved rest holds found => cases holds
  | lockExecute task priority free call =>
      left
      cases hcarries with
      | call mem => exact .call (List.mem_of_mem_erase mem)
      | holder holds =>
          cases holds
          exact .call call
      | entry mem => exact .entry mem
      | moved rest holds found => cases holds
  | emplace task priority queue holds pushed =>
      left
      cases hcarries with
      | call mem => exact .call mem
      | holder holds' => cases holds'
      | entry mem =>
          rcases List.mem_cons.mp (pushed.perm.mem_iff.mp mem) with heq | mem
          · cases heq
            exact .holder holds
          · exact .entry mem
      | moved rest holds' found => cases holds'
  | top task priority queue holds found =>
      left
      cases hcarries with
      | call mem => exact .call mem
      | holder holds' => cases holds'
      | entry mem =>
          apply State.Carries.entry
          rw [found]
          rcases List.mem_cons.mp mem with heq | mem
          · cases heq
          · exact List.mem_cons_of_mem _ mem
      | moved rest holds' found' =>
          -- the move leaves the priority in the entry
          cases holds'
          cases found'
          apply State.Carries.entry
          rw [found]
          exact List.mem_cons_self
  | pop task queue holds found popped =>
      left
      cases hcarries with
      | call mem => exact .call mem
      | holder holds' => cases holds'
      | entry mem => exact .entry (List.mem_of_mem_tail (popped.perm.mem_iff.mp mem))
      | moved rest holds' found' => cases holds'

/-- What was passed stays in the history. -/
theorem Stepped.passed {s s' : State} (hstep : Stepped s s') {t : Nat} {p : Int} (h : s.passed[t]? = some p) :
    s'.passed[t]? = some p := by
  cases hstep with
  | execute priority =>
      obtain ⟨hlt, -⟩ := List.getElem?_eq_some_iff.mp h
      exact (List.getElem?_append_left hlt).trans h
  | fixPriority | lockExecute | emplace | unlockExecute | submit | lockLambda | top | pop | unlockLambda | start =>
      exact h

/-- **Each task carries the priority that it was passed with.** -/
theorem Inv.carried_stepped {s s' : State} (h : Inv s) (hstep : Stepped s s') {t : Nat} {p : Int}
    (hcarries : s'.Carries t p) : s'.passed[t]? = some p := by
  rcases hstep.carries hcarries with hcarries | ⟨rfl, rfl⟩
  · exact hstep.passed (h.carried t p hcarries)
  · exact List.getElem?_concat_length

/-- **One step keeps the invariant.** -/
theorem Inv.stepped {s s' : State} (h : Inv s) (hstep : Stepped s s') : Inv s' where
  heap := h.heap_stepped hstep
  length := h.length_stepped hstep
  once := h.once_stepped hstep
  moved _ := h.moved_stepped hstep
  filled := h.filled_stepped hstep
  fixed := h.fixed_stepped hstep
  carried _ _ := h.carried_stepped hstep

theorem reachable_inv {s : State} (h : system.Reachable s) : Inv s :=
  h.invariant_next inv_init fun _ _ _ hinv hnext => hinv.stepped (next_stepped hinv.fixed hnext)

/-! ## Results -/

/-- The top of the queue, with the priority that its task was passed with; the others were passed with none that is
    higher. -/
structure State.Highest (s : State) (task : Nat) (priority : Int) (rest : List TaskNode) : Prop where
  passed : s.passed[task]? = some priority
  others : ∀ node ∈ rest, ∃ other, node.task = some other ∧ s.passed[other]? = some node.priority ∧
    node.priority ≤ priority

/-- **A lambda finds a task on top**, and none of a higher priority in the queue. -/
theorem Inv.exists_top {s : State} (h : Inv s) (hholds : s.mutex_ = some .top) :
    ∃ task priority rest, s.queue_ = ⟨some task, priority⟩ :: rest ∧ s.Highest task priority rest := by
  have hlength := h.length
  have hheap := h.heap
  have hfilled := h.filled (by rw [hholds]; exact nofun)
  rw [hholds] at hlength
  cases hqueue : s.queue_ with
  | nil =>
      -- the lambda itself has an entry
      rw [hqueue] at hlength
      cases hlength
  | cons node rest =>
      rw [hqueue] at hheap hfilled
      have hcarried : ∀ other ∈ node :: rest, ∀ task, other.task = some task →
          s.passed[task]? = some other.priority := by
        intro other hother task htask
        apply h.carried
        apply State.Carries.entry
        rw [hqueue, ← htask]
        exact hother
      obtain ⟨task, htask⟩ := hfilled node List.mem_cons_self
      refine ⟨task, node.priority, rest, by rw [← htask], hcarried node List.mem_cons_self task htask, ?_⟩
      intro other hother
      obtain ⟨otherTask, hotherTask⟩ := hfilled other (List.mem_cons_of_mem _ hother)
      refine ⟨otherTask, hotherTask, hcarried other (List.mem_cons_of_mem _ hother) otherTask hotherTask, ?_⟩
      exact Int.not_lt.mp (hheap other (List.mem_cons_of_mem _ hother))

/-- The priorities of the others are not higher than that of the task that has been taken. -/
theorem Inv.pop_top {s : State} (h : Inv s) {task : Nat} (hholds : s.mutex_ = some (.pop task)) :
    ∃ priority rest, s.queue_ = ⟨none, priority⟩ :: rest ∧ s.Highest task priority rest := by
  obtain ⟨priority, rest, hqueue, hfilled⟩ := h.moved task hholds
  have hheap := h.heap
  rw [hqueue] at hheap
  refine ⟨priority, rest, hqueue, h.carried task priority (.moved rest hholds hqueue), ?_⟩
  intro node hnode
  obtain ⟨other, hother⟩ := hfilled node hnode
  refine ⟨other, hother, ?_, Int.not_lt.mp (hheap node (List.mem_cons_of_mem _ hnode))⟩
  apply h.carried
  apply State.Carries.entry
  rw [hqueue, ← hother]
  exact List.mem_cons_of_mem _ hnode

/-- The holder of `mutex_` can take its next step. -/
theorem Inv.exists_next {s : State} (h : Inv s) {x : Section} (hholds : s.mutex_ = some x) :
    ∃ a s', next s a = some s' ∧ s'.mutex_ ≠ some x := by
  have hirrefl : ∀ node, ¬ TaskNodeComparator node node := fun node => Int.lt_irrefl node.priority
  have htrans : ∀ {a b c}, TaskNodeComparator a b → TaskNodeComparator b c → TaskNodeComparator a c :=
    fun hab hbc => Int.lt_trans hab hbc
  cases x with
  | emplace task priority =>
      obtain ⟨queue, hpushed⟩ := exists_pushed hirrefl htrans s.queue_ ⟨some task, priority⟩
      refine ⟨.emplace queue, { s with queue_ := queue, mutex_ := some .emplaced }, ?_, nofun⟩
      simp only [next, hholds]
      exact if_pos hpushed
  | emplaced =>
      refine ⟨.unlockExecute, { s with mutex_ := none, submits := s.submits + 1 }, ?_, nofun⟩
      simp only [next, hholds]
  | top =>
      obtain ⟨task, priority, rest, hqueue, -⟩ := h.exists_top hholds
      refine ⟨.top, { s with queue_ := ⟨none, priority⟩ :: rest, mutex_ := some (.pop task) }, ?_, nofun⟩
      simp only [next, hholds, hqueue]
  | pop task =>
      obtain ⟨queue, hpopped⟩ := exists_popped hirrefl htrans s.queue_
      obtain ⟨priority, rest, hqueue, -⟩ := h.moved task hholds
      refine ⟨.pop queue, { s with queue_ := queue, mutex_ := some (.popped task) }, ?_, nofun⟩
      simp only [next, hholds]
      exact if_pos ⟨by rw [hqueue]; exact List.cons_ne_nil _ _, hpopped⟩
  | popped task =>
      refine ⟨.unlockLambda, { s with mutex_ := none, taken := s.taken ++ [task] }, ?_, nofun⟩
      simp only [next, hholds]

theorem Inv.started_le_one {s : State} (h : Inv s) (t : Nat) :
    s.started.count t ≤ if t < s.passed.length then 1 else 0 := by
  rw [← h.once t]
  exact Nat.le_add_left _ _

/-- **Once all lambdas have run, every task has been started, and the queue is empty.** -/
theorem Inv.all_started {s : State} (h : Inv s) (hcalls : s.calls = []) (hsubmits : s.submits = 0)
    (hlambdas : s.lambdas = 0) (hfree : s.mutex_ = none) (htaken : s.taken = []) :
    s.queue_ = [] ∧ ∀ t < s.passed.length, s.started.count t = 1 := by
  have hqueue : s.queue_ = [] := by
    apply List.eq_nil_of_length_eq_zero
    rw [h.length, hsubmits, hlambdas, hfree]
    rfl
  refine ⟨hqueue, fun t ht => ?_⟩
  have honce := h.once t
  unfold State.places at honce
  rw [hcalls, hfree, hqueue, htaken, if_pos ht] at honce
  simpa using honce

/-- **Tasks and slots match.** In every reachable state: the queue has an entry for each lambda that has been
    submitted and has not popped, with the priority that its task was passed with; a lambda that looks at the top finds
    a task there, takes it, and none in the queue was passed with a higher priority; the entry it pops is the one that
    it took the task from; an executor of `FixPriority` passes each task on, with the priority of its call; no task is
    started twice, or without having been passed to `Execute`; and once no call is in progress and all lambdas have
    run, each task has been started, once, and the queue is empty. The holder of the lock is never stuck. -/
theorem slots_match {s : State} (h : system.Reachable s) :
    s.lambdas + s.mutex_.elim 0 Section.lambdas ≤ s.queue_.length ∧
      (∀ task priority, ⟨some task, priority⟩ ∈ s.queue_ → s.passed[task]? = some priority) ∧
      (s.mutex_ = some .top → ∃ task priority rest, s.queue_ = ⟨some task, priority⟩ :: rest ∧
        s.Highest task priority rest ∧
        next s .top = some { s with queue_ := ⟨none, priority⟩ :: rest, mutex_ := some (.pop task) }) ∧
      (∀ task, s.mutex_ = some (.pop task) → ∃ priority rest, s.queue_ = ⟨none, priority⟩ :: rest ∧
        s.Highest task priority rest) ∧
      (∀ i priority, s.fixes[i]? = some priority → ∃ s', next s (.executeFixed i) = some s' ∧
        s'.passed = s.passed ++ [priority] ∧ s'.calls = s.calls ++ [(s.passed.length, priority)]) ∧
      (s.started.Nodup ∧ ∀ t ∈ s.started, t < s.passed.length) ∧
      (s.calls = [] → s.submits = 0 → s.lambdas = 0 → s.mutex_ = none → s.taken = [] →
        s.queue_ = [] ∧ ∀ t < s.passed.length, s.started.count t = 1) ∧
      ∀ x, s.mutex_ = some x → ∃ a s', next s a = some s' ∧ s'.mutex_ ≠ some x := by
  have hinv := reachable_inv h
  refine ⟨?_, fun task priority hmem => hinv.carried task priority (.entry hmem), fun hholds => ?_,
    fun task => hinv.pop_top, fun i priority hpriority => ?_, ⟨?_, fun t ht => ?_⟩, hinv.all_started,
    fun x => hinv.exists_next⟩
  · rw [hinv.length]
    cases s.mutex_ with
    | none => exact Nat.le_add_left s.lambdas s.submits
    | some x =>
        have hle : x.lambdas ≤ x.slots := x.lambdas_le_slots
        show s.lambdas + x.lambdas ≤ s.submits + s.lambdas + x.slots
        omega
  · obtain ⟨task, priority, rest, hqueue, hhighest⟩ := hinv.exists_top hholds
    refine ⟨task, priority, rest, hqueue, hhighest, ?_⟩
    simp only [next, hholds, hqueue]
  · have hx : s.fixed[i]? = some ⟨priority⟩ := by
      rw [hinv.fixed, List.getElem?_map, hpriority]
      rfl
    refine ⟨s.passes priority, ?_, rfl, rfl⟩
    simp only [next, hx, hpriority]
    rfl
  · rw [List.nodup_iff_count_le_one]
    intro t
    apply Nat.le_trans (hinv.started_le_one t)
    split <;> omega
  · by_contra hnot
    have hzero := hinv.started_le_one t
    rw [if_neg hnot, Nat.le_zero, List.count_eq_zero] at hzero
    exact hzero ht

/-- Task 1 is passed through `FixPriority`, while the lambda of task 0 is on its way, which then runs task 1. -/
theorem slots_match_overtaken : ∃ s, system.Reachable s ∧ s.passed = [3, 7] ∧ s.started = [1, 0] ∧
    s.queue_ = [] ∧ ∀ t < 2, s.started.count t = 1 := by
  have hrun : ∃ s, System.run next ({} : State)
      [.execute 3, .fixPriority 7, .lockExecute 0 3, .emplace [⟨some 0, 3⟩], .unlockExecute, .executeFixed 0,
        .submit, .lockExecute 1 7, .emplace [⟨some 1, 7⟩, ⟨some 0, 3⟩], .unlockExecute, .lockLambda, .top,
        .pop [⟨some 0, 3⟩], .unlockLambda, .start 1, .submit, .lockLambda, .top, .pop [], .unlockLambda, .start 0] =
        some s ∧ s.started = [1, 0] ∧ s.passed = [3, 7] ∧ s.calls = [] ∧ s.submits = 0 ∧ s.lambdas = 0 ∧
        s.mutex_ = none ∧ s.taken = [] := ⟨_, rfl, rfl, rfl, rfl, rfl, rfl, rfl, rfl⟩
  obtain ⟨s, hs, hstarted, hpassed, hcalls, hsubmits, hlambdas, hfree, htaken⟩ := hrun
  have h : system.Reachable s := System.reachable_of_run _ hs
  obtain ⟨hqueue, hall⟩ := (slots_match h).2.2.2.2.2.2.1 hcalls hsubmits hlambdas hfree htaken
  exact ⟨s, h, hpassed, hstarted, hqueue, fun t ht => hall t (by rw [hpassed]; exact ht)⟩

end PriorityExecutor
end Executors
end Tpcc
