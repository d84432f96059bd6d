import Mathlib.Data.Fintype.Sum
import Tpcc.Fibers.Coroutine
import Tpcc.Transition.Exclusive
import Tpcc.Transition.Total

/-!
# `Fibers.Fiber` — fibers of a thread pool, over coroutines

`Fiber::PlanTask` and its task, `CoroutineFactory`, `~Fiber`, `Spawn`, `Yield` and `StackAllocator`, one
operation at a time, for any number of workers. The pool keeps the tasks that `Submit` and
`SubmitContinuation` have handed to asio, and any worker runs any of them, each once. The coroutines are those of
`Fibers.Coroutine`, with the worker as the mark of a `Resume`.

A fiber owns itself: nothing but its task refers to it. So everything rests on there being one task, in the
pool or on a worker (`owners`); what the worker does to the fiber then disturbs no other worker.

## Contents
- **The task.** `Pc`: the operation of the task a worker does next. `exec`: it does it.
- **The code of the routines.** It yields, spawns or returns, whenever a worker runs it.
- **Ownership.** `Inv`: `owners`, and what a worker knows of the fiber it has (`Has`).
- **Results.** `fibers_sound`.
-/

namespace Tpcc
namespace Fibers

open Transition

/-- The members of a `Fiber` but for its routine and its scheduler. The coroutine of a fiber has the fiber's
    number. -/
structure Fiber where
  coroutine_ : Option Nat := none
  stack_ : Option Nat := none

/-- The free stacks. `mapped` numbers the stacks there have been. -/
structure StackAllocator where
  pool_ : List Nat := []
  mapped : Nat := 0

namespace StackAllocator

def allocate (a : StackAllocator) : Nat × StackAllocator :=
  match a.pool_.getLast? with
  | some stack => (stack, { a with pool_ := a.pool_.dropLast })
  | none => (a.mapped, { a with mapped := a.mapped + 1 })

def release (a : StackAllocator) (stack : Nat) : StackAllocator := { a with pool_ := a.pool_ ++ [stack] }

/-- No stack is in the pool twice, and all have been mapped. -/
structure Wf (a : StackAllocator) : Prop where
  nodup : a.pool_.Nodup
  lt : ∀ stack ∈ a.pool_, stack < a.mapped

/-- The stack is in use: it has been mapped, and it is not free. -/
structure InUse (a : StackAllocator) (stack : Nat) : Prop where
  lt : stack < a.mapped
  notMem : stack ∉ a.pool_

/-- **`Allocate` gives a stack that is not in use**, and that then is. -/
theorem allocate_spec {a : StackAllocator} (h : a.Wf) :
    a.allocate.2.Wf ∧ ¬ a.InUse a.allocate.1 ∧ a.allocate.2.InUse a.allocate.1 ∧
      ∀ stack, a.InUse stack → a.allocate.2.InUse stack := by
  unfold allocate
  split
  · next stack hlast =>
      have hmem : stack ∈ a.pool_ := List.mem_of_getLast? hlast
      have hnodup := h.nodup
      rw [← List.dropLast_append_getLast? stack hlast, List.nodup_append_comm, List.singleton_append,
        List.nodup_cons] at hnodup
      refine ⟨⟨hnodup.2, fun t ht => h.lt t (List.mem_of_mem_dropLast ht)⟩, fun hused => hused.notMem hmem,
        ⟨h.lt stack hmem, hnodup.1⟩, fun t ht => ⟨ht.lt, fun hfree => ht.notMem (List.mem_of_mem_dropLast hfree)⟩⟩
  · refine ⟨⟨h.nodup, fun t ht => Nat.lt_succ_of_lt (h.lt t ht)⟩, fun hused => Nat.lt_irrefl _ hused.lt,
      ⟨Nat.lt_succ_self _, fun hfree => Nat.lt_irrefl _ (h.lt _ hfree)⟩, fun t ht => ⟨Nat.lt_succ_of_lt ht.lt, ht.notMem⟩⟩

/-- **`Release` takes back a stack that is in use**; the others still are. -/
theorem release_spec {a : StackAllocator} (h : a.Wf) {stack : Nat} (hstack : a.InUse stack) :
    (a.release stack).Wf ∧ ∀ t, t ≠ stack → a.InUse t → (a.release stack).InUse t := by
  refine ⟨⟨?_, fun t ht => ?_⟩, fun t hne ht => ⟨ht.lt, fun hmem => ?_⟩⟩
  · show (a.pool_ ++ [stack]).Nodup
    rw [List.nodup_append_comm, List.singleton_append, List.nodup_cons]
    exact ⟨hstack.notMem, h.nodup⟩
  · rcases List.mem_append.mp ht with ht | ht
    · exact h.lt t ht
    · rw [List.mem_singleton.mp ht]
      exact hstack.lt
  · rcases List.mem_append.mp hmem with hmem | hmem
    · exact ht.notMem hmem
    · exact hne (List.mem_singleton.mp hmem)

end StackAllocator

namespace Fiber

/-- What a worker does next in the task of a fiber. -/
inductive Pc where
  /-- No task. -/
  | idle
  /-- `CoroutineFactory`: `coroutine_ != nullptr`. -/
  | factory (f : Nat)
  /-- `CoroutineFactory`: `stack_ = AllocateStack()`. -/
  | allocate (f : Nat)
  /-- `ConstructCoroutine()`. -/
  | construct (f : Nat)
  /-- `worker_co->Resume()`. -/
  | resume (f : Nat)
  /-- Inside `worker_co->Resume()`, on the other side of its switch or on the way back. -/
  | inside (f : Nat)
  /-- `worker_co->IsCompleted()`. -/
  | check (f : Nat)
  /-- `PlanTask(WithContinuation)`. -/
  | submit (f : Nat)
  /-- `delete this`: `ReleaseStack(std::move(stack_))`. -/
  | release (f : Nat)
  /-- `delete this`: the members are destroyed, and the memory is freed. -/
  | destroy (f : Nat)
  /-- The task is done with the fiber, but has yet to return. -/
  | unwind

/-- The tasks in the pool, the fibers that have not been deleted with their coroutines, the free stacks, and where
    the workers are. `calls` has the fiber that a call of `Spawn` has constructed and not scheduled yet: a call by
    the code that runs on a worker, or by a thread outside the pool. `created` numbers the fibers there have been.
    `returned` and `deleted` are history. -/
structure State (ω κ : Type) where
  tasks : List Nat := []
  fibers : Nat → Option Fiber := fun _ => none
  coroutines : Nat → Coroutine Nat ω Empty := Coroutine.create
  allocator : StackAllocator := {}
  pc : ω → Pc := fun _ => .idle
  threads : ω → Thread Nat ω := fun _ => {}
  calls : ω ⊕ κ → Option Nat := fun _ => none
  created : Nat := 0
  returned : List Nat := []
  deleted : List Nat := []

/-- Who takes the next step: a worker that takes a task from the pool, or does its next operation; the code of a
    routine that yields or returns; and a call of `Spawn` that constructs a fiber, or schedules it. -/
inductive Action (ω κ : Type) where
  | take (w : ω) (f : Nat)
  | step (w : ω)
  | yield (w : ω)
  | finish (w : ω)
  | spawn (c : ω ⊕ κ)
  | schedule (c : ω ⊕ κ)

variable {ω κ : Type} [DecidableEq ω] [DecidableEq κ]

namespace State

def setPc (s : State ω κ) (w : ω) (pc : Pc) : State ω κ := { s with pc := Function.update s.pc w pc }

def setFiber (s : State ω κ) (f : Nat) (x : Option Fiber) : State ω κ :=
  { s with fibers := Function.update s.fibers f x }

def setThread (s : State ω κ) (w : ω) (th : Thread Nat ω) : State ω κ :=
  { s with threads := Function.update s.threads w th }

/-- The code of a routine runs on worker `w`, and is not in a call of `Spawn`. -/
def InCode (s : State ω κ) (w : ω) : Prop :=
  (match (s.threads w).running.frame with
    | .code => True
    | _ => False) ∧ (s.threads w).running.stack ≠ none ∧ s.calls (.inl w) = none

instance (s : State ω κ) (w : ω) : Decidable (s.InCode w) := by
  unfold InCode
  split <;> infer_instance

end State

/-- On the other side of the switch, or on the way back: the `Resume` that ends is this worker's. -/
def proceed (s : State ω κ) (w : ω) (f : Nat) : Option (State ω κ) :=
  (Coroutine.proceed s.coroutines (s.threads w)).bind fun th =>
    match (s.threads w).running.frame with
    | .resume g w' => if g = f ∧ w' = w then some ((s.setThread w th).setPc w (.check f)) else none
    | _ => some (s.setThread w th)

/-- The next operation of worker `w`. A fiber that has been deleted can be read no more. -/
def exec (s : State ω κ) (w : ω) : Option (State ω κ) :=
  match s.pc w with
  | .idle => none
  | .factory f => (s.fibers f).map fun x => s.setPc w (if x.coroutine_ = none then .allocate f else .resume f)
  | .allocate f =>
      (s.fibers f).map fun x =>
        { (s.setFiber f (some { x with stack_ := some s.allocator.allocate.1 })).setPc w (.construct f) with
          allocator := s.allocator.allocate.2 }
  | .construct f =>
      (s.fibers f).map fun x =>
        { (s.setFiber f (some { x with coroutine_ := some f })).setPc w (.resume f) with
          coroutines := Function.update s.coroutines f (Coroutine.create f) }
  | .resume f =>
      (s.fibers f).bind fun _ =>
        (Coroutine.resume s.coroutines (s.threads w) f w).map fun p =>
          { (s.setThread w p.2).setPc w (.inside f) with coroutines := p.1 }
  | .inside f => proceed s w f
  | .check f =>
      (s.fibers f).map fun _ => s.setPc w (if (s.coroutines f).completed_ then .release f else .submit f)
  | .submit f => (s.fibers f).map fun _ => { s.setPc w .unwind with tasks := s.tasks ++ [f] }
  | .release f =>
      (s.fibers f).bind fun x => x.stack_.map fun stack =>
        { (s.setFiber f (some { x with stack_ := none })).setPc w (.destroy f) with
          allocator := s.allocator.release stack }
  | .destroy f =>
      (s.fibers f).map fun _ => { (s.setFiber f none).setPc w .unwind with deleted := s.deleted ++ [f] }
  | .unwind => some (s.setPc w .idle)

/-- Who can call `Spawn`: code on a worker, or a thread outside that is not in another call. -/
def State.CanSpawn (s : State ω κ) : ω ⊕ κ → Prop
  | .inl w => s.InCode w
  | .inr k => s.calls (.inr k) = none

instance (s : State ω κ) (c : ω ⊕ κ) : Decidable (s.CanSpawn c) := by
  cases c <;> unfold State.CanSpawn <;> infer_instance

def next (s : State ω κ) : Action ω κ → Option (State ω κ)
  | .take w f =>
      match s.pc w with
      | .idle => if f ∈ s.tasks then some { s.setPc w (.factory f) with tasks := s.tasks.erase f } else none
      | _ => none
  | .step w => exec s w
  | .yield w =>
      if s.InCode w then
        (Coroutine.suspend s.coroutines (s.threads w)).map fun p => { s.setThread w p.2 with coroutines := p.1 }
      else none
  | .finish w =>
      if s.InCode w then
        (Coroutine.finish s.coroutines (s.threads w) none).map fun p =>
          { s.setThread w p.2 with coroutines := p.1, returned := s.returned ++ (s.threads w).running.stack.toList }
      else none
  | .spawn c =>
      if s.CanSpawn c then
        some { s.setFiber s.created (some {}) with
          calls := Function.update s.calls c (some s.created)
          created := s.created + 1 }
      else none
  | .schedule c =>
      (s.calls c).bind fun f => (s.fibers f).map fun _ =>
        { s with tasks := s.tasks ++ [f], calls := Function.update s.calls c none }

/-- All runs of workers `ω`, and of threads `κ` outside the pool that spawn fibers. -/
def system (ω κ : Type) [DecidableEq ω] [DecidableEq κ] : System (State ω κ) := System.ofNext {} next

/-! ## Owners -/

namespace Pc

/-- The fiber that a worker has. -/
def fiber : Pc → Option Nat
  | .idle => none
  | .factory f => some f
  | .allocate f => some f
  | .construct f => some f
  | .resume f => some f
  | .inside f => some f
  | .check f => some f
  | .submit f => some f
  | .release f => some f
  | .destroy f => some f
  | .unwind => none

end Pc

/-- 1 if it is this fiber. -/
def counts (f : Nat) (g : Option Nat) : Nat := if g = some f then 1 else 0

theorem counts_self (f : Nat) : counts f (some f) = 1 := if_pos rfl

theorem counts_none (f : Nat) : counts f none = 0 := if_neg nofun

theorem counts_of_ne {f : Nat} {g : Option Nat} (h : g ≠ some f) : counts f g = 0 := if_neg h

namespace State

/-- The tasks of fiber `f`: those in the pool, and those that workers run and that still use the fiber. -/
def tasksOf [Fintype ω] (s : State ω κ) (f : Nat) : Nat := s.tasks.count f + total (fun pc => counts f pc.fiber) s.pc

/-- The calls of `Spawn` that are about to schedule fiber `f`. -/
def spawnsOf [Fintype ω] [Fintype κ] (s : State ω κ) (f : Nat) : Nat := total (counts f) s.calls

end State

section

omit [DecidableEq ω] [DecidableEq κ]

/-! ## What is known of a fiber -/

/-- The coroutine is constructed, on a stack. -/
def Started (s : State ω κ) (f : Nat) : Prop := ∃ stack, s.fibers f = some ⟨some f, some stack⟩

/-- The coroutine can be resumed. -/
def Ready (s : State ω κ) (f : Nat) : Prop := Closed f (s.coroutines f) ∧ (s.coroutines f).completed_ = false

/-- The routine has returned. -/
def Done (s : State ω κ) (f : Nat) : Prop := (s.coroutines f).completed_ = true ∧ f ∈ s.returned

/-- The fiber waits for its task to be run. -/
def Waiting (s : State ω κ) (f : Nat) : Prop := s.fibers f = some {} ∨ Started s f ∧ Ready s f

/-- Worker `w` has resumed fiber `f`, and is on the other side of the switch or on the way back. -/
inductive Inside (s : State ω κ) (w : ω) (f : Nat) : Prop where
  | code (thread : s.threads w = ⟨some f, some f, some f, .code⟩)
      (coroutine : s.coroutines f = .running ⟨none, none, .resume f w⟩ none)
  | start (thread : s.threads w = ⟨some f, some f, none, .start⟩)
      (coroutine : s.coroutines f = .running ⟨none, none, .resume f w⟩ none)
  | suspend (thread : s.threads w = ⟨some f, some f, some f, .suspend f⟩)
      (coroutine : s.coroutines f = .running ⟨none, none, .resume f w⟩ none)
  | back (thread : (s.threads w).running = ⟨none, none, .resume f w⟩) (parent : (s.coroutines f).parent_ = none)
      (stopped : Ready s f ∨ Done s f)

/-- What worker `w` knows when it is here. -/
def Has (s : State ω κ) (w : ω) : Pc → Prop
  | .idle => s.threads w = {}
  | .factory f => s.threads w = {} ∧ Waiting s f
  | .allocate f => s.threads w = {} ∧ s.fibers f = some {}
  | .construct f => s.threads w = {} ∧ ∃ stack, s.fibers f = some ⟨none, some stack⟩
  | .resume f => s.threads w = {} ∧ Started s f ∧ Ready s f
  | .inside f => Started s f ∧ Inside s w f
  | .check f => s.threads w = {} ∧ Started s f ∧ (Ready s f ∨ Done s f)
  | .submit f => s.threads w = {} ∧ Started s f ∧ Ready s f
  | .release f => s.threads w = {} ∧ Started s f ∧ Done s f
  | .destroy f => s.threads w = {} ∧ s.fibers f = some ⟨some f, none⟩ ∧ Done s f
  | .unwind => s.threads w = {}

/-- Nothing happens to fiber `f`. -/
structure Same (s s' : State ω κ) (f : Nat) : Prop where
  fiber : s'.fibers f = s.fibers f
  coroutine : s'.coroutines f = s.coroutines f
  returned : f ∈ s.returned → f ∈ s'.returned

variable {s s' : State ω κ} {w : ω} {f : Nat}

theorem Same.started (h : Same s s' f) (hs : Started s f) : Started s' f := by
  unfold Started
  rwa [h.fiber]

theorem Same.ready (h : Same s s' f) (hs : Ready s f) : Ready s' f := by
  unfold Ready
  rwa [h.coroutine]

theorem Same.done (h : Same s s' f) (hs : Done s f) : Done s' f := by
  unfold Done
  rw [h.coroutine]
  exact ⟨hs.1, h.returned hs.2⟩

theorem Same.waiting (h : Same s s' f) (hs : Waiting s f) : Waiting s' f :=
  hs.imp (h.fiber.trans ·) fun hs => ⟨h.started hs.1, h.ready hs.2⟩

theorem Same.stopped (h : Same s s' f) (hs : Ready s f ∨ Done s f) : Ready s' f ∨ Done s' f :=
  hs.imp h.ready h.done

theorem Same.inside (h : Same s s' f) (hthread : s'.threads w = s.threads w) (hs : Inside s w f) : Inside s' w f := by
  cases hs with
  | code thread coroutine => exact .code (hthread.trans thread) (h.coroutine.trans coroutine)
  | start thread coroutine => exact .start (hthread.trans thread) (h.coroutine.trans coroutine)
  | suspend thread coroutine => exact .suspend (hthread.trans thread) (h.coroutine.trans coroutine)
  | back thread parent stopped =>
      exact .back (by rw [hthread, thread]) (by rw [h.coroutine, parent]) (h.stopped stopped)

/-- What a worker knows stays true while nothing happens to its thread and its fiber. -/
theorem Has.frame {pc : Pc} (h : Has s w pc) (hthread : s'.threads w = s.threads w)
    (hsame : ∀ f, pc.fiber = some f → Same s s' f) : Has s' w pc := by
  cases pc with
  | idle | unwind => exact hthread.trans h
  | factory f => exact ⟨hthread.trans h.1, (hsame f rfl).waiting h.2⟩
  | allocate f => exact ⟨hthread.trans h.1, (hsame f rfl).fiber.trans h.2⟩
  | construct f => exact ⟨hthread.trans h.1, by rw [(hsame f rfl).fiber]; exact h.2⟩
  | resume f | submit f => exact ⟨hthread.trans h.1, (hsame f rfl).started h.2.1, (hsame f rfl).ready h.2.2⟩
  | inside f => exact ⟨(hsame f rfl).started h.1, (hsame f rfl).inside hthread h.2⟩
  | check f => exact ⟨hthread.trans h.1, (hsame f rfl).started h.2.1, (hsame f rfl).stopped h.2.2⟩
  | release f => exact ⟨hthread.trans h.1, (hsame f rfl).started h.2.1, (hsame f rfl).done h.2.2⟩
  | destroy f => exact ⟨hthread.trans h.1, (hsame f rfl).fiber.trans h.2.1, (hsame f rfl).done h.2.2⟩

/-! ## Stacks -/

/-- The stack of fiber `f`. -/
def State.stack (s : State ω κ) (f : Nat) : Option Nat := (s.fibers f).bind Fiber.stack_

/-- No stack is in two places. -/
structure Stacks (s : State ω κ) : Prop where
  wf : s.allocator.Wf
  owned : ∀ f stack, s.stack f = some stack → s.allocator.InUse stack
  injective : ∀ f g stack, s.stack f = some stack → s.stack g = some stack → f = g

/-- Stacks stay where they are. -/
theorem Stacks.same {s s' : State ω κ} (h : Stacks s) (hstack : ∀ f, s'.stack f = s.stack f)
    (hallocator : s'.allocator = s.allocator) : Stacks s' where
  wf := hallocator ▸ h.wf
  owned f stack hf := hallocator ▸ h.owned f stack (hstack f ▸ hf)
  injective f g stack hf hg := h.injective f g stack (hstack f ▸ hf) (hstack g ▸ hg)

theorem stack_update {s s' : State ω κ} {f : Nat} {x : Option Fiber} (h : s'.fibers = Function.update s.fibers f x) :
    s'.stack = Function.update s.stack f (x.bind Fiber.stack_) := by
  funext g
  unfold State.stack
  rw [h]
  by_cases hg : g = f
  · rw [hg, Function.update_self, Function.update_self]
  · rw [Function.update_of_ne hg, Function.update_of_ne hg]

theorem Stacks.allocate {s s' : State ω κ} (h : Stacks s) {f : Nat} {x : Fiber}
    (hfibers : s'.fibers = Function.update s.fibers f (some { x with stack_ := some s.allocator.allocate.1 }))
    (hallocator : s'.allocator = s.allocator.allocate.2) : Stacks s' := by
  have hstack : s'.stack = Function.update s.stack f (some s.allocator.allocate.1) := stack_update hfibers
  obtain ⟨hwf, hfree, hused, hkept⟩ := StackAllocator.allocate_spec h.wf
  have hcases : ∀ g t, s'.stack g = some t → (g = f ∧ t = s.allocator.allocate.1) ∨ s.stack g = some t := by
    intro g t hg
    rw [hstack] at hg
    by_cases hgf : g = f
    · rw [hgf, Function.update_self] at hg
      exact .inl ⟨hgf, (Option.some.inj hg).symm⟩
    · rw [Function.update_of_ne hgf] at hg
      exact .inr hg
  refine ⟨hallocator ▸ hwf, fun g t hg => ?_, fun g g' t hg hg' => ?_⟩
  · rw [hallocator]
    rcases hcases g t hg with ⟨-, ht⟩ | hold
    · exact ht ▸ hused
    · exact hkept t (h.owned g t hold)
  · rcases hcases g t hg with ⟨hgf, ht⟩ | hold <;> rcases hcases g' t hg' with ⟨hgf', ht'⟩ | hold'
    · exact hgf.trans hgf'.symm
    · -- the stack was free, so no fiber had it
      exact absurd (h.owned g' _ (ht ▸ hold')) hfree
    · exact absurd (h.owned g _ (ht' ▸ hold)) hfree
    · exact h.injective g g' t hold hold'

theorem Stacks.release {s s' : State ω κ} (h : Stacks s) {f stack : Nat} {x : Fiber} (hf : s.stack f = some stack)
    (hfibers : s'.fibers = Function.update s.fibers f (some { x with stack_ := none }))
    (hallocator : s'.allocator = s.allocator.release stack) : Stacks s' := by
  have hstack : s'.stack = Function.update s.stack f none := stack_update hfibers
  obtain ⟨hwf, hkept⟩ := StackAllocator.release_spec h.wf (h.owned f stack hf)
  have hcases : ∀ g t, s'.stack g = some t → g ≠ f ∧ s.stack g = some t := by
    intro g t hg
    rw [hstack] at hg
    exact of_update (P := fun stack => stack = some t) (Option.some_ne_none t).symm hg
  refine ⟨hallocator ▸ hwf, fun g t hg => ?_, fun g g' t hg hg' => ?_⟩
  · obtain ⟨hne, hold⟩ := hcases g t hg
    rw [hallocator]
    exact hkept t (fun heq => hne (h.injective g f t hold (heq ▸ hf))) (h.owned g t hold)
  · exact h.injective g g' t (hcases g t hg).2 (hcases g' t hg').2

/-- A fiber whose stack stays. -/
theorem stack_keep {s s' : State ω κ} {f : Nat} {x : Option Fiber} (h : s'.fibers = Function.update s.fibers f x)
    (hx : x.bind Fiber.stack_ = s.stack f) (g : Nat) : s'.stack g = s.stack g := by
  rw [stack_update h, hx, Function.update_eq_self]

end

/-! ## The invariant -/

variable [Fintype ω] [Fintype κ]

/-- Everything that has fiber `f`: the tasks in the pool, the workers, and the calls of `Spawn`. -/
def ownersOf (tasks : List Nat) (pcs : ω → Pc) (calls : ω ⊕ κ → Option Nat) (f : Nat) : Nat :=
  tasks.count f + total (fun pc => counts f pc.fiber) pcs + total (counts f) calls

structure Inv (s : State ω κ) : Prop where
  owners : ∀ f, ownersOf s.tasks s.pc s.calls f = if (s.fibers f).isSome then 1 else 0
  has : ∀ w, Has s w (s.pc w)
  tasks : ∀ f ∈ s.tasks, Waiting s f
  calls : ∀ c f, s.calls c = some f → s.fibers f = some {}
  distinct : Stacks s
  unborn : ∀ f, s.created ≤ f → s.fibers f = none
  deleted : ∀ f, f ∈ s.deleted ↔ f < s.created ∧ s.fibers f = none
  once : s.deleted.Nodup
  returned : ∀ f ∈ s.deleted, f ∈ s.returned

section

omit [DecidableEq ω] [DecidableEq κ]

/-- The fiber is there, and worker `w` alone has it. -/
structure Sole (s : State ω κ) (w : ω) (f : Nat) : Prop where
  live : (s.fibers f).isSome = true
  workers : ∀ w', w' ≠ w → (s.pc w').fiber ≠ some f
  tasks : f ∉ s.tasks
  calls : ∀ c, s.calls c ≠ some f

/-- **A worker has its fiber for itself.** -/
theorem Inv.sole {s : State ω κ} (h : Inv s) {w : ω} {f : Nat} (hw : (s.pc w).fiber = some f) : Sole s w f := by
  have howners := h.owners f
  have hself : counts f (s.pc w).fiber = 1 := by rw [hw, counts_self]
  have hle := le_total (fun pc => counts f pc.fiber) s.pc w
  unfold ownersOf at howners
  have hlive : (s.fibers f).isSome = true := by
    by_contra hnot
    rw [if_neg hnot] at howners
    omega
  -- the worker is the one owner, so there is no other
  rw [if_pos hlive] at howners
  refine ⟨hlive, fun w' hne hw' => ?_, fun hmem => ?_, fun c hc => ?_⟩
  · have htwo := add_le_total (fun pc => counts f pc.fiber) s.pc hne
    have hother : counts f (s.pc w').fiber = 1 := by rw [hw', counts_self]
    omega
  · have hcount := List.count_pos_iff.mpr hmem
    omega
  · have hcall := le_total (counts f) s.calls c
    rw [hc, counts_self] at hcall
    omega

/-- A step of worker `w` on its fiber `f`. -/
structure Moves (s s' : State ω κ) (w : ω) (f : Nat) : Prop where
  pc : ∀ w', w' ≠ w → s'.pc w' = s.pc w'
  threads : ∀ w', w' ≠ w → s'.threads w' = s.threads w'
  same : ∀ g, g ≠ f → Same s s' g
  calls : s'.calls = s.calls
  created : s'.created = s.created

/-- The other workers know what they knew. -/
theorem Moves.has {s s' : State ω κ} {w : ω} {f : Nat} (h : Moves s s' w f) (hinv : Inv s) (hsole : Sole s w f)
    {pc' : Pc} (hpc : s'.pc w = pc') (hholds : Has s' w pc') (w' : ω) : Has s' w' (s'.pc w') := by
  by_cases hw : w' = w
  · rw [hw, hpc]
    exact hholds
  · rw [h.pc w' hw]
    refine (hinv.has w').frame (h.threads w' hw) fun g hg => h.same g ?_
    rintro rfl
    exact hsole.workers w' hw hg

theorem Moves.tasks {s s' : State ω κ} {w : ω} {f : Nat} (h : Moves s s' w f) (hinv : Inv s) (hsole : Sole s w f) :
    ∀ g ∈ s.tasks, Waiting s' g := by
  intro g hg
  apply (h.same g _).waiting (hinv.tasks g hg)
  rintro rfl
  exact hsole.tasks hg

theorem Moves.calls_fresh {s s' : State ω κ} {w : ω} {f : Nat} (h : Moves s s' w f) (hinv : Inv s) (hsole : Sole s w f) :
    ∀ c g, s'.calls c = some g → s'.fibers g = some {} := by
  intro c g hc
  rw [h.calls] at hc
  rw [(h.same g _).fiber]
  · exact hinv.calls c g hc
  · rintro rfl
    exact hsole.calls c hc

omit [Fintype κ] in
/-- A worker goes on with the fiber it has. -/
theorem total_keep {s s' : State ω κ} {w : ω} {f : Nat} (h : Moves s s' w f) (hw : (s'.pc w).fiber = (s.pc w).fiber)
    (g : Nat) : total (fun pc => counts g pc.fiber) s'.pc = total (fun pc => counts g pc.fiber) s.pc := by
  apply total_congr
  intro w'
  by_cases hne : w' = w
  · rw [hne, hw]
  · rw [h.pc w' hne]

/-- **A worker does something to the fiber it has, and keeps it.** -/
theorem Inv.internal {s s' : State ω κ} (h : Inv s) {w : ω} {f : Nat} {pc' : Pc} (hw : (s.pc w).fiber = some f)
    (hpc : s'.pc w = pc') (hfiber : pc'.fiber = some f) (hmoves : Moves s s' w f)
    (hlive : (s'.fibers f).isSome = true) (htasks : s'.tasks = s.tasks) (hdeleted : s'.deleted = s.deleted)
    (hholds : Has s' w pc') (hdistinct : Stacks s') : Inv s' := by
  have hsole := h.sole hw
  have hsome : ∀ g, (s'.fibers g).isSome = (s.fibers g).isSome := by
    intro g
    by_cases hg : g = f
    · rw [hg, hlive, hsole.live]
    · rw [(hmoves.same g hg).fiber]
  have hnone : ∀ g, s'.fibers g = none ↔ s.fibers g = none := by
    intro g
    rw [← Option.isNone_iff_eq_none, ← Option.isNone_iff_eq_none, ← Option.not_isSome, ← Option.not_isSome, hsome]
  constructor
  · intro g
    unfold ownersOf
    rw [htasks, hmoves.calls, total_keep hmoves (by rw [hpc, hfiber, hw]), hsome]
    exact h.owners g
  · exact hmoves.has h hsole hpc hholds
  · rw [htasks]
    exact hmoves.tasks h hsole
  · exact hmoves.calls_fresh h hsole
  · exact hdistinct
  · intro g hg
    rw [hmoves.created] at hg
    exact (hnone g).mpr (h.unborn g hg)
  · intro g
    rw [hdeleted, hmoves.created, hnone]
    exact h.deleted g
  · rw [hdeleted]
    exact h.once
  · intro g hg
    rw [hdeleted] at hg
    by_cases hgf : g = f
    · have hdead := ((h.deleted g).mp hg).2
      rw [hgf] at hdead
      have hsome := hsole.live
      rw [hdead] at hsome
      cases hsome
    · exact (hmoves.same g hgf).returned (h.returned g hg)

end

/-! ## The operations of the task -/

omit [DecidableEq κ] in
/-- A worker that only looks at its fiber. -/
theorem Inv.setPc {s : State ω κ} (h : Inv s) {w : ω} {f : Nat} {pc' : Pc} (hw : (s.pc w).fiber = some f)
    (hfiber : pc'.fiber = some f) (hholds : Has s w pc') : Inv (s.setPc w pc') := by
  refine h.internal hw (Function.update_self ..) hfiber ?_ (h.sole hw).live rfl rfl ?_ ?_
  · exact ⟨fun _ hne => Function.update_of_ne hne .., fun _ _ => rfl, fun _ _ => ⟨rfl, rfl, id⟩, rfl, rfl⟩
  · exact hholds.frame rfl fun _ _ => ⟨rfl, rfl, id⟩
  · exact h.distinct.same (fun _ => rfl) rfl

omit [DecidableEq κ] in
theorem Inv.factory {s s' : State ω κ} (h : Inv s) {w : ω} {f : Nat} (hpc : s.pc w = .factory f)
    (hexec : exec s w = some s') : Inv s' := by
  have hhas := h.has w
  rw [hpc] at hhas
  obtain ⟨hthread, hwaiting⟩ := hhas
  simp only [exec, hpc] at hexec
  rcases hwaiting with hfresh | ⟨⟨stack, hstarted⟩, hready⟩
  · -- the first task of the fiber
    rw [hfresh] at hexec
    obtain rfl := Option.some.inj hexec
    exact h.setPc (by rw [hpc]; rfl) rfl ⟨hthread, hfresh⟩
  · rw [hstarted] at hexec
    obtain rfl := Option.some.inj hexec
    exact h.setPc (by rw [hpc]; rfl) rfl ⟨hthread, ⟨stack, hstarted⟩, hready⟩

omit [DecidableEq κ] in
theorem Inv.allocate {s s' : State ω κ} (h : Inv s) {w : ω} {f : Nat} (hpc : s.pc w = .allocate f)
    (hexec : exec s w = some s') : Inv s' := by
  have hhas := h.has w
  rw [hpc] at hhas
  obtain ⟨hthread, hfresh⟩ := hhas
  simp only [exec, hpc, hfresh, Option.map_some, Option.some.injEq] at hexec
  subst hexec
  refine h.internal (f := f) (by rw [hpc]; rfl) (Function.update_self ..) rfl ?_ ?_ rfl rfl ?_ ?_
  · exact ⟨fun _ hne => Function.update_of_ne hne .., fun _ _ => rfl,
      fun _ hne => ⟨Function.update_of_ne hne .., rfl, id⟩, rfl, rfl⟩
  · show (Function.update s.fibers f _ f).isSome = true
    rw [Function.update_self]
    rfl
  · exact ⟨hthread, _, Function.update_self ..⟩
  · exact h.distinct.allocate (f := f) (x := {}) rfl rfl

omit [DecidableEq κ] in
theorem Inv.construct {s s' : State ω κ} (h : Inv s) {w : ω} {f : Nat} (hpc : s.pc w = .construct f)
    (hexec : exec s w = some s') : Inv s' := by
  have hhas := h.has w
  rw [hpc] at hhas
  obtain ⟨hthread, stack, hfiber⟩ := hhas
  simp only [exec, hpc, hfiber, Option.map_some, Option.some.injEq] at hexec
  subst hexec
  have hself : Function.update s.fibers f (some (⟨some f, some stack⟩ : Fiber)) f = some ⟨some f, some stack⟩ :=
    Function.update_self ..
  refine h.internal (f := f) (by rw [hpc]; rfl) (Function.update_self ..) rfl ?_ ?_ rfl rfl ?_ ?_
  · exact ⟨fun _ hne => Function.update_of_ne hne .., fun _ _ => rfl,
      fun _ hne => ⟨Function.update_of_ne hne .., Function.update_of_ne hne .., id⟩, rfl, rfl⟩
  · exact congrArg Option.isSome hself
  · refine ⟨hthread, ⟨stack, hself⟩, ?_⟩
    show Closed f (Function.update s.coroutines f _ f) ∧ (Function.update s.coroutines f _ f).completed_ = false
    rw [Function.update_self]
    exact ⟨.fresh rfl rfl rfl, rfl⟩
  · refine h.distinct.same (stack_keep rfl ?_) rfl
    unfold State.stack
    rw [hfiber]
    rfl

omit [DecidableEq κ] in
theorem Inv.resume {s s' : State ω κ} (h : Inv s) {w : ω} {f : Nat} (hpc : s.pc w = .resume f)
    (hexec : exec s w = some s') : Inv s' := by
  have hhas := h.has w
  rw [hpc] at hhas
  obtain ⟨hthread, ⟨stack, hfiber⟩, hclosed, hcompleted⟩ := hhas
  obtain ⟨context, hkind, hresume⟩ := hclosed.resume hcompleted (s.threads w) w
  simp only [exec, hpc, hfiber, hresume, Option.bind_some, Option.map_some, Option.some.injEq] at hexec
  subst hexec
  refine h.internal (f := f) (by rw [hpc]; rfl) (Function.update_self ..) rfl ?_ (congrArg Option.isSome hfiber) rfl
    rfl ⟨⟨stack, hfiber⟩, ?_⟩ (h.distinct.same (fun _ => rfl) rfl)
  · exact ⟨fun _ hne => Function.update_of_ne hne .., fun _ hne => Function.update_of_ne hne ..,
      fun _ hne => ⟨rfl, Function.update_of_ne hne .., id⟩, rfl, rfl⟩
  · have hcoroutine : Function.update s.coroutines f
        (.running { (s.threads w).running with frame := .resume f w } (s.threads w).current_coroutine) f =
          .running ⟨none, none, .resume f w⟩ none := by
      rw [Function.update_self, hthread]
    rcases hkind with rfl | rfl
    · exact .start (Function.update_self ..) hcoroutine
    · exact .suspend (Function.update_self ..) hcoroutine

omit [DecidableEq κ] in
/-- The thread of worker `w` goes on, and the coroutine of its fiber `f` changes or not. -/
theorem Inv.setThread {s s' : State ω κ} (h : Inv s) {w : ω} {f : Nat} {pc' : Pc} (hpc : s.pc w = .inside f)
    (hpc' : s'.pc = Function.update s.pc w pc') (hfiber : pc'.fiber = some f) {th : Thread Nat ω}
    (hthreads : s'.threads = Function.update s.threads w th)
    (hcoroutines : ∀ g, g ≠ f → s'.coroutines g = s.coroutines g) (hreturned : s.returned ⊆ s'.returned)
    (hrest : s'.fibers = s.fibers ∧ s'.allocator = s.allocator ∧ s'.tasks = s.tasks ∧ s'.calls = s.calls ∧
      s'.created = s.created ∧ s'.deleted = s.deleted) (hholds : Has s' w pc') : Inv s' := by
  obtain ⟨hfibers, hallocator, htasks, hcalls, hcreated, hdeleted⟩ := hrest
  have hw : (s.pc w).fiber = some f := by rw [hpc]; rfl
  refine h.internal hw (by rw [hpc', Function.update_self]) hfiber ?_ ?_ htasks hdeleted hholds ?_
  · refine ⟨fun w' hne => ?_, fun w' hne => ?_, fun g hne => ?_, hcalls, hcreated⟩
    · rw [hpc', Function.update_of_ne hne]
    · rw [hthreads, Function.update_of_ne hne]
    · exact ⟨congrFun hfibers g, hcoroutines g hne, fun hmem => hreturned hmem⟩
  · rw [hfibers]
    exact (h.sole hw).live
  · refine h.distinct.same (fun g => ?_) hallocator
    unfold State.stack
    rw [hfibers]

omit [DecidableEq κ] in
theorem Inv.inside {s s' : State ω κ} (h : Inv s) {w : ω} {f : Nat} (hpc : s.pc w = .inside f)
    (hexec : exec s w = some s') : Inv s' := by
  have hhas := h.has w
  rw [hpc] at hhas
  obtain ⟨hstarted, hinside⟩ := hhas
  simp only [exec, hpc, proceed] at hexec
  have hpcs : s.pc = Function.update s.pc w (.inside f) := by rw [← hpc, Function.update_eq_self]
  cases hinside with
  | code thread coroutine =>
      -- it is for the code of the routine to go on
      rw [thread] at hexec
      cases hexec
  | start thread coroutine | suspend thread coroutine =>
      rw [thread] at hexec
      obtain rfl := Option.some.inj hexec
      exact h.setThread hpc hpcs rfl rfl (fun _ _ => rfl) (List.Subset.refl _) ⟨rfl, rfl, rfl, rfl, rfl, rfl⟩
        ⟨hstarted, .code (Function.update_self ..) coroutine⟩
  | back thread parent stopped =>
      -- the task goes on where it has called `Resume`
      simp only [Coroutine.proceed, thread, parent, Option.bind_some, and_self, if_true, Option.some.injEq] at hexec
      subst hexec
      exact h.setThread hpc rfl rfl rfl (fun _ _ => rfl) (List.Subset.refl _) ⟨rfl, rfl, rfl, rfl, rfl, rfl⟩
        ⟨Function.update_self .., hstarted, stopped⟩

omit [DecidableEq κ] in
theorem Inv.check {s s' : State ω κ} (h : Inv s) {w : ω} {f : Nat} (hpc : s.pc w = .check f)
    (hexec : exec s w = some s') : Inv s' := by
  have hhas := h.has w
  rw [hpc] at hhas
  obtain ⟨hthread, ⟨stack, hfiber⟩, hstopped⟩ := hhas
  simp only [exec, hpc, hfiber, Option.map_some, Option.some.injEq] at hexec
  subst hexec
  rcases hstopped with hready | hdone
  · rw [hready.2]
    exact h.setPc (by rw [hpc]; rfl) rfl ⟨hthread, ⟨stack, hfiber⟩, hready⟩
  · rw [hdone.1]
    exact h.setPc (by rw [hpc]; rfl) rfl ⟨hthread, ⟨stack, hfiber⟩, hdone⟩

omit [DecidableEq κ] in
theorem Inv.release {s s' : State ω κ} (h : Inv s) {w : ω} {f : Nat} (hpc : s.pc w = .release f)
    (hexec : exec s w = some s') : Inv s' := by
  have hhas := h.has w
  rw [hpc] at hhas
  obtain ⟨hthread, ⟨stack, hfiber⟩, hdone⟩ := hhas
  simp only [exec, hpc, hfiber, Option.bind_some, Option.map_some, Option.some.injEq] at hexec
  subst hexec
  have hself : Function.update s.fibers f (some (⟨some f, none⟩ : Fiber)) f = some ⟨some f, none⟩ :=
    Function.update_self ..
  refine h.internal (f := f) (by rw [hpc]; rfl) (Function.update_self ..) rfl ?_ (congrArg Option.isSome hself) rfl
    rfl ⟨hthread, hself, hdone⟩ ?_
  · exact ⟨fun _ hne => Function.update_of_ne hne .., fun _ _ => rfl,
      fun _ hne => ⟨Function.update_of_ne hne .., rfl, id⟩, rfl, rfl⟩
  · refine h.distinct.release (f := f) (x := ⟨some f, some stack⟩) ?_ rfl rfl
    unfold State.stack
    rw [hfiber]
    rfl

/-! ## A fiber changes hands -/

section Owners

variable {tasks : List Nat} {pcs : ω → Pc} {calls : ω ⊕ κ → Option Nat} {w : ω} {f : Nat} {c : ω ⊕ κ} {pc pc' : Pc}

theorem count_snoc (f g : Nat) : (tasks ++ [f]).count g = tasks.count g + counts g (some f) := by
  rw [List.count_append, List.count_singleton]
  unfold counts
  by_cases h : f = g
  · simp [h]
  · simp [h]

omit [DecidableEq κ] in
/-- A worker that has no fiber before and after. -/
theorem owners_idle (hpc : pcs w = pc) (hfiber : pc.fiber = none) (hfiber' : pc'.fiber = none) (g : Nat) :
    ownersOf tasks (Function.update pcs w pc') calls g = ownersOf tasks pcs calls g := by
  have htotal := total_step (fun pc => counts g pc.fiber) hpc pc'
  rw [hfiber, hfiber'] at htotal
  unfold ownersOf
  rw [Nat.add_right_cancel htotal]

omit [DecidableEq κ] in
/-- A worker hands its fiber to the pool. -/
theorem owners_submit (hpc : pcs w = pc) (hfiber : pc.fiber = some f) (hfiber' : pc'.fiber = none) (g : Nat) :
    ownersOf (tasks ++ [f]) (Function.update pcs w pc') calls g = ownersOf tasks pcs calls g := by
  have htotal := total_step (fun pc => counts g pc.fiber) hpc pc'
  rw [hfiber, hfiber', counts_none] at htotal
  unfold ownersOf
  rw [count_snoc]
  omega

omit [DecidableEq κ] in
/-- A worker gives its fiber up. -/
theorem owners_destroy (hpc : pcs w = pc) (hfiber : pc.fiber = some f) (hfiber' : pc'.fiber = none) (g : Nat) :
    ownersOf tasks (Function.update pcs w pc') calls g + counts g (some f) = ownersOf tasks pcs calls g := by
  have htotal := total_step (fun pc => counts g pc.fiber) hpc pc'
  rw [hfiber, hfiber', counts_none] at htotal
  unfold ownersOf
  omega

omit [DecidableEq κ] in
/-- A worker takes a task from the pool. -/
theorem owners_take (hpc : pcs w = pc) (hfiber : pc.fiber = none) (hfiber' : pc'.fiber = some f) (hmem : f ∈ tasks)
    (g : Nat) : ownersOf (tasks.erase f) (Function.update pcs w pc') calls g = ownersOf tasks pcs calls g := by
  have htotal := total_step (fun pc => counts g pc.fiber) hpc pc'
  rw [hfiber, hfiber', counts_none] at htotal
  unfold ownersOf
  by_cases hg : g = f
  · have hpos := List.count_pos_iff.mpr hmem
    rw [hg, counts_self] at htotal
    rw [hg, List.count_erase_self]
    omega
  · rw [counts_of_ne fun heq => hg (Option.some.inj heq).symm] at htotal
    rw [List.count_erase_of_ne hg]
    omega

/-- A call of `Spawn` constructs a fiber. -/
theorem owners_spawn (hc : calls c = none) (g : Nat) :
    ownersOf tasks pcs (Function.update calls c (some f)) g = ownersOf tasks pcs calls g + counts g (some f) := by
  have htotal := total_step (counts g) hc (some f)
  rw [counts_none] at htotal
  unfold ownersOf
  omega

/-- A call of `Spawn` schedules its fiber. -/
theorem owners_schedule (hc : calls c = some f) (g : Nat) :
    ownersOf (tasks ++ [f]) pcs (Function.update calls c none) g = ownersOf tasks pcs calls g := by
  have htotal := total_step (counts g) hc none
  rw [counts_none] at htotal
  unfold ownersOf
  rw [count_snoc]
  omega

end Owners

omit [DecidableEq ω] [DecidableEq κ] in
/-- **A fiber changes hands**, and nothing happens to the fibers. -/
theorem Inv.handed {s s' : State ω κ} (h : Inv s)
    (hrest : s'.fibers = s.fibers ∧ s'.allocator = s.allocator ∧ s'.created = s.created ∧ s'.deleted = s.deleted ∧
      s'.returned = s.returned)
    (howners : ∀ f, ownersOf s'.tasks s'.pc s'.calls f = ownersOf s.tasks s.pc s.calls f)
    (hhas : ∀ w, Has s' w (s'.pc w)) (htasks : ∀ f ∈ s'.tasks, Waiting s' f)
    (hcalls : ∀ c f, s'.calls c = some f → s'.fibers f = some {}) : Inv s' := by
  obtain ⟨hfibers, hallocator, hcreated, hdeleted, hreturned⟩ := hrest
  constructor
  · intro f
    rw [howners f, hfibers]
    exact h.owners f
  · exact hhas
  · exact htasks
  · exact hcalls
  · refine h.distinct.same (fun f => ?_) hallocator
    unfold State.stack
    rw [hfibers]
  · rw [hfibers, hcreated]
    exact h.unborn
  · rw [hfibers, hcreated, hdeleted]
    exact h.deleted
  · rw [hdeleted]
    exact h.once
  · rw [hdeleted, hreturned]
    exact h.returned

omit [DecidableEq κ] in
/-- **The continuation is submitted**: from here on the task in the pool has the fiber. -/
theorem Inv.submit {s s' : State ω κ} (h : Inv s) {w : ω} {f : Nat} (hpc : s.pc w = .submit f)
    (hexec : exec s w = some s') : Inv s' := by
  have hhas := h.has w
  rw [hpc] at hhas
  obtain ⟨hthread, ⟨stack, hfiber⟩, hready⟩ := hhas
  have hsole := h.sole (w := w) (f := f) (by rw [hpc]; rfl)
  simp only [exec, hpc, hfiber, Option.map_some, Option.some.injEq] at hexec
  subst hexec
  have hmoves : Moves s { s.setPc w .unwind with tasks := s.tasks ++ [f] } w f :=
    ⟨fun _ hne => Function.update_of_ne hne .., fun _ _ => rfl, fun _ _ => ⟨rfl, rfl, id⟩, rfl, rfl⟩
  refine h.handed ⟨rfl, rfl, rfl, rfl, rfl⟩ (owners_submit hpc rfl rfl)
    (hmoves.has h hsole (Function.update_self ..) hthread) (fun g hg => ?_) h.calls
  rcases List.mem_append.mp hg with hg | hg
  · exact hmoves.tasks h hsole g hg
  · -- the task in the pool finds the coroutine suspended
    rw [List.mem_singleton.mp hg]
    exact .inr ⟨⟨stack, hfiber⟩, hready⟩

omit [DecidableEq κ] in
/-- **The fiber is deleted**, and nobody has it any more. -/
theorem Inv.destroy {s s' : State ω κ} (h : Inv s) {w : ω} {f : Nat} (hpc : s.pc w = .destroy f)
    (hexec : exec s w = some s') : Inv s' := by
  have hhas := h.has w
  rw [hpc] at hhas
  obtain ⟨hthread, hfiber, hdone⟩ := hhas
  have hsole := h.sole (w := w) (f := f) (by rw [hpc]; rfl)
  simp only [exec, hpc, hfiber, Option.map_some, Option.some.injEq] at hexec
  subst hexec
  have hother : ∀ g, g ≠ f → Function.update s.fibers f none g = s.fibers g := fun _ hne => Function.update_of_ne hne ..
  have hself : Function.update s.fibers f none f = none := Function.update_self ..
  have hmoves : Moves s { (s.setFiber f none).setPc w .unwind with deleted := s.deleted ++ [f] } w f :=
    ⟨fun _ hne => Function.update_of_ne hne .., fun _ _ => rfl, fun g hne => ⟨hother g hne, rfl, id⟩, rfl, rfl⟩
  have hlt : f < s.created := by
    by_contra hle
    rw [h.unborn f (Nat.le_of_not_lt hle)] at hfiber
    cases hfiber
  constructor
  · intro g
    have howners := h.owners g
    have hless : ownersOf s.tasks (Function.update s.pc w .unwind) s.calls g + counts g (some f) =
        ownersOf s.tasks s.pc s.calls g := owners_destroy hpc rfl rfl g
    show ownersOf s.tasks (Function.update s.pc w .unwind) s.calls g =
      if (Function.update s.fibers f none g).isSome then 1 else 0
    by_cases hg : g = f
    · -- the worker was its one owner
      rw [hg, hfiber] at howners
      rw [hg, counts_self] at hless
      rw [hg, hself]
      change _ = 1 at howners
      show _ = 0
      omega
    · rw [counts_of_ne fun heq => hg (Option.some.inj heq).symm] at hless
      rw [hother g hg, ← howners]
      exact hless
  · exact hmoves.has h hsole (Function.update_self ..) hthread
  · exact hmoves.tasks h hsole
  · exact hmoves.calls_fresh h hsole
  · refine h.distinct.same (stack_keep rfl ?_) rfl
    unfold State.stack
    rw [hfiber]
    rfl
  · intro g hg
    exact (hother g (Nat.ne_of_gt (Nat.lt_of_lt_of_le hlt hg))).trans (h.unborn g hg)
  · intro g
    show g ∈ s.deleted ++ [f] ↔ g < s.created ∧ Function.update s.fibers f none g = none
    rw [List.mem_append, List.mem_singleton, h.deleted g]
    by_cases hg : g = f
    · rw [hg, hself]
      exact iff_of_true (.inr rfl) ⟨hlt, rfl⟩
    · rw [hother g hg, or_iff_left hg]
  · show (s.deleted ++ [f]).Nodup
    rw [List.nodup_append_comm, List.singleton_append, List.nodup_cons, h.deleted f, hfiber]
    exact ⟨(nomatch ·.2), h.once⟩
  · intro g hg
    rcases List.mem_append.mp hg with hg | hg
    · exact h.returned g hg
    · rw [List.mem_singleton.mp hg]
      exact hdone.2

omit [DecidableEq κ] in
/-- A worker that has no fiber, before and after. -/
theorem Inv.unwind {s s' : State ω κ} (h : Inv s) {w : ω} (hpc : s.pc w = .unwind) (hexec : exec s w = some s') :
    Inv s' := by
  have hhas := h.has w
  rw [hpc] at hhas
  simp only [exec, hpc, Option.some.injEq] at hexec
  subst hexec
  refine h.handed ⟨rfl, rfl, rfl, rfl, rfl⟩ (owners_idle hpc rfl rfl) (fun w' => ?_) h.tasks h.calls
  show Has (s.setPc w .idle) w' (Function.update s.pc w .idle w')
  by_cases hw : w' = w
  · rw [hw, Function.update_self]
    exact hhas
  · rw [Function.update_of_ne hw]
    exact (h.has w').frame rfl fun _ _ => ⟨rfl, rfl, id⟩

omit [DecidableEq κ] in
/-- **A worker takes a task**, and with it the fiber. -/
theorem Inv.take {s : State ω κ} (h : Inv s) {w : ω} {f : Nat} (hpc : s.pc w = .idle) (hmem : f ∈ s.tasks) :
    Inv { s.setPc w (.factory f) with tasks := s.tasks.erase f } := by
  have hhas := h.has w
  rw [hpc] at hhas
  refine h.handed ⟨rfl, rfl, rfl, rfl, rfl⟩ (owners_take hpc rfl rfl hmem) (fun w' => ?_)
    (fun g hg => h.tasks g (List.mem_of_mem_erase hg)) h.calls
  show Has { s.setPc w (.factory f) with tasks := s.tasks.erase f } w' (Function.update s.pc w (.factory f) w')
  by_cases hw : w' = w
  · -- what the pool knew of the fiber is what the worker knows now
    rw [hw, Function.update_self]
    exact ⟨hhas, h.tasks f hmem⟩
  · rw [Function.update_of_ne hw]
    exact (h.has w').frame rfl fun _ _ => ⟨rfl, rfl, id⟩

omit [DecidableEq κ] in
/-- **The operation a worker does next keeps the invariant.** -/
theorem Inv.exec {s s' : State ω κ} (h : Inv s) {w : ω} (hexec : exec s w = some s') : Inv s' := by
  cases hpc : s.pc w with
  | idle =>
      simp only [Fiber.exec, hpc] at hexec
      cases hexec
  | factory f => exact h.factory hpc hexec
  | allocate f => exact h.allocate hpc hexec
  | construct f => exact h.construct hpc hexec
  | resume f => exact h.resume hpc hexec
  | inside f => exact h.inside hpc hexec
  | check f => exact h.check hpc hexec
  | submit f => exact h.submit hpc hexec
  | release f => exact h.release hpc hexec
  | destroy f => exact h.destroy hpc hexec
  | unwind => exact h.unwind hpc hexec

/-! ## The code of the routines -/

omit [DecidableEq ω] [DecidableEq κ] in
/-- Code on the stack of a coroutine: a worker runs it inside its `Resume`. -/
theorem Inv.inCode {s : State ω κ} (h : Inv s) {w : ω} (hcode : s.InCode w) :
    ∃ f, s.pc w = .inside f ∧ Started s f ∧ s.threads w = ⟨some f, some f, some f, .code⟩ ∧
      s.coroutines f = .running ⟨none, none, .resume f w⟩ none := by
  obtain ⟨hframe, hstack, -⟩ := hcode
  have hhas := h.has w
  cases hpc : s.pc w with
  | inside f =>
      rw [hpc] at hhas
      obtain ⟨hstarted, hinside⟩ := hhas
      cases hinside with
      | code thread coroutine => exact ⟨f, rfl, hstarted, thread, coroutine⟩
      | start thread | suspend thread =>
          rw [thread] at hframe
          exact hframe.elim
      | back thread =>
          rw [thread] at hframe
          exact hframe.elim
  | idle | unwind =>
      rw [hpc] at hhas
      rw [show s.threads w = {} from hhas] at hstack
      exact absurd rfl hstack
  | factory | allocate | construct | resume | check | submit | release | destroy =>
      rw [hpc] at hhas
      rw [hhas.1] at hstack
      exact absurd rfl hstack

omit [DecidableEq κ] in
theorem Inv.yield {s s' : State ω κ} (h : Inv s) {w : ω} (hcode : s.InCode w)
    {p : (Nat → Coroutine Nat ω Empty) × Thread Nat ω}
    (hp : Coroutine.suspend s.coroutines (s.threads w) = some p)
    (hs : s' = { s.setThread w p.2 with coroutines := p.1 }) : Inv s' := by
  obtain ⟨f, hpc, hstarted, hthread, hcoroutine⟩ := h.inCode hcode
  rw [hthread, Coroutine.suspend_of_running hcoroutine] at hp
  obtain rfl := Option.some.inj hp
  subst hs
  have hpcs : s.pc = Function.update s.pc w (.inside f) := by rw [← hpc, Function.update_eq_self]
  refine h.setThread hpc hpcs rfl rfl (fun _ hne => Function.update_of_ne hne ..) (List.Subset.refl _)
    ⟨rfl, rfl, rfl, rfl, rfl, rfl⟩ ⟨hstarted, ?_⟩
  refine .back ?_ ?_ (.inl ?_)
  · show (Function.update s.threads w _ w).running = _
    rw [Function.update_self]
  · show (Function.update s.coroutines f _ f).parent_ = none
    rw [Function.update_self]
  · show Closed f (Function.update s.coroutines f _ f) ∧ (Function.update s.coroutines f _ f).completed_ = false
    rw [Function.update_self]
    exact ⟨.suspended rfl rfl rfl, rfl⟩

omit [DecidableEq κ] in
theorem Inv.finish {s s' : State ω κ} (h : Inv s) {w : ω} (hcode : s.InCode w)
    {p : (Nat → Coroutine Nat ω Empty) × Thread Nat ω}
    (hp : Coroutine.finish s.coroutines (s.threads w) none = some p)
    (hs : s' = { s.setThread w p.2 with
      coroutines := p.1, returned := s.returned ++ (s.threads w).running.stack.toList }) : Inv s' := by
  obtain ⟨f, hpc, hstarted, hthread, hcoroutine⟩ := h.inCode hcode
  rw [hthread, Coroutine.finish_of_running hcoroutine] at hp
  obtain rfl := Option.some.inj hp
  subst hs
  have hpcs : s.pc = Function.update s.pc w (.inside f) := by rw [← hpc, Function.update_eq_self]
  refine h.setThread hpc hpcs rfl rfl (fun _ hne => Function.update_of_ne hne ..) (List.subset_append_left ..)
    ⟨rfl, rfl, rfl, rfl, rfl, rfl⟩ ⟨hstarted, ?_⟩
  refine .back ?_ ?_ (.inr ⟨?_, ?_⟩)
  · show (Function.update s.threads w _ w).running = _
    rw [Function.update_self]
  · show (Function.update s.coroutines f _ f).parent_ = none
    rw [Function.update_self]
  · show (Function.update s.coroutines f _ f).completed_ = true
    rw [Function.update_self]
  · rw [hthread]
    exact List.mem_append_right _ (List.mem_singleton_self f)

/-! ## `Spawn` -/

omit [DecidableEq ω] [DecidableEq κ] in
/-- A fiber that somebody has is there. -/
theorem Inv.ne_created {s : State ω κ} (h : Inv s) {f : Nat} (hlive : (s.fibers f).isSome = true) : f ≠ s.created := by
  rintro rfl
  rw [h.unborn _ (Nat.le_refl _)] at hlive
  cases hlive

omit [DecidableEq ω] [DecidableEq κ] [Fintype ω] [Fintype κ] in
theorem Waiting.isSome {s : State ω κ} {f : Nat} (h : Waiting s f) : (s.fibers f).isSome = true := by
  rcases h with hfresh | ⟨⟨stack, hstarted⟩, -⟩
  · rw [hfresh]
    rfl
  · rw [hstarted]
    rfl

omit [DecidableEq ω] [DecidableEq κ] [Fintype ω] [Fintype κ] in
theorem State.CanSpawn.calls {s : State ω κ} {c : ω ⊕ κ} (h : s.CanSpawn c) : s.calls c = none := by
  cases c with
  | inl w => exact h.2.2
  | inr k => exact h

theorem Inv.spawn {s : State ω κ} (h : Inv s) {c : ω ⊕ κ} (hc : s.CanSpawn c) :
    Inv { s.setFiber s.created (some {}) with
      calls := Function.update s.calls c (some s.created)
      created := s.created + 1 } := by
  have hnone := h.unborn s.created (Nat.le_refl _)
  have hother : ∀ g, g ≠ s.created → Function.update s.fibers s.created (some {}) g = s.fibers g :=
    fun _ hne => Function.update_of_ne hne ..
  have hself : Function.update s.fibers s.created (some ({} : Fiber)) s.created = some {} := Function.update_self ..
  constructor
  · intro g
    show ownersOf s.tasks s.pc (Function.update s.calls c (some s.created)) g =
      if (Function.update s.fibers s.created (some {}) g).isSome then 1 else 0
    rw [owners_spawn hc.calls g, h.owners g]
    by_cases hg : g = s.created
    · rw [hg, hself, hnone, counts_self]
      rfl
    · rw [hother g hg, counts_of_ne fun heq => hg (Option.some.inj heq).symm]
      rfl
  · intro w
    refine (h.has w).frame rfl fun g hg => ⟨hother g (h.ne_created (h.sole hg).live), rfl, id⟩
  · intro g hg
    have hwaiting := h.tasks g hg
    exact Same.waiting ⟨hother g (h.ne_created hwaiting.isSome), rfl, id⟩ hwaiting
  · intro c' g hg
    change Function.update s.calls c (some s.created) c' = some g at hg
    show Function.update s.fibers s.created (some {}) g = some {}
    by_cases hcc : c' = c
    · rw [hcc, Function.update_self] at hg
      rw [← Option.some.inj hg, hself]
    · rw [Function.update_of_ne hcc] at hg
      have hfresh := h.calls c' g hg
      rw [hother g (h.ne_created (by rw [hfresh]; rfl)), hfresh]
  · refine h.distinct.same (stack_keep rfl ?_) rfl
    unfold State.stack
    rw [hnone]
    rfl
  · intro g hg
    have hlt : s.created < g := hg
    exact (hother g (Nat.ne_of_gt hlt)).trans (h.unborn g (Nat.le_of_lt hlt))
  · intro g
    show g ∈ s.deleted ↔ g < s.created + 1 ∧ Function.update s.fibers s.created (some {}) g = none
    rw [h.deleted g]
    by_cases hg : g = s.created
    · rw [hg, hself]
      exact iff_of_false (fun hlt => Nat.lt_irrefl _ hlt.1) nofun
    · rw [hother g hg, Nat.lt_succ_iff_lt_or_eq, or_iff_left hg]
  · exact h.once
  · exact h.returned

theorem Inv.schedule {s : State ω κ} (h : Inv s) {c : ω ⊕ κ} {f : Nat} (hc : s.calls c = some f) :
    Inv { s with tasks := s.tasks ++ [f], calls := Function.update s.calls c none } := by
  have hfresh := h.calls c f hc
  refine h.handed ⟨rfl, rfl, rfl, rfl, rfl⟩ (owners_schedule hc)
    (fun w => (h.has w).frame rfl fun _ _ => ⟨rfl, rfl, id⟩) (fun g hg => ?_) (fun c' g hg => ?_)
  · rcases List.mem_append.mp hg with hg | hg
    · exact h.tasks g hg
    · rw [List.mem_singleton.mp hg]
      exact .inl hfresh
  · exact h.calls c' g (of_update (P := fun x => x = some g) (Option.some_ne_none g).symm hg).2

/-- **Every step keeps the invariant.** -/
theorem Inv.next {s s' : State ω κ} {a : Action ω κ} (h : Inv s) (hnext : next s a = some s') : Inv s' := by
  cases a with
  | take w f =>
      simp only [Fiber.next] at hnext
      split at hnext
      · next hpc =>
          simp only [Option.ite_none_right_eq_some, Option.some.injEq] at hnext
          obtain ⟨hmem, rfl⟩ := hnext
          exact h.take hpc hmem
      · cases hnext
  | step w => exact h.exec hnext
  | yield w =>
      simp only [Fiber.next, Option.ite_none_right_eq_some] at hnext
      obtain ⟨hcode, hnext⟩ := hnext
      obtain ⟨p, hp, rfl⟩ := Option.map_eq_some_iff.mp hnext
      exact h.yield hcode hp rfl
  | finish w =>
      simp only [Fiber.next, Option.ite_none_right_eq_some] at hnext
      obtain ⟨hcode, hnext⟩ := hnext
      obtain ⟨p, hp, rfl⟩ := Option.map_eq_some_iff.mp hnext
      exact h.finish hcode hp rfl
  | spawn c =>
      simp only [Fiber.next, Option.ite_none_right_eq_some, Option.some.injEq] at hnext
      obtain ⟨hc, rfl⟩ := hnext
      exact h.spawn hc
  | schedule c =>
      obtain ⟨f, hc, hnext⟩ := Option.bind_eq_some_iff.mp hnext
      obtain ⟨x, -, rfl⟩ := Option.map_eq_some_iff.mp hnext
      exact h.schedule hc

omit [DecidableEq ω] [DecidableEq κ] in
theorem inv_init : Inv ({} : State ω κ) where
  owners f := by
    have hworkers : total (fun pc : Pc => counts f pc.fiber) (fun _ : ω => Pc.idle) = 0 :=
      total_eq_zero fun _ => counts_none f
    have hcalls : total (counts f) (fun _ : ω ⊕ κ => none) = 0 := total_eq_zero fun _ => counts_none f
    show 0 + total _ _ + total _ _ = 0
    rw [hworkers, hcalls]
  has _ := rfl
  tasks := nofun
  calls := nofun
  distinct := ⟨⟨List.nodup_nil, nofun⟩, nofun, nofun⟩
  unborn _ _ := rfl
  deleted f := iff_of_false (List.not_mem_nil) fun hlt => Nat.not_lt_zero f hlt.1
  once := List.nodup_nil
  returned := nofun

theorem reachable_inv {s : State ω κ} (h : (system ω κ).Reachable s) : Inv s :=
  h.invariant_next inv_init fun _ _ _ hinv hnext => hinv.next hnext

/-! ## Results -/

omit [DecidableEq κ] in
/-- **No operation of a task fails**: what it reads is there. -/
theorem Inv.exists_exec {s : State ω κ} (h : Inv s) {w : ω} (hbusy : s.pc w ≠ .idle) :
    (∃ s', Fiber.exec s w = some s') ∨ ∃ f, s.pc w = .inside f ∧ s.threads w = ⟨some f, some f, some f, .code⟩ := by
  have hhas := h.has w
  unfold Fiber.exec
  cases hpc : s.pc w with
  | idle => exact absurd hpc hbusy
  | unwind => exact .inl ⟨_, rfl⟩
  | factory f | allocate f | check f | submit f | destroy f | construct f =>
      obtain ⟨x, hx⟩ := Option.isSome_iff_exists.mp (h.sole (w := w) (f := f) (by rw [hpc]; rfl)).live
      simp only [hx]
      exact .inl ⟨_, rfl⟩
  | resume f =>
      rw [hpc] at hhas
      obtain ⟨-, ⟨stack, hfiber⟩, hclosed, hcompleted⟩ := hhas
      obtain ⟨context, -, hresume⟩ := hclosed.resume hcompleted (s.threads w) w
      simp only [hfiber, hresume]
      exact .inl ⟨_, rfl⟩
  | release f =>
      rw [hpc] at hhas
      obtain ⟨-, ⟨stack, hfiber⟩, -⟩ := hhas
      simp only [hfiber]
      exact .inl ⟨_, rfl⟩
  | inside f =>
      rw [hpc] at hhas
      unfold proceed
      cases hhas.2 with
      | code thread => exact .inr ⟨f, rfl, thread⟩
      | start thread | suspend thread =>
          rw [thread]
          exact .inl ⟨_, rfl⟩
      | back thread =>
          simp only [Coroutine.proceed, thread, Option.bind_some, and_self, if_true]
          exact .inl ⟨_, rfl⟩

omit [DecidableEq ω] [DecidableEq κ] in
/-- Code runs on the stack of the fiber that its worker has resumed. -/
theorem Inv.running_stack {s : State ω κ} (h : Inv s) {w : ω} {f : Nat} (hstack : (s.threads w).running.stack = some f) :
    s.pc w = .inside f ∧ s.stack f ≠ none := by
  have hhas := h.has w
  cases hpc : s.pc w with
  | inside g =>
      rw [hpc] at hhas
      obtain ⟨⟨stack, hfiber⟩, hinside⟩ := hhas
      have hg : g = f := by
        cases hinside with
        | code thread | start thread | suspend thread =>
            rw [thread] at hstack
            exact Option.some.inj hstack
        | back thread =>
            rw [thread] at hstack
            cases hstack
      subst hg
      refine ⟨rfl, ?_⟩
      unfold State.stack
      rw [hfiber]
      exact nofun
  | idle | unwind =>
      rw [hpc] at hhas
      rw [show s.threads w = {} from hhas] at hstack
      cases hstack
  | factory | allocate | construct | resume | check | submit | release | destroy =>
      rw [hpc] at hhas
      rw [hhas.1] at hstack
      cases hstack

omit [DecidableEq ω] [DecidableEq κ] in
/-- **Once nothing is left to do, every fiber has been deleted, once.** -/
theorem Inv.all_deleted {s : State ω κ} (h : Inv s) (htasks : s.tasks = []) (hidle : ∀ w, s.pc w = .idle)
    (hcalls : ∀ c, s.calls c = none) {f : Nat} (hf : f < s.created) : s.deleted.count f = 1 := by
  have howners := h.owners f
  unfold ownersOf at howners
  rw [htasks, total_eq_zero fun w => by rw [hidle w]; exact counts_none f,
    total_eq_zero fun c => by rw [hcalls c]; exact counts_none f] at howners
  have hdead : s.fibers f = none := by
    by_contra hlive
    rw [if_pos (Option.isSome_iff_ne_none.mpr hlive)] at howners
    cases howners
  exact List.count_eq_one_of_mem h.once ((h.deleted f).mpr ⟨hf, hdead⟩)

/-- **One task for each fiber, no use after its deletion, and no shared stack.** In every reachable state: a fiber that
    has not been deleted has exactly one task, in the pool or on one worker, or else the call of `Spawn` that is about
    to schedule it; a worker that uses a fiber is the only one to do so, and the fiber has not been deleted; a worker
    about to resume a coroutine finds it not completed, and no worker inside it; a fiber is deleted at most once, after
    its routine has returned, and each of them has been once nothing is left to do; the stacks of the fibers and those
    in the pool are pairwise distinct, and code runs only on the stack of a fiber; and no operation of a task fails. -/
theorem fibers_sound {s : State ω κ} (h : (system ω κ).Reachable s) :
    (∀ f, s.tasksOf f + s.spawnsOf f = if (s.fibers f).isSome then 1 else 0) ∧
      (∀ w f, (s.pc w).fiber = some f → (s.fibers f).isSome = true ∧ ∀ w', (s.pc w').fiber = some f → w' = w) ∧
      (∀ w f, s.pc w = .resume f → (s.coroutines f).completed_ = false ∧ ∀ w', s.pc w' ≠ .inside f) ∧
      ((∀ f, f ∈ s.deleted ↔ f < s.created ∧ s.fibers f = none) ∧ s.deleted.Nodup ∧ (∀ f ∈ s.deleted, f ∈ s.returned) ∧
        (s.tasks = [] → (∀ w, s.pc w = .idle) → (∀ c, s.calls c = none) → ∀ f < s.created, s.deleted.count f = 1)) ∧
      ((∀ f g stack, s.stack f = some stack → s.stack g = some stack → f = g) ∧ s.allocator.pool_.Nodup ∧
        (∀ f stack, s.stack f = some stack → stack ∉ s.allocator.pool_) ∧
        ∀ w f, (s.threads w).running.stack = some f → s.pc w = .inside f ∧ s.stack f ≠ none) ∧
      (∀ w, s.pc w ≠ .idle → (∃ s', next s (.step w) = some s') ∨
        ∃ f, s.pc w = .inside f ∧ s.threads w = ⟨some f, some f, some f, .code⟩) := by
  have hinv := reachable_inv h
  have hdistinct := hinv.distinct
  refine ⟨hinv.owners, fun w f hw => ?_, fun w f hw => ?_, ⟨hinv.deleted, hinv.once, hinv.returned, ?_⟩,
    ⟨hdistinct.injective, hdistinct.wf.nodup, fun f stack hf => (hdistinct.owned f stack hf).notMem,
      fun w f => hinv.running_stack⟩, fun w => hinv.exists_exec⟩
  · have hsole := hinv.sole hw
    refine ⟨hsole.live, fun w' hw' => ?_⟩
    by_contra hne
    exact hsole.workers w' hne hw'
  · have hsole := hinv.sole (w := w) (f := f) (by rw [hw]; rfl)
    have hhas := hinv.has w
    rw [hw] at hhas
    refine ⟨hhas.2.2.2, fun w' hw' => ?_⟩
    by_cases hne : w' = w
    · rw [hne, hw] at hw'
      cases hw'
    · exact hsole.workers w' hne (by rw [hw']; rfl)
  · exact fun htasks hidle hcalls f hf => hinv.all_deleted htasks hidle hcalls hf

/-- Worker 0 runs a fiber that yields; worker 1 runs its continuation to the end while worker 0 is still unwinding. -/
theorem fibers_sound_overlap : ∃ s : State (Fin 2) Unit, (system (Fin 2) Unit).Reachable s ∧ s.pc 0 = .unwind ∧
    s.deleted = [0] ∧ s.allocator.pool_ = [0] ∧ ∀ f ∈ s.deleted, f ∈ s.returned := by
  have hrun : ∃ s, System.run next ({} : State (Fin 2) Unit)
      [.spawn (.inr ()), .schedule (.inr ()), .take 0 0, .step 0, .step 0, .step 0, .step 0, .step 0, .yield 0,
        .step 0, .step 0, .step 0, .take 1 0, .step 1, .step 1, .step 1, .finish 1, .step 1, .step 1, .step 1,
        .step 1] = some s ∧ s.pc 0 = .unwind ∧ s.deleted = [0] ∧ s.allocator.pool_ = [0] := ⟨_, rfl, rfl, rfl, rfl⟩
  obtain ⟨s, hs, hpc, hdeleted, hpool⟩ := hrun
  have h : (system (Fin 2) Unit).Reachable s := System.reachable_of_run _ hs
  exact ⟨s, h, hpc, hdeleted, hpool, (fibers_sound h).2.2.2.1.2.2.1⟩

end Fiber
end Fibers
end Tpcc
