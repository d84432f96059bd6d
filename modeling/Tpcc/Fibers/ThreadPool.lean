import Tpcc.Fibers.Fiber
import Tpcc.Support.Pool

/-!
# `Fibers.ThreadPool` — the pool that the fibers run on

`StaticThreadPool`: `Submit`, `SubmitContinuation`, `Current`, `Work` and `Join`, with the fibers of `Fibers.Fiber` as
its tasks. The pool is an `asio::io_context` that its workers run; `asio` is not part of the repository, and of its
documentation the pool uses this: `post` and `defer` add to the count of outstanding work, as does the work guard;
a handler that returns takes its part out again; and once the count is 0 the context is stopped: `run` returns on
every worker, and no further handler is run.

The pool belongs to one thread, which calls `Join`, once or again. Other threads may spawn fibers at any moment.

## Contents
- **The pool.** `IoContext`, `State`, `next`.
- **Outstanding work.** `Counted`: what the count counts, and what holds once the context is stopped.
- **Stacks.** `Accounted`: a stack is in the allocator or with one fiber.
- **`Join`.** `Joining`: whom `Join` has waited for. `join_waits_for_fibers`.
- **`Join` returns.** `rank`: what is left to do once no routine yields any more. `join_returns`.
-/

namespace Tpcc
namespace Fibers
namespace StaticThreadPool

open Transition

/-- `asio::io_context`: the count of outstanding work, and whether it is stopped. -/
structure IoContext where
  outstanding : Nat := 0
  stopped : Bool := false

namespace IoContext

def workStarted (io : IoContext) : IoContext := { io with outstanding := io.outstanding + 1 }

def workFinished (io : IoContext) : IoContext where
  outstanding := io.outstanding - 1
  stopped := io.stopped || io.outstanding - 1 == 0

end IoContext

/-- A worker thread, by what it does next. -/
inductive Worker where
  /-- `pool = this`. -/
  | start
  /-- In `io_context_.run()`. -/
  | run
  /-- `Work` has returned. -/
  | returned
  deriving DecidableEq

/-- The owner of the pool, by what it does next. -/
inductive Join where
  | idle
  /-- `if (joined_)`. -/
  | test
  /-- `work_guard_.reset()`. -/
  | reset
  /-- `worker.join()`, at this place of `workers_`. -/
  | worker (i : Nat)
  /-- `joined_ = true`. -/
  | store
  deriving DecidableEq

/-- A pool of `n + 1` workers, after its constructor. `work_guard_` tells whether the guard still owns work, `pool` whether
    the variable of that name is set on a worker, and `joinable` which threads have not been joined. `late` (the fibers
    that were submitted after the context was stopped) is history. -/
structure State (n : Nat) (κ : Type) where
  fibers : Fiber.State (Fin (n + 1)) κ := {}
  io_context_ : IoContext := { outstanding := 1 }
  work_guard_ : Bool := true
  pool : Fin (n + 1) → Bool := fun _ => false
  workers_ : Fin (n + 1) → Worker := fun _ => .start
  joinable : Fin (n + 1) → Bool := fun _ => true
  join : Join := .idle
  joined_ : Bool := false
  late : List Nat := []

/-- Who takes the next step: a worker that enters `run` or leaves it, a task or a call of `Spawn`, and the owner of the
    pool, who calls `Join` or goes on in it. -/
inductive Action (n : Nat) (κ : Type) where
  | work (w : Fin (n + 1))
  | fiber (a : Fiber.Action (Fin (n + 1)) κ)
  | callJoin
  | join

variable {n : Nat} {κ : Type} [DecidableEq κ]

namespace State

/-- Whether the fibers may do this: a worker is given a handler by `run`, and `Spawn` without a scheduler follows
    `Current()`. -/
def allows (s : State n κ) : Fiber.Action (Fin (n + 1)) κ → Bool
  | .take w _ => s.workers_ w == .run && !s.io_context_.stopped
  | .spawn (.inl w) => s.pool w
  | _ => true

/-- The count of outstanding work: `Submit` posts, `SubmitContinuation` defers, and a task returns. -/
def account (s : State n κ) : Fiber.Action (Fin (n + 1)) κ → IoContext
  | .schedule _ => s.io_context_.workStarted
  | .step w =>
      match s.fibers.pc w with
      | .submit _ => s.io_context_.workStarted
      | .unwind => s.io_context_.workFinished
      | _ => s.io_context_
  | _ => s.io_context_

/-- The fiber that is submitted too late. -/
def submitsLate (s : State n κ) : Fiber.Action (Fin (n + 1)) κ → List Nat
  | .schedule c => if s.io_context_.stopped then (s.fibers.calls c).toList else []
  | _ => []

end State

/-- `Work`. -/
def work (s : State n κ) (w : Fin (n + 1)) : Option (State n κ) :=
  match s.workers_ w with
  | .start =>
      some { s with pool := Function.update s.pool w true, workers_ := Function.update s.workers_ w .run }
  | .run =>
      match s.fibers.pc w with
      | .idle =>
          if s.io_context_.stopped then some { s with workers_ := Function.update s.workers_ w .returned } else none
      | _ => none
  | .returned => none

/-- The next operation of `Join`. -/
def join (s : State n κ) : Option (State n κ) :=
  match s.join with
  | .idle => none
  | .test => some { s with join := if s.joined_ then .idle else .reset }
  | .reset =>
      some { s with
        io_context_ := if s.work_guard_ then s.io_context_.workFinished else s.io_context_
        work_guard_ := false
        join := .worker 0 }
  | .worker i =>
      if h : i < n + 1 then
        if s.workers_ ⟨i, h⟩ = .returned ∧ s.joinable ⟨i, h⟩ = true then
          some { s with joinable := Function.update s.joinable ⟨i, h⟩ false, join := .worker (i + 1) }
        else none
      else some { s with join := .store }
  | .store => some { s with joined_ := true, join := .idle }

def next (s : State n κ) : Action n κ → Option (State n κ)
  | .work w => work s w
  | .fiber a =>
      if s.allows a then
        (Fiber.next s.fibers a).map fun fibers =>
          { s with fibers, io_context_ := s.account a, late := s.late ++ s.submitsLate a }
      else none
  | .callJoin => if s.join = .idle then some { s with join := .test } else none
  | .join => join s

/-- All runs of a pool of `n + 1` workers, and of threads `κ` outside it that spawn fibers. -/
def system (n : Nat) (κ : Type) [DecidableEq κ] : System (State n κ) := System.ofNext {} next

/-! ## Steps -/

/-- What a step can do. -/
inductive Stepped (s : State n κ) : Action n κ → State n κ → Prop where
  | start (w : Fin (n + 1)) (here : s.workers_ w = .start) :
      Stepped s (.work w)
        { s with pool := Function.update s.pool w true, workers_ := Function.update s.workers_ w .run }
  | leave (w : Fin (n + 1)) (here : s.workers_ w = .run) (stopped : s.io_context_.stopped = true)
      (idle : s.fibers.pc w = .idle) : Stepped s (.work w) { s with workers_ := Function.update s.workers_ w .returned }
  | fiber {a : Fiber.Action (Fin (n + 1)) κ} {fibers : Fiber.State (Fin (n + 1)) κ} (allowed : s.allows a = true)
      (step : Fiber.next s.fibers a = some fibers) :
      Stepped s (.fiber a) { s with fibers, io_context_ := s.account a, late := s.late ++ s.submitsLate a }
  | callJoin (here : s.join = .idle) : Stepped s .callJoin { s with join := .test }
  | again (here : s.join = .test) (joined : s.joined_ = true) : Stepped s .join { s with join := .idle }
  | first (here : s.join = .test) (joined : s.joined_ = false) : Stepped s .join { s with join := .reset }
  | reset (here : s.join = .reset) :
      Stepped s .join { s with
        io_context_ := if s.work_guard_ then s.io_context_.workFinished else s.io_context_
        work_guard_ := false
        join := .worker 0 }
  | worker {i : Nat} (here : s.join = .worker i) (lt : i < n + 1) (returned : s.workers_ ⟨i, lt⟩ = .returned)
      (joinable : s.joinable ⟨i, lt⟩ = true) :
      Stepped s .join { s with joinable := Function.update s.joinable ⟨i, lt⟩ false, join := .worker (i + 1) }
  | workers {i : Nat} (here : s.join = .worker i) (le : n + 1 ≤ i) : Stepped s .join { s with join := .store }
  | store (here : s.join = .store) : Stepped s .join { s with joined_ := true, join := .idle }

theorem work_stepped {s s' : State n κ} {w : Fin (n + 1)} (h : work s w = some s') : Stepped s (.work w) s' := by
  unfold work at h
  cases hw : s.workers_ w with
  | start =>
      simp only [hw, Option.some.injEq] at h
      subst h
      exact .start w hw
  | run =>
      simp only [hw] at h
      cases hpc : s.fibers.pc w with
      | idle =>
          simp only [hpc, Option.ite_none_right_eq_some, Option.some.injEq] at h
          obtain ⟨hstopped, rfl⟩ := h
          exact .leave w hw hstopped hpc
      | _ =>
          simp only [hpc] at h
          cases h
  | returned =>
      simp only [hw] at h
      cases h

theorem join_stepped {s s' : State n κ} (h : join s = some s') : Stepped s .join s' := by
  unfold join at h
  cases hjoin : s.join with
  | idle =>
      simp only [hjoin] at h
      cases h
  | test =>
      simp only [hjoin, Option.some.injEq] at h
      subst h
      by_cases hjoined : s.joined_ = true
      · rw [if_pos hjoined]
        exact .again hjoin hjoined
      · rw [if_neg hjoined]
        exact .first hjoin (Bool.eq_false_of_not_eq_true hjoined)
  | reset =>
      simp only [hjoin, Option.some.injEq] at h
      subst h
      exact .reset hjoin
  | worker i =>
      simp only [hjoin] at h
      by_cases hlt : i < n + 1
      · simp only [hlt, dite_true, Option.ite_none_right_eq_some, Option.some.injEq] at h
        obtain ⟨⟨hreturned, hjoinable⟩, rfl⟩ := h
        exact .worker hjoin hlt hreturned hjoinable
      · simp only [hlt, dite_false, Option.some.injEq] at h
        subst h
        exact .workers hjoin (Nat.le_of_not_lt hlt)
  | store =>
      simp only [hjoin, Option.some.injEq] at h
      subst h
      exact .store hjoin

theorem next_stepped {s s' : State n κ} {a : Action n κ} (h : next s a = some s') : Stepped s a s' := by
  cases a with
  | work w => exact work_stepped h
  | fiber a =>
      simp only [next, Option.ite_none_right_eq_some] at h
      obtain ⟨hallowed, h⟩ := h
      obtain ⟨fibers, hstep, rfl⟩ := Option.map_eq_some_iff.mp h
      exact .fiber hallowed hstep
  | callJoin =>
      simp only [next, Option.ite_none_right_eq_some, Option.some.injEq] at h
      obtain ⟨hidle, rfl⟩ := h
      exact .callJoin hidle
  | join => exact join_stepped h

/-! ## Outstanding work -/

/-- Whether a worker runs a task. -/
def busy : Fiber.Pc → Nat
  | .idle => 0
  | _ => 1

/-- Whether it still does after its next operation. -/
def remains : Fiber.Pc → Nat
  | .unwind => 0
  | _ => 1

/-- The fiber whose continuation the next operation submits. -/
def submitted : Fiber.Pc → List Nat
  | .submit f => [f]
  | _ => []

theorem busy_of_ne {pc : Fiber.Pc} (h : pc ≠ .idle) : busy pc = 1 := by
  cases pc with
  | idle => exact absurd rfl h
  | _ => rfl

/-- The tasks there are: those in the pool, and those that workers run. -/
def load (fibers : Fiber.State (Fin (n + 1)) κ) : Nat := fibers.tasks.length + total busy fibers.pc

/-- What a step of worker `w` in its task does, but for the fiber. -/
structure Executed (s s' : Fiber.State (Fin (n + 1)) κ) (w : Fin (n + 1)) : Prop where
  pc : ∀ w', w' ≠ w → s'.pc w' = s.pc w'
  threads : ∀ w', w' ≠ w → s'.threads w' = s.threads w'
  coroutines : ∀ f, (s.pc w).fiber ≠ some f → s'.coroutines f = s.coroutines f
  calls : s'.calls = s.calls
  created : s'.created = s.created
  tasks : s'.tasks = s.tasks ++ submitted (s.pc w)
  started : s.pc w ≠ .idle
  runs : busy (s'.pc w) = remains (s.pc w)

omit [DecidableEq κ] in
/-- An operation that leaves the thread and the coroutines alone. -/
theorem Executed.of_setPc {s s' : Fiber.State (Fin (n + 1)) κ} {w : Fin (n + 1)} {pc pc' : Fiber.Pc} (hpc : s.pc w = pc)
    (hpc' : s'.pc = Function.update s.pc w pc') (hrest : s'.threads = s.threads ∧ s'.calls = s.calls ∧ s'.created = s.created)
    (hcoroutines : ∀ f, pc.fiber ≠ some f → s'.coroutines f = s.coroutines f) (htasks : s'.tasks = s.tasks ++ submitted pc)
    (hidle : s.pc w ≠ .idle) (hbusy : busy pc' = remains pc) : Executed s s' w := by
  obtain ⟨hthreads, hcalls, hcreated⟩ := hrest
  subst hpc
  refine ⟨fun w' hne => ?_, fun w' _ => congrFun hthreads w', hcoroutines, hcalls, hcreated, htasks, hidle, ?_⟩
  · rw [hpc', Function.update_of_ne hne]
  · rw [hpc', Function.update_self]
    exact hbusy

omit [DecidableEq κ] in
/-- The switch of `Resume` or what comes after one. -/
theorem Executed.of_setThread {s s' : Fiber.State (Fin (n + 1)) κ} {w : Fin (n + 1)} {pc pc' : Fiber.Pc} (hpc : s.pc w = pc)
    (hpc' : s'.pc = Function.update s.pc w pc') {th : Thread Nat (Fin (n + 1))}
    (hthreads : s'.threads = Function.update s.threads w th)
    (hrest : s'.tasks = s.tasks ∧ s'.calls = s.calls ∧ s'.created = s.created)
    (hcoroutines : ∀ f, pc.fiber ≠ some f → s'.coroutines f = s.coroutines f) (hsubmitted : submitted pc = [])
    (hidle : s.pc w ≠ .idle) (hbusy : busy pc' = remains pc) : Executed s s' w := by
  obtain ⟨htasks, hcalls, hcreated⟩ := hrest
  subst hpc
  refine ⟨fun w' hne => ?_, fun w' hne => ?_, hcoroutines, hcalls, hcreated, ?_, hidle, ?_⟩
  · rw [hpc', Function.update_of_ne hne]
  · rw [hthreads, Function.update_of_ne hne]
  · rw [htasks, hsubmitted, List.append_nil]
  · rw [hpc', Function.update_self]
    exact hbusy

omit [DecidableEq κ] in
theorem exec_executed {s s' : Fiber.State (Fin (n + 1)) κ} {w : Fin (n + 1)} (h : Fiber.exec s w = some s') :
    Executed s s' w := by
  have hidle : s.pc w ≠ .idle := by
    intro hpc
    simp only [Fiber.exec, hpc] at h
    cases h
  have hnil : s.tasks = s.tasks ++ [] := (List.append_nil s.tasks).symm
  cases hpc : s.pc w with
  | idle => exact absurd hpc hidle
  | unwind =>
      simp only [Fiber.exec, hpc, Option.some.injEq] at h
      subst h
      exact .of_setPc hpc rfl ⟨rfl, rfl, rfl⟩ (fun _ _ => rfl) hnil hidle rfl
  | factory f =>
      simp only [Fiber.exec, hpc] at h
      obtain ⟨x, -, rfl⟩ := Option.map_eq_some_iff.mp h
      refine .of_setPc hpc rfl ⟨rfl, rfl, rfl⟩ (fun _ _ => rfl) hnil hidle ?_
      split <;> rfl
  | allocate f | submit f | destroy f =>
      simp only [Fiber.exec, hpc] at h
      obtain ⟨x, -, rfl⟩ := Option.map_eq_some_iff.mp h
      exact .of_setPc hpc rfl ⟨rfl, rfl, rfl⟩ (fun _ _ => rfl) (by first | exact hnil | rfl) hidle rfl
  | construct f =>
      simp only [Fiber.exec, hpc] at h
      obtain ⟨x, -, rfl⟩ := Option.map_eq_some_iff.mp h
      exact .of_setPc hpc rfl ⟨rfl, rfl, rfl⟩ (fun _ hne => Function.update_of_ne (by rintro rfl; exact hne rfl) ..) hnil
        hidle rfl
  | check f =>
      simp only [Fiber.exec, hpc] at h
      obtain ⟨x, -, rfl⟩ := Option.map_eq_some_iff.mp h
      refine .of_setPc hpc rfl ⟨rfl, rfl, rfl⟩ (fun _ _ => rfl) hnil hidle ?_
      split <;> rfl
  | release f =>
      simp only [Fiber.exec, hpc] at h
      obtain ⟨x, -, h⟩ := Option.bind_eq_some_iff.mp h
      obtain ⟨stack, -, rfl⟩ := Option.map_eq_some_iff.mp h
      exact .of_setPc hpc rfl ⟨rfl, rfl, rfl⟩ (fun _ _ => rfl) hnil hidle rfl
  | resume f =>
      simp only [Fiber.exec, hpc] at h
      obtain ⟨x, -, h⟩ := Option.bind_eq_some_iff.mp h
      obtain ⟨p, hp, rfl⟩ := Option.map_eq_some_iff.mp h
      obtain ⟨context, -, rfl⟩ := Option.map_eq_some_iff.mp hp
      exact .of_setThread hpc rfl rfl ⟨rfl, rfl, rfl⟩ (fun _ hne => Function.update_of_ne (by rintro rfl; exact hne rfl) ..)
        rfl hidle rfl
  | inside f =>
      have hpcs : s.pc = Function.update s.pc w (.inside f) := by rw [← hpc, Function.update_eq_self]
      simp only [Fiber.exec, hpc, Fiber.proceed] at h
      obtain ⟨th, -, h⟩ := Option.bind_eq_some_iff.mp h
      split at h
      · simp only [Option.ite_none_right_eq_some, Option.some.injEq] at h
        obtain ⟨-, rfl⟩ := h
        exact .of_setThread hpc rfl rfl ⟨rfl, rfl, rfl⟩ (fun _ _ => rfl) rfl hidle rfl
      · obtain rfl := Option.some.inj h
        exact .of_setThread hpc hpcs rfl ⟨rfl, rfl, rfl⟩ (fun _ _ => rfl) rfl hidle rfl

variable [Fintype κ]

/-- The fibers of the pool are those of `Fibers.Fiber`. -/
theorem reachable_fibers {s : State n κ} (h : (system n κ).Reachable s) : Fiber.Inv s.fibers := by
  refine h.invariant_next (P := fun s => Fiber.Inv s.fibers) Fiber.inv_init ?_
  intro s a s' hinv hnext
  cases next_stepped hnext with
  | fiber _ hstep => exact hinv.next hstep
  | _ => exact hinv

/-! ### The count -/

/-- What the count counts, and what a stopped context leaves. -/
structure Counted (s : State n κ) : Prop where
  outstanding : s.io_context_.outstanding = load s.fibers + (if s.work_guard_ then 1 else 0)
  zero : s.io_context_.outstanding = 0 → s.io_context_.stopped = true
  guard : s.io_context_.stopped = true → s.work_guard_ = false
  idle : s.io_context_.stopped = true → ∀ w, s.fibers.pc w = .idle
  early : s.io_context_.stopped = false → s.late = []
  late : s.io_context_.stopped = true → s.fibers.tasks = s.late

omit [Fintype κ] [DecidableEq κ] in
theorem idle_of_load {fibers : Fiber.State (Fin (n + 1)) κ} (h : load fibers = 0) :
    fibers.tasks = [] ∧ ∀ w, fibers.pc w = .idle := by
  unfold load at h
  refine ⟨List.eq_nil_of_length_eq_zero (Nat.eq_zero_of_add_eq_zero_right h), fun w => ?_⟩
  have hbusy := eq_zero_of_total (Nat.eq_zero_of_add_eq_zero_left h) w
  by_contra hne
  rw [busy_of_ne hne] at hbusy
  cases hbusy

omit [Fintype κ] [DecidableEq κ] in
/-- While the context is not stopped, the count says all. -/
theorem Counted.of_count {s : State n κ}
    (houtstanding : s.io_context_.outstanding = load s.fibers + (if s.work_guard_ then 1 else 0))
    (hstopped : s.io_context_.stopped = (s.io_context_.outstanding == 0)) (hlate : s.late = []) : Counted s := by
  have hnone : s.io_context_.stopped = true → load s.fibers = 0 ∧ s.work_guard_ = false := by
    intro h
    rw [hstopped, beq_iff_eq, houtstanding] at h
    obtain ⟨hload, hguard⟩ := Nat.add_eq_zero_iff.mp h
    exact ⟨hload, by simpa using hguard⟩
  refine ⟨houtstanding, fun h => ?_, fun h => (hnone h).2, fun h => (idle_of_load (hnone h).1).2, fun _ => hlate, fun h => ?_⟩
  · rw [hstopped, h]
    rfl
  · rw [hlate]
    exact (idle_of_load (hnone h).1).1

omit [Fintype κ] [DecidableEq κ] in
/-- The tasks there are after an operation of worker `w`. -/
theorem Executed.load {s s' : Fiber.State (Fin (n + 1)) κ} {w : Fin (n + 1)} (h : Executed s s' w) :
    load s' + 1 = load s + (submitted (s.pc w)).length + remains (s.pc w) := by
  have hpc : s'.pc = Function.update s.pc w (s'.pc w) := by
    funext w'
    by_cases hw : w' = w
    · rw [hw, Function.update_self]
    · rw [Function.update_of_ne hw, h.pc w' hw]
  have htotal := total_update busy s.pc w (s'.pc w)
  rw [← hpc, h.runs, busy_of_ne h.started] at htotal
  unfold StaticThreadPool.load
  rw [h.tasks, List.length_append]
  omega

omit [Fintype κ] in
/-- **The count goes with the tasks there are.** -/
theorem account_outstanding {s : State n κ} {a : Fiber.Action (Fin (n + 1)) κ} {fibers : Fiber.State (Fin (n + 1)) κ}
    (hstep : Fiber.next s.fibers a = some fibers) (hpos : 0 < s.io_context_.outstanding) :
    (s.account a).outstanding + load s.fibers = s.io_context_.outstanding + load fibers := by
  cases a with
  | take w f =>
      simp only [Fiber.next] at hstep
      split at hstep
      · next hpc =>
          simp only [Option.ite_none_right_eq_some, Option.some.injEq] at hstep
          obtain ⟨hmem, rfl⟩ := hstep
          have htotal := total_step busy hpc (.factory f)
          have hlength := List.length_erase_add_one hmem
          simp only [State.account, load, Fiber.State.setPc, busy] at htotal ⊢
          omega
      · cases hstep
  | step w =>
      have hload := (exec_executed hstep).load
      simp only [State.account]
      cases hpc : s.fibers.pc w with
      | submit f =>
          simp only [hpc, submitted, remains, List.length_singleton] at hload
          simp only [IoContext.workStarted]
          omega
      | unwind =>
          simp only [hpc, submitted, remains, List.length_nil] at hload
          simp only [IoContext.workFinished]
          omega
      | _ =>
          simp only [hpc, submitted, remains, List.length_nil] at hload
          simp only
          omega
  | yield w | finish w =>
      simp only [Fiber.next, Option.ite_none_right_eq_some] at hstep
      obtain ⟨-, hstep⟩ := hstep
      obtain ⟨p, -, rfl⟩ := Option.map_eq_some_iff.mp hstep
      rfl
  | spawn c =>
      simp only [Fiber.next, Option.ite_none_right_eq_some, Option.some.injEq] at hstep
      obtain ⟨-, rfl⟩ := hstep
      rfl
  | schedule c =>
      obtain ⟨f, -, hstep⟩ := Option.bind_eq_some_iff.mp hstep
      obtain ⟨x, -, rfl⟩ := Option.map_eq_some_iff.mp hstep
      simp only [State.account, IoContext.workStarted, load, List.length_append, List.length_singleton]
      omega

omit [Fintype κ] [DecidableEq κ] in
/-- The context stops when the count is 0, and only then. -/
theorem account_stopped {s : State n κ} (a : Fiber.Action (Fin (n + 1)) κ) (hstopped : s.io_context_.stopped = false)
    (hpos : 0 < s.io_context_.outstanding) : (s.account a).stopped = ((s.account a).outstanding == 0) := by
  have hsame : s.io_context_.stopped = (s.io_context_.outstanding == 0) := by
    rw [hstopped, eq_comm, beq_eq_false_iff_ne]
    exact Nat.ne_of_gt hpos
  cases a with
  | step w =>
      simp only [State.account]
      cases s.fibers.pc w with
      | submit f => simp [IoContext.workStarted, hstopped]
      | unwind => simp [IoContext.workFinished, hstopped]
      | _ => exact hsame
  | schedule c => simp [State.account, IoContext.workStarted, hstopped]
  | _ => exact hsame

omit [DecidableEq κ] in
/-- Code runs only on a worker that is busy. -/
theorem inCode_busy {fibers : Fiber.State (Fin (n + 1)) κ} (h : Fiber.Inv fibers) {w : Fin (n + 1)} (hcode : fibers.InCode w) :
    fibers.pc w ≠ .idle := by
  obtain ⟨f, hpc, -⟩ := h.inCode hcode
  rw [hpc]
  exact nofun

/-- Once the context is stopped, a step of the fibers is one of a thread outside the pool, or of a call of `Spawn`. -/
theorem Counted.stopped_fiber {s : State n κ} (h : Counted s) (hinv : Fiber.Inv s.fibers)
    (hstopped : s.io_context_.stopped = true) {a : Fiber.Action (Fin (n + 1)) κ} (hallows : s.allows a = true)
    {fibers : Fiber.State (Fin (n + 1)) κ} (hstep : Fiber.next s.fibers a = some fibers) :
    (∃ k, a = .spawn (.inr k)) ∨ ∃ c, a = .schedule c := by
  cases a with
  | take w f => simp [State.allows, hstopped] at hallows
  | step w => exact absurd (h.idle hstopped w) (exec_executed hstep).started
  | yield w | finish w =>
      simp only [Fiber.next, Option.ite_none_right_eq_some] at hstep
      exact absurd (h.idle hstopped w) (inCode_busy hinv hstep.1)
  | spawn c =>
      simp only [Fiber.next, Option.ite_none_right_eq_some] at hstep
      cases c with
      | inl w => exact absurd (h.idle hstopped w) (inCode_busy hinv hstep.1)
      | inr k => exact .inl ⟨k, rfl⟩
  | schedule c => exact .inr ⟨c, rfl⟩

theorem Counted.fiber {s : State n κ} (h : Counted s) (hinv : Fiber.Inv s.fibers) {a : Fiber.Action (Fin (n + 1)) κ}
    (hallows : s.allows a = true) {fibers : Fiber.State (Fin (n + 1)) κ} (hstep : Fiber.next s.fibers a = some fibers) :
    Counted { s with fibers, io_context_ := s.account a, late := s.late ++ s.submitsLate a } := by
  cases hstopped : s.io_context_.stopped with
  | false =>
      have hpos : 0 < s.io_context_.outstanding := by
        refine Nat.pos_of_ne_zero fun hzero => ?_
        rw [h.zero hzero] at hstopped
        cases hstopped
      refine Counted.of_count ?_ (account_stopped a hstopped hpos) ?_
      · have hcount := account_outstanding hstep hpos
        rw [h.outstanding] at hcount
        show (s.account a).outstanding = load fibers + (if s.work_guard_ then 1 else 0)
        omega
      · show s.late ++ s.submitsLate a = []
        rw [h.early hstopped, List.nil_append]
        cases a with
        | schedule c => simp [State.submitsLate, hstopped]
        | _ => rfl
  | true =>
      have hpcs : ∀ w, s.fibers.pc w = .idle := h.idle hstopped
      have houtstanding := h.outstanding
      have hearly {late : List Nat} : s.io_context_.stopped = false → late = [] := by
        rw [hstopped]
        exact fun hrun => absurd hrun.symm Bool.false_ne_true
      rcases h.stopped_fiber hinv hstopped hallows hstep with ⟨k, rfl⟩ | ⟨c, rfl⟩
      · -- a thread outside constructs a fiber
        simp only [Fiber.next, Option.ite_none_right_eq_some, Option.some.injEq] at hstep
        obtain ⟨-, rfl⟩ := hstep
        exact ⟨h.outstanding, h.zero, h.guard, h.idle, hearly, fun _ => (h.late hstopped).trans (List.append_nil _).symm⟩
      · -- its task is never run
        obtain ⟨f, hc, hstep⟩ := Option.bind_eq_some_iff.mp hstep
        obtain ⟨x, -, rfl⟩ := Option.map_eq_some_iff.mp hstep
        refine ⟨?_, fun hzero => absurd hzero (Nat.succ_ne_zero _), h.guard, h.idle, hearly, fun _ => ?_⟩
        · simp only [State.account, IoContext.workStarted, load, List.length_append, List.length_singleton] at houtstanding ⊢
          omega
        · simp only [State.submitsLate, hstopped, if_true, hc, Option.toList_some, h.late hstopped]

omit [Fintype κ] [DecidableEq κ] in
/-- The guard is reset once. -/
theorem Counted.reset {s : State n κ} (h : Counted s) :
    Counted { s with
      io_context_ := if s.work_guard_ then s.io_context_.workFinished else s.io_context_
      work_guard_ := false
      join := .worker 0 } := by
  have houtstanding := h.outstanding
  cases hguard : s.work_guard_ with
  | false =>
      rw [hguard] at houtstanding
      exact ⟨houtstanding, h.zero, fun _ => rfl, h.idle, h.early, h.late⟩
  | true =>
      have hrun : s.io_context_.stopped = false := by
        by_contra hstopped
        rw [h.guard (Bool.eq_true_of_not_eq_false hstopped)] at hguard
        cases hguard
      rw [hguard, if_pos rfl] at houtstanding
      refine Counted.of_count ?_ ?_ (h.early hrun)
      · show s.io_context_.outstanding - 1 = load s.fibers + 0
        omega
      · show (s.io_context_.stopped || s.io_context_.outstanding - 1 == 0) = _
        rw [hrun, Bool.false_or]
        rfl

omit [DecidableEq κ] [Fintype κ] in
theorem counted_init : Counted ({} : State n κ) where
  outstanding := by
    have hload : load ({} : Fiber.State (Fin (n + 1)) κ) = 0 := by
      have hbusy : total busy (fun _ : Fin (n + 1) => Fiber.Pc.idle) = 0 := total_eq_zero fun _ => rfl
      exact (Nat.zero_add _).trans hbusy
    show 1 = load {} + 1
    rw [hload]
  zero := nofun
  guard := nofun
  idle := nofun
  early _ := rfl
  late := nofun

theorem reachable_counted {s : State n κ} (h : (system n κ).Reachable s) : Counted s := by
  refine h.invariant_reachable (fun s hs => hs ▸ counted_init) ?_
  rintro s s' hr hinv ⟨a, hnext⟩
  cases next_stepped hnext with
  | fiber hallows hstep => exact hinv.fiber (reachable_fibers hr) hallows hstep
  | reset _ => exact hinv.reset
  | _ => exact ⟨hinv.outstanding, hinv.zero, hinv.guard, hinv.idle, hinv.early, hinv.late⟩

/-! ### Fibers that come too late -/

/-- A fiber that comes too late is not touched: it has neither a stack nor a coroutine. -/
def Untouched (s : State n κ) : Prop := ∀ f ∈ s.late, s.fibers.fibers f = some {}

theorem Counted.untouched {s : State n κ} (h : Counted s) (hinv : Fiber.Inv s.fibers) (hlate : Untouched s)
    {a : Fiber.Action (Fin (n + 1)) κ} (hallows : s.allows a = true) {fibers : Fiber.State (Fin (n + 1)) κ}
    (hstep : Fiber.next s.fibers a = some fibers) {f : Nat} (hf : f ∈ s.late ++ s.submitsLate a) :
    fibers.fibers f = some {} := by
  cases hstopped : s.io_context_.stopped with
  | false =>
      rw [h.early hstopped, List.nil_append] at hf
      cases a with
      | schedule c => simp [State.submitsLate, hstopped] at hf
      | _ => cases hf
  | true =>
      rcases h.stopped_fiber hinv hstopped hallows hstep with ⟨k, rfl⟩ | ⟨c, rfl⟩
      · simp only [Fiber.next, Option.ite_none_right_eq_some, Option.some.injEq] at hstep
        obtain ⟨-, rfl⟩ := hstep
        have hfresh := hlate f (by simpa [State.submitsLate] using hf)
        exact (Function.update_of_ne (hinv.ne_created (by rw [hfresh]; rfl)) ..).trans hfresh
      · obtain ⟨g, hc, hstep⟩ := Option.bind_eq_some_iff.mp hstep
        obtain ⟨x, -, rfl⟩ := Option.map_eq_some_iff.mp hstep
        simp only [State.submitsLate, hstopped, if_true, hc, Option.toList_some, List.mem_append, List.mem_singleton] at hf
        rcases hf with hf | rfl
        · exact hlate f hf
        · exact hinv.calls c f hc

/-- A worker in a call of `Spawn` runs code inside its task. -/
def Calling (fibers : Fiber.State (Fin (n + 1)) κ) : Prop :=
  ∀ w f, fibers.calls (.inl w) = some f →
    ∃ g, fibers.pc w = .inside g ∧ fibers.threads w = ⟨some g, some g, some g, .code⟩

omit [DecidableEq κ] [Fintype κ] in
/-- The code goes on with the call. -/
theorem exec_calling {fibers : Fiber.State (Fin (n + 1)) κ} {w : Fin (n + 1)} {g : Nat} (hpc : fibers.pc w = .inside g)
    (hthread : fibers.threads w = ⟨some g, some g, some g, .code⟩) : Fiber.exec fibers w = none := by
  simp only [Fiber.exec, hpc, Fiber.proceed, Coroutine.proceed, hthread, Option.bind_none]

theorem Calling.next {fibers fibers' : Fiber.State (Fin (n + 1)) κ} (h : Calling fibers) (hinv : Fiber.Inv fibers)
    {a : Fiber.Action (Fin (n + 1)) κ} (hstep : Fiber.next fibers a = some fibers') : Calling fibers' := by
  intro w f hc
  cases a with
  | take w' f' =>
      simp only [Fiber.next] at hstep
      split at hstep
      · next hidle =>
          simp only [Option.ite_none_right_eq_some, Option.some.injEq] at hstep
          obtain ⟨-, rfl⟩ := hstep
          obtain ⟨g, hpc, hthread⟩ := h w f hc
          refine ⟨g, (Function.update_of_ne ?_ ..).trans hpc, hthread⟩
          rintro rfl
          rw [hidle] at hpc
          cases hpc
      · cases hstep
  | step w' =>
      have hexecuted := exec_executed hstep
      rw [hexecuted.calls] at hc
      obtain ⟨g, hpc, hthread⟩ := h w f hc
      have hne : w ≠ w' := by
        rintro rfl
        cases (exec_calling hpc hthread).symm.trans hstep
      exact ⟨g, (hexecuted.pc w hne).trans hpc, (hexecuted.threads w hne).trans hthread⟩
  | yield w' | finish w' =>
      simp only [Fiber.next, Option.ite_none_right_eq_some] at hstep
      obtain ⟨hcode, hstep⟩ := hstep
      obtain ⟨p, -, rfl⟩ := Option.map_eq_some_iff.mp hstep
      obtain ⟨g, hpc, hthread⟩ := h w f hc
      refine ⟨g, hpc, (Function.update_of_ne ?_ ..).trans hthread⟩
      rintro rfl
      cases hc.symm.trans hcode.2.2
  | spawn c =>
      simp only [Fiber.next, Option.ite_none_right_eq_some, Option.some.injEq] at hstep
      obtain ⟨hspawn, rfl⟩ := hstep
      by_cases hw : c = .inl w
      · subst hw
        obtain ⟨g, hpc, -, hthread, -⟩ := hinv.inCode hspawn
        exact ⟨g, hpc, hthread⟩
      · exact h w f ((Function.update_of_ne (Ne.symm hw) ..).symm.trans hc)
  | schedule c =>
      obtain ⟨f', -, hstep⟩ := Option.bind_eq_some_iff.mp hstep
      obtain ⟨x, -, rfl⟩ := Option.map_eq_some_iff.mp hstep
      exact h w f (of_update (P := fun x => x = some f) (Option.some_ne_none f).symm hc).2

/-- Where a worker is. -/
structure Working (s : State n κ) : Prop where
  pool : ∀ w, s.workers_ w ≠ .start → s.pool w = true
  run : ∀ w, s.fibers.pc w ≠ .idle → s.workers_ w = .run
  returned : ∀ w, s.workers_ w = .returned → s.io_context_.stopped = true
  calling : Calling s.fibers

omit [Fintype κ] [DecidableEq κ] in
/-- The context does not start again. -/
theorem account_keeps_stopped {s : State n κ} (a : Fiber.Action (Fin (n + 1)) κ) (h : s.io_context_.stopped = true) :
    (s.account a).stopped = true := by
  unfold State.account
  split
  · exact h
  · split
    · exact h
    · simp [IoContext.workFinished, h]
    · exact h
  · exact h

theorem Working.fiber {s : State n κ} (h : Working s) (hinv : Fiber.Inv s.fibers) {a : Fiber.Action (Fin (n + 1)) κ}
    (hallows : s.allows a = true) {fibers : Fiber.State (Fin (n + 1)) κ} (hstep : Fiber.next s.fibers a = some fibers) :
    Working { s with fibers, io_context_ := s.account a, late := s.late ++ s.submitsLate a } := by
  refine ⟨h.pool, fun w hbusy => ?_, fun w hw => account_keeps_stopped a (h.returned w hw), h.calling.next hinv hstep⟩
  show s.workers_ w = .run
  change fibers.pc w ≠ .idle at hbusy
  cases a with
  | take w' f =>
      simp only [Fiber.next] at hstep
      split at hstep
      · simp only [Option.ite_none_right_eq_some, Option.some.injEq] at hstep
        obtain ⟨-, rfl⟩ := hstep
        by_cases hw : w = w'
        · simp only [State.allows, Bool.and_eq_true, beq_iff_eq] at hallows
          exact hw ▸ hallows.1
        · exact h.run w fun hidle => hbusy ((Function.update_of_ne hw ..).trans hidle)
      · cases hstep
  | step w' =>
      have hexecuted := exec_executed hstep
      by_cases hw : w = w'
      · exact h.run w (hw ▸ hexecuted.started)
      · exact h.run w fun hidle => hbusy ((hexecuted.pc w hw).trans hidle)
  | yield w' | finish w' =>
      simp only [Fiber.next, Option.ite_none_right_eq_some] at hstep
      obtain ⟨p, -, rfl⟩ := Option.map_eq_some_iff.mp hstep.2
      exact h.run w hbusy
  | spawn c =>
      simp only [Fiber.next, Option.ite_none_right_eq_some, Option.some.injEq] at hstep
      obtain ⟨-, rfl⟩ := hstep
      exact h.run w hbusy
  | schedule c =>
      obtain ⟨f, -, hstep⟩ := Option.bind_eq_some_iff.mp hstep
      obtain ⟨x, -, rfl⟩ := Option.map_eq_some_iff.mp hstep
      exact h.run w hbusy

omit [Fintype κ] [DecidableEq κ] in
theorem Working.start {s : State n κ} (h : Working s) {w : Fin (n + 1)} :
    Working { s with pool := Function.update s.pool w true, workers_ := Function.update s.workers_ w .run } := by
  refine ⟨fun w' hw' => ?_, fun w' hbusy => ?_, fun w' hw' => ?_, h.calling⟩
  · by_cases hw : w' = w
    · rw [hw]
      exact Function.update_self ..
    · exact (Function.update_of_ne hw ..).trans (h.pool w' fun hstart => hw' ((Function.update_of_ne hw ..).trans hstart))
  · by_cases hw : w' = w
    · rw [hw]
      exact Function.update_self ..
    · exact (Function.update_of_ne hw ..).trans (h.run w' hbusy)
  · exact h.returned w' (of_update (P := fun x => x = Worker.returned) (x := .run) nofun hw').2

omit [Fintype κ] [DecidableEq κ] in
theorem Working.leave {s : State n κ} (h : Working s) {w : Fin (n + 1)} (hrun : s.workers_ w = .run)
    (hstopped : s.io_context_.stopped = true) (hidle : s.fibers.pc w = .idle) :
    Working { s with workers_ := Function.update s.workers_ w .returned } := by
  refine ⟨fun w' hw' => ?_, fun w' hbusy => ?_, fun _ _ => hstopped, h.calling⟩
  · by_cases hw : w' = w
    · exact h.pool w' (by rw [hw, hrun]; exact nofun)
    · exact h.pool w' fun hstart => hw' ((Function.update_of_ne hw ..).trans hstart)
  · have hw : w' ≠ w := by
      rintro rfl
      exact hbusy hidle
    exact (Function.update_of_ne hw ..).trans (h.run w' hbusy)

/-- Each stack is in the allocator, or with one fiber. -/
def Accounted (fibers : Fiber.State (Fin (n + 1)) κ) : Prop :=
  ∃ users, Accounts fibers.allocator.pool_ fibers.allocator.mapped fibers.stack users

omit [DecidableEq κ] [Fintype κ] in
theorem Accounted.same {fibers fibers' : Fiber.State (Fin (n + 1)) κ} (h : Accounted fibers)
    (hallocator : fibers'.allocator = fibers.allocator) (hstack : ∀ f, fibers'.stack f = fibers.stack f) :
    Accounted fibers' := by
  obtain ⟨users, haccounts⟩ := h
  refine ⟨users, ?_⟩
  rw [hallocator]
  exact haccounts.congr hstack

omit [DecidableEq κ] [Fintype κ] in
/-- A fiber gets a stack. -/
theorem Accounted.allocate {fibers fibers' : Fiber.State (Fin (n + 1)) κ} (h : Accounted fibers) {f : Nat} {x : Fiber}
    (hf : fibers.stack f = none)
    (hfibers : fibers'.fibers = Function.update fibers.fibers f (some { x with stack_ := some fibers.allocator.allocate.1 }))
    (hallocator : fibers'.allocator = fibers.allocator.allocate.2) : Accounted fibers' := by
  obtain ⟨users, haccounts⟩ := h
  refine ⟨f :: users, ?_⟩
  rw [Fiber.stack_update hfibers, hallocator]
  show Accounts _ _ (Function.update fibers.stack f (some fibers.allocator.allocate.1)) _
  unfold StackAllocator.allocate
  split
  · next stack hlast => exact haccounts.take hlast hf
  · next hlast =>
      have hempty : fibers.allocator.pool_ = [] := List.getLast?_eq_none_iff.mp hlast
      rw [hempty] at haccounts
      show Accounts fibers.allocator.pool_ _ _ _
      rw [hempty]
      exact haccounts.make hf

omit [DecidableEq κ] [Fintype κ] in
/-- A fiber gives its stack back. -/
theorem Accounted.release {fibers fibers' : Fiber.State (Fin (n + 1)) κ} (h : Accounted fibers) {f stack : Nat} {x : Fiber}
    (hf : fibers.stack f = some stack)
    (hfibers : fibers'.fibers = Function.update fibers.fibers f (some { x with stack_ := none }))
    (hallocator : fibers'.allocator = fibers.allocator.release stack) : Accounted fibers' := by
  obtain ⟨users, haccounts⟩ := h
  refine ⟨users.erase f, ?_⟩
  rw [Fiber.stack_update hfibers, hallocator]
  exact haccounts.give hf

omit [DecidableEq κ] in
theorem Accounted.exec {fibers fibers' : Fiber.State (Fin (n + 1)) κ} (h : Accounted fibers) (hinv : Fiber.Inv fibers)
    {w : Fin (n + 1)} (hstep : Fiber.exec fibers w = some fibers') : Accounted fibers' := by
  have hhas := hinv.has w
  cases hpc : fibers.pc w with
  | idle => exact absurd hpc (exec_executed hstep).started
  | unwind =>
      simp only [Fiber.exec, hpc, Option.some.injEq] at hstep
      subst hstep
      exact h.same rfl fun _ => rfl
  | factory f | check f | submit f =>
      simp only [Fiber.exec, hpc] at hstep
      obtain ⟨x, -, rfl⟩ := Option.map_eq_some_iff.mp hstep
      exact h.same rfl fun _ => rfl
  | resume f =>
      simp only [Fiber.exec, hpc] at hstep
      obtain ⟨x, -, hstep⟩ := Option.bind_eq_some_iff.mp hstep
      obtain ⟨p, -, rfl⟩ := Option.map_eq_some_iff.mp hstep
      exact h.same rfl fun _ => rfl
  | inside f =>
      simp only [Fiber.exec, hpc, Fiber.proceed] at hstep
      obtain ⟨th, -, hstep⟩ := Option.bind_eq_some_iff.mp hstep
      split at hstep
      · simp only [Option.ite_none_right_eq_some, Option.some.injEq] at hstep
        obtain ⟨-, rfl⟩ := hstep
        exact h.same rfl fun _ => rfl
      · obtain rfl := Option.some.inj hstep
        exact h.same rfl fun _ => rfl
  | allocate f =>
      rw [hpc] at hhas
      simp only [Fiber.exec, hpc] at hstep
      obtain ⟨x, -, rfl⟩ := Option.map_eq_some_iff.mp hstep
      refine h.allocate (f := f) (x := x) ?_ rfl rfl
      simp only [Fiber.State.stack, hhas.2, Option.bind_some]
  | construct f =>
      simp only [Fiber.exec, hpc] at hstep
      obtain ⟨x, hx, rfl⟩ := Option.map_eq_some_iff.mp hstep
      refine h.same rfl (Fiber.stack_keep rfl ?_)
      simp only [Fiber.State.stack, hx, Option.bind_some]
  | release f =>
      simp only [Fiber.exec, hpc] at hstep
      obtain ⟨x, hx, hstep⟩ := Option.bind_eq_some_iff.mp hstep
      obtain ⟨stack, hstack, rfl⟩ := Option.map_eq_some_iff.mp hstep
      have hf : fibers.stack f = some stack := by
        simp only [Fiber.State.stack, hx, Option.bind_some, hstack]
      exact h.release (x := x) hf rfl rfl
  | destroy f =>
      rw [hpc] at hhas
      simp only [Fiber.exec, hpc] at hstep
      obtain ⟨x, -, rfl⟩ := Option.map_eq_some_iff.mp hstep
      refine h.same rfl (Fiber.stack_keep rfl ?_)
      simp only [Fiber.State.stack, hhas.2.1, Option.bind_some, Option.bind_none]

theorem Accounted.next {fibers fibers' : Fiber.State (Fin (n + 1)) κ} (h : Accounted fibers) (hinv : Fiber.Inv fibers)
    {a : Fiber.Action (Fin (n + 1)) κ} (hstep : Fiber.next fibers a = some fibers') : Accounted fibers' := by
  cases a with
  | take w f =>
      simp only [Fiber.next] at hstep
      split at hstep
      · simp only [Option.ite_none_right_eq_some, Option.some.injEq] at hstep
        obtain ⟨-, rfl⟩ := hstep
        exact h.same rfl fun _ => rfl
      · cases hstep
  | step w => exact h.exec hinv hstep
  | yield w | finish w =>
      simp only [Fiber.next, Option.ite_none_right_eq_some] at hstep
      obtain ⟨p, -, rfl⟩ := Option.map_eq_some_iff.mp hstep.2
      exact h.same rfl fun _ => rfl
  | spawn c =>
      simp only [Fiber.next, Option.ite_none_right_eq_some, Option.some.injEq] at hstep
      obtain ⟨-, rfl⟩ := hstep
      refine h.same rfl (Fiber.stack_keep rfl ?_)
      simp only [Fiber.State.stack, hinv.unborn _ (Nat.le_refl _), Option.bind_some, Option.bind_none]
  | schedule c =>
      obtain ⟨f, -, hstep⟩ := Option.bind_eq_some_iff.mp hstep
      obtain ⟨x, -, rfl⟩ := Option.map_eq_some_iff.mp hstep
      exact h.same rfl fun _ => rfl

omit [DecidableEq κ] [Fintype κ] in
/-- **Once no fiber has a stack, all stacks are free.** -/
theorem Accounted.free {fibers : Fiber.State (Fin (n + 1)) κ} (h : Accounted fibers) (hnone : ∀ f, fibers.stack f = none) :
    fibers.allocator.pool_.Perm (List.range fibers.allocator.mapped) := by
  obtain ⟨users, haccounts⟩ := h
  have hempty : users = [] := List.eq_nil_iff_forall_not_mem.mpr fun f => haccounts.not_user (hnone f)
  subst hempty
  exact haccounts.perm_of_nil

/-! ## `Join` -/

namespace State

/-- How many of the workers have been joined. -/
def waited (s : State n κ) : Nat :=
  if s.joined_ then n + 1
  else match s.join with
    | .worker i => i
    | .store => n + 1
    | _ => 0

/-- `Join` has reset the guard. -/
def closed (s : State n κ) : Bool :=
  s.joined_ || match s.join with
    | .worker _ => true
    | .store => true
    | _ => false

end State

/-- Where `Join` is. -/
structure Joining (s : State n κ) : Prop where
  again : s.joined_ = true → s.join = .idle ∨ s.join = .test
  guard : s.closed = true → s.work_guard_ = false
  returned : ∀ w : Fin (n + 1), w.val < s.waited → s.workers_ w = .returned ∧ s.joinable w = false
  joinable : ∀ w : Fin (n + 1), s.waited ≤ w.val → s.joinable w = true

omit [DecidableEq κ] [Fintype κ] in
/-- `Join` has not been through, where it is not at its beginning. -/
theorem Joining.first {s : State n κ} (h : Joining s) (hidle : s.join ≠ .idle) (htest : s.join ≠ .test) :
    s.joined_ = false := by
  by_contra hjoined
  rcases h.again (Bool.eq_true_of_not_eq_false hjoined) with hjoin | hjoin
  · exact hidle hjoin
  · exact htest hjoin

omit [DecidableEq κ] [Fintype κ] in
/-- `Join` goes on, and the workers that have been joined stay the same. -/
theorem Joining.moved {s : State n κ} (h : Joining s) {j : Join} (hagain : s.joined_ = true → j = .idle ∨ j = .test)
    (hclosed : State.closed { s with join := j } = s.closed) (hwaited : State.waited { s with join := j } = s.waited) :
    Joining { s with join := j } := by
  refine ⟨hagain, fun hc => h.guard (hclosed ▸ hc), fun w hw => h.returned w (hwaited ▸ hw), fun w hw => ?_⟩
  exact h.joinable w (hwaited ▸ hw)

omit [DecidableEq κ] [Fintype κ] in
/-- A worker that has been joined does not move any more. -/
theorem Joining.working {s : State n κ} (h : Joining s) {w : Fin (n + 1)} (hw : s.workers_ w ≠ .returned)
    (pool : Fin (n + 1) → Bool) (x : Worker) :
    Joining { s with pool, workers_ := Function.update s.workers_ w x } := by
  refine ⟨h.again, h.guard, fun w' hw' => ?_, h.joinable⟩
  obtain ⟨hreturned, hjoined⟩ := h.returned w' hw'
  refine ⟨(Function.update_of_ne ?_ ..).trans hreturned, hjoined⟩
  rintro rfl
  exact hw hreturned

omit [DecidableEq κ] [Fintype κ] in
/-- The next worker is joined. -/
theorem Joining.worker {s : State n κ} (h : Joining s) {i : Nat} (hjoin : s.join = .worker i) (hlt : i < n + 1)
    (hreturned : s.workers_ ⟨i, hlt⟩ = .returned) :
    Joining { s with joinable := Function.update s.joinable ⟨i, hlt⟩ false, join := .worker (i + 1) } := by
  have hfirst : s.joined_ = false := h.first (by simp [hjoin]) (by simp [hjoin])
  have hwaited : s.waited = i := by simp [State.waited, hfirst, hjoin]
  have hwaited' : State.waited { s with joinable := Function.update s.joinable ⟨i, hlt⟩ false, join := .worker (i + 1) } =
      i + 1 := by simp [State.waited, hfirst]
  refine ⟨fun hjoined => (nomatch hfirst.symm.trans hjoined), fun _ => h.guard ?_, fun w hw => ?_, fun w hw => ?_⟩
  · simp [State.closed, hjoin]
  · rw [hwaited'] at hw
    by_cases hi : w = ⟨i, hlt⟩
    · subst hi
      exact ⟨hreturned, Function.update_self ..⟩
    · have hold : w.val < i := by
        refine Nat.lt_of_le_of_ne (Nat.le_of_lt_succ hw) fun heq => hi ?_
        exact Fin.ext heq
      obtain ⟨hreturned', hjoined⟩ := h.returned w (hwaited ▸ hold)
      exact ⟨hreturned', (Function.update_of_ne hi ..).trans hjoined⟩
  · rw [hwaited'] at hw
    refine (Function.update_of_ne ?_ ..).trans (h.joinable w (hwaited ▸ Nat.le_of_succ_le hw))
    rintro rfl
    exact Nat.lt_irrefl i hw

omit [Fintype κ] in
theorem Joining.next {s s' : State n κ} {a : Action n κ} (h : Joining s) (hnext : next s a = some s') : Joining s' := by
  cases next_stepped hnext with
  | start w hw => exact h.working (by rw [hw]; exact nofun) _ _
  | leave w hw _ _ => exact h.working (by rw [hw]; exact nofun) _ _
  | fiber _ _ => exact ⟨h.again, h.guard, h.returned, h.joinable⟩
  | callJoin hjoin =>
      refine h.moved (fun _ => .inr rfl) ?_ ?_
      · simp only [State.closed, hjoin]
      · simp only [State.waited, hjoin]
  | again hjoin _ =>
      refine h.moved (fun _ => .inl rfl) ?_ ?_
      · simp only [State.closed, hjoin]
      · simp only [State.waited, hjoin]
  | first hjoin hfirst =>
      refine h.moved (fun hjoined => (nomatch hfirst.symm.trans hjoined)) ?_ ?_
      · simp only [State.closed, hjoin]
      · simp only [State.waited, hjoin]
  | reset hjoin =>
      have hfirst : s.joined_ = false := h.first (by simp [hjoin]) (by simp [hjoin])
      refine ⟨fun hjoined => (nomatch hfirst.symm.trans hjoined), fun _ => rfl, fun w hw => ?_, fun w _ => ?_⟩
      · simp [State.waited, hfirst] at hw
      · exact h.joinable w (by simp [State.waited, hfirst, hjoin])
  | worker hjoin hlt hreturned _ => exact h.worker hjoin hlt hreturned
  | workers hjoin hle =>
      have hfirst : s.joined_ = false := h.first (by simp [hjoin]) (by simp [hjoin])
      refine ⟨fun hjoined => (nomatch hfirst.symm.trans hjoined), fun _ => h.guard (by simp [State.closed, hjoin]),
        fun w _ => h.returned w ?_, fun w hw => ?_⟩
      · simp only [State.waited, hfirst, hjoin]
        exact Nat.lt_of_lt_of_le w.isLt hle
      · simp only [State.waited, hfirst] at hw
        exact absurd w.isLt (Nat.not_lt_of_le hw)
  | store hjoin =>
      refine ⟨fun _ => .inl rfl, fun _ => h.guard (by simp [State.closed, hjoin]), fun w _ => h.returned w ?_, fun w hw => ?_⟩
      · simp only [State.waited, hjoin]
        split <;> exact w.isLt
      · exact absurd w.isLt (Nat.not_lt_of_le hw)

omit [DecidableEq κ] [Fintype κ] in
theorem joining_init : Joining ({} : State n κ) where
  again h := by cases h
  guard h := by cases h
  returned w h := absurd h (Nat.not_lt_zero w.val)
  joinable _ _ := rfl

omit [Fintype κ] in
theorem reachable_joining {s : State n κ} (h : (system n κ).Reachable s) : Joining s :=
  h.invariant_next joining_init fun _ _ _ hinv hnext => hinv.next hnext

/-! ### What `Join` leaves -/

omit [DecidableEq κ] [Fintype κ] in
/-- Once the context is stopped, no worker is in a call of `Spawn`. -/
theorem Counted.not_calling {s : State n κ} (h : Counted s) (hworking : Working s) (hstopped : s.io_context_.stopped = true)
    (w : Fin (n + 1)) : s.fibers.calls (.inl w) = none := by
  by_contra hcall
  obtain ⟨f, hf⟩ := Option.ne_none_iff_exists'.mp hcall
  obtain ⟨g, hpc, -⟩ := hworking.calling w f hf
  rw [h.idle hstopped w] at hpc
  cases hpc

omit [DecidableEq κ] in
/-- A fiber that is left when the context is stopped has come too late. -/
theorem Counted.left {s : State n κ} (h : Counted s) (hinv : Fiber.Inv s.fibers) (hworking : Working s)
    (hstopped : s.io_context_.stopped = true) {f : Nat} (hlive : s.fibers.fibers f ≠ none) :
    f ∈ s.late ∨ ∃ k, s.fibers.calls (.inr k) = some f := by
  by_contra hnot
  obtain ⟨hlate, hcalls⟩ := not_or.mp hnot
  have howners := hinv.owners f
  unfold Fiber.ownersOf at howners
  rw [if_pos (Option.isSome_iff_ne_none.mpr hlive), h.late hstopped, List.count_eq_zero_of_not_mem hlate,
    total_eq_zero fun w => by rw [h.idle hstopped w]; exact Fiber.counts_none f, total_eq_zero fun c => ?_] at howners
  · cases howners
  · cases c with
    | inl w => rw [h.not_calling hworking hstopped w, Fiber.counts_none]
    | inr k => exact Fiber.counts_of_ne fun hk => hcalls ⟨k, hk⟩

omit [DecidableEq κ] in
/-- **What a stopped pool leaves**: every fiber submitted before has been run to its end, and its stack is free. -/
theorem Counted.finished {s : State n κ} (h : Counted s) (hinv : Fiber.Inv s.fibers) (hworking : Working s)
    (hlate : Untouched s) (haccounted : Accounted s.fibers) (hstopped : s.io_context_.stopped = true) :
    (∀ f < s.fibers.created, f ∉ s.late → (∀ k, s.fibers.calls (.inr k) ≠ some f) →
      s.fibers.deleted.count f = 1 ∧ f ∈ s.fibers.returned) ∧
      s.fibers.allocator.pool_.Perm (List.range s.fibers.allocator.mapped) := by
  refine ⟨fun f hf hnot hcalls => ?_, haccounted.free fun f => ?_⟩
  · have hdead : s.fibers.fibers f = none := by
      by_contra hlive
      rcases h.left hinv hworking hstopped hlive with hmem | ⟨k, hk⟩
      · exact hnot hmem
      · exact hcalls k hk
    have hmem := (hinv.deleted f).mpr ⟨hf, hdead⟩
    exact ⟨List.count_eq_one_of_mem hinv.once hmem, hinv.returned f hmem⟩
  · by_cases hlive : s.fibers.fibers f = none
    · simp only [Fiber.State.stack, hlive, Option.bind_none]
    · have hfresh : s.fibers.fibers f = some {} := by
        rcases h.left hinv hworking hstopped hlive with hmem | ⟨k, hk⟩
        · exact hlate f hmem
        · exact hinv.calls _ f hk
      simp only [Fiber.State.stack, hfresh, Option.bind_some]

/-- What a worker has left to do in its task once no routine yields any more, and in the task it may submit. -/
def weight (fibers : Fiber.State (Fin (n + 1)) κ) (w : Fin (n + 1)) : Nat :=
  match fibers.pc w with
  | .idle => 0
  | .unwind => 1
  | .destroy _ => 2
  | .release _ => 3
  | .check f => if (fibers.coroutines f).completed_ then 4 else 15
  | .submit _ => 14
  | .inside f =>
      match (fibers.threads w).running.frame with
      | .resume _ _ => if (fibers.coroutines f).completed_ then 5 else 16
      | .code => 6
      | .start => 7
      | .suspend _ => 7
      | .unreachable => 0
  | .resume _ => 8
  | .construct _ => 9
  | .allocate _ => 10
  | .factory _ => 11

omit [DecidableEq κ] [Fintype κ] in
theorem weight_congr {fibers fibers' : Fiber.State (Fin (n + 1)) κ} {w : Fin (n + 1)} (hpc : fibers'.pc w = fibers.pc w)
    (hthread : fibers'.threads w = fibers.threads w)
    (hcoroutines : ∀ f, (fibers.pc w).fiber = some f → fibers'.coroutines f = fibers.coroutines f) :
    weight fibers' w = weight fibers w := by
  unfold weight
  rw [hpc, hthread]
  cases hw : fibers.pc w with
  | check f | inside f => simp only [hcoroutines f (by rw [hw]; rfl)]
  | _ => rfl

omit [DecidableEq κ] in
/-- **An operation of a task leaves less to do.** -/
theorem exec_weight {fibers fibers' : Fiber.State (Fin (n + 1)) κ} (h : Fiber.Inv fibers) {w : Fin (n + 1)}
    (hstep : Fiber.exec fibers w = some fibers') :
    weight fibers' w + 12 * (submitted (fibers.pc w)).length < weight fibers w := by
  have hhas := h.has w
  cases hpc : fibers.pc w with
  | idle => exact absurd hpc (exec_executed hstep).started
  | unwind =>
      simp only [Fiber.exec, hpc, Option.some.injEq] at hstep
      subst hstep
      simp [weight, submitted, hpc, Fiber.State.setPc]
  | factory f =>
      simp only [Fiber.exec, hpc] at hstep
      obtain ⟨x, -, rfl⟩ := Option.map_eq_some_iff.mp hstep
      by_cases hfirst : x.coroutine_ = none
      · simp [weight, submitted, hpc, Fiber.State.setPc, hfirst]
      · simp [weight, submitted, hpc, Fiber.State.setPc, hfirst]
  | allocate f | submit f | destroy f | construct f =>
      simp only [Fiber.exec, hpc] at hstep
      obtain ⟨x, -, rfl⟩ := Option.map_eq_some_iff.mp hstep
      simp [weight, submitted, hpc, Fiber.State.setPc]
  | check f =>
      simp only [Fiber.exec, hpc] at hstep
      obtain ⟨x, -, rfl⟩ := Option.map_eq_some_iff.mp hstep
      by_cases hcompleted : (fibers.coroutines f).completed_ = true
      · simp [weight, submitted, hpc, Fiber.State.setPc, hcompleted]
      · simp [weight, submitted, hpc, Fiber.State.setPc, hcompleted]
  | release f =>
      simp only [Fiber.exec, hpc] at hstep
      obtain ⟨x, -, hstep⟩ := Option.bind_eq_some_iff.mp hstep
      obtain ⟨stack, -, rfl⟩ := Option.map_eq_some_iff.mp hstep
      simp [weight, submitted, hpc, Fiber.State.setPc]
  | resume f =>
      rw [hpc] at hhas
      obtain ⟨-, ⟨stack, hfiber⟩, hclosed, hcompleted⟩ := hhas
      obtain ⟨context, hkind, hresume⟩ := hclosed.resume hcompleted (fibers.threads w) w
      simp only [Fiber.exec, hpc, hfiber, hresume, Option.bind_some, Option.map_some, Option.some.injEq] at hstep
      subst hstep
      -- the coroutine goes on at its beginning, or in `Suspend`
      rcases hkind with rfl | rfl
      · simp [weight, submitted, hpc, Fiber.State.setPc, Fiber.State.setThread]
      · simp [weight, submitted, hpc, Fiber.State.setPc, Fiber.State.setThread]
  | inside f =>
      rw [hpc] at hhas
      simp only [Fiber.exec, hpc, Fiber.proceed] at hstep
      cases hhas.2 with
      | code thread _ =>
          rw [thread] at hstep
          cases hstep
      | start thread _ | suspend thread _ =>
          rw [thread] at hstep
          obtain rfl := Option.some.inj hstep
          simp [weight, submitted, hpc, Fiber.State.setThread, thread]
      | back thread parent _ =>
          simp only [Coroutine.proceed, thread, parent, Option.bind_some, and_self, if_true, Option.some.injEq] at hstep
          subst hstep
          by_cases hcompleted : (fibers.coroutines f).completed_ = true
          · simp [weight, submitted, hpc, Fiber.State.setPc, Fiber.State.setThread, thread, hcompleted]
          · simp [weight, submitted, hpc, Fiber.State.setPc, Fiber.State.setThread, thread, hcompleted]

/-- A call of `Spawn` has its fiber to submit. -/
def pending (call : Option Nat) : Nat := if call.isSome then 13 else 0

/-- What the fibers have left to do. -/
def tasksLeft (fibers : Fiber.State (Fin (n + 1)) κ) : Nat :=
  12 * fibers.tasks.length + total id (weight fibers) + total pending fibers.calls

omit [DecidableEq κ] [Fintype κ] in
/-- Worker `w` does something, and the others do not notice. -/
theorem total_weight {fibers fibers' : Fiber.State (Fin (n + 1)) κ} {w : Fin (n + 1)}
    (hothers : ∀ w', w' ≠ w → weight fibers' w' = weight fibers w') :
    total id (weight fibers') + weight fibers w = total id (weight fibers) + weight fibers' w := by
  have hupdate : weight fibers' = Function.update (weight fibers) w (weight fibers' w) := by
    funext w'
    by_cases hw : w' = w
    · rw [hw, Function.update_self]
    · rw [Function.update_of_ne hw, hothers w' hw]
  have htotal := total_update id (weight fibers) w (weight fibers' w)
  rwa [← hupdate] at htotal

omit [DecidableEq κ] in
/-- Two workers have different fibers. -/
theorem fiber_ne {fibers : Fiber.State (Fin (n + 1)) κ} (h : Fiber.Inv fibers) {w w' : Fin (n + 1)} {f : Nat} (hne : w' ≠ w)
    (hf : (fibers.pc w').fiber = some f) : (fibers.pc w).fiber ≠ some f :=
  (h.sole hf).workers w (Ne.symm hne)

/-- What a fiber may do once no routine yields or spawns any more. -/
def closesFiber : Fiber.Action (Fin (n + 1)) κ → Bool
  | .yield _ => false
  | .spawn _ => false
  | _ => true

omit [DecidableEq κ] in
/-- A worker that has less to do, with what it submits. -/
theorem tasksLeft_worker {fibers fibers' : Fiber.State (Fin (n + 1)) κ} {w : Fin (n + 1)}
    (hothers : ∀ w', w' ≠ w → weight fibers' w' = weight fibers w') (hcalls : fibers'.calls = fibers.calls)
    (hlt : weight fibers' w + 12 * fibers'.tasks.length < weight fibers w + 12 * fibers.tasks.length) :
    tasksLeft fibers' < tasksLeft fibers := by
  have htotal := total_weight hothers
  unfold tasksLeft
  rw [hcalls]
  omega

theorem take_lt {fibers fibers' : Fiber.State (Fin (n + 1)) κ} {w : Fin (n + 1)} {f : Nat}
    (hstep : Fiber.next fibers (.take w f) = some fibers') : tasksLeft fibers' < tasksLeft fibers := by
  simp only [Fiber.next] at hstep
  split at hstep
  · next hidle =>
      simp only [Option.ite_none_right_eq_some, Option.some.injEq] at hstep
      obtain ⟨hmem, rfl⟩ := hstep
      refine tasksLeft_worker (w := w) (fun w' hne => weight_congr (Function.update_of_ne hne ..) rfl fun _ _ => rfl) rfl ?_
      have hlength := List.length_erase_add_one hmem
      simp only [weight, Fiber.State.setPc, Function.update_self, hidle]
      omega
  · cases hstep

theorem finish_lt {fibers fibers' : Fiber.State (Fin (n + 1)) κ} (h : Fiber.Inv fibers) {w : Fin (n + 1)}
    (hstep : Fiber.next fibers (.finish w) = some fibers') : tasksLeft fibers' < tasksLeft fibers := by
  simp only [Fiber.next, Option.ite_none_right_eq_some] at hstep
  obtain ⟨hcode, hstep⟩ := hstep
  obtain ⟨p, hp, rfl⟩ := Option.map_eq_some_iff.mp hstep
  obtain ⟨f, hpc, -, hthread, hcoroutine⟩ := h.inCode hcode
  rw [hthread, Coroutine.finish_of_running hcoroutine] at hp
  obtain rfl := Option.some.inj hp
  refine tasksLeft_worker (w := w) (fun w' hne => ?_) rfl ?_
  · refine weight_congr rfl (Function.update_of_ne hne ..) fun g hg => Function.update_of_ne ?_ ..
    rintro rfl
    exact fiber_ne h hne hg (by rw [hpc]; rfl)
  · simp [weight, Fiber.State.setThread, hpc, hthread]

theorem schedule_lt {fibers fibers' : Fiber.State (Fin (n + 1)) κ} {c : Fin (n + 1) ⊕ κ}
    (hstep : Fiber.next fibers (.schedule c) = some fibers') : tasksLeft fibers' < tasksLeft fibers := by
  obtain ⟨f, hc, hstep⟩ := Option.bind_eq_some_iff.mp hstep
  obtain ⟨x, -, rfl⟩ := Option.map_eq_some_iff.mp hstep
  have htotal : total pending (Function.update fibers.calls c none) + 13 = total pending fibers.calls + 0 :=
    total_step pending hc none
  have hweight : weight { fibers with tasks := fibers.tasks ++ [f], calls := Function.update fibers.calls c none } =
      weight fibers := funext fun w => weight_congr rfl rfl fun _ _ => rfl
  simp only [tasksLeft, hweight, List.length_append, List.length_singleton]
  omega

/-- **Without `Yield` and `Spawn`, each step of a fiber leaves less to do.** -/
theorem tasksLeft_lt {fibers fibers' : Fiber.State (Fin (n + 1)) κ} (h : Fiber.Inv fibers)
    {a : Fiber.Action (Fin (n + 1)) κ} (ha : closesFiber a = true) (hstep : Fiber.next fibers a = some fibers') :
    tasksLeft fibers' < tasksLeft fibers := by
  cases a with
  | take w f => exact take_lt hstep
  | step w =>
      have hexecuted := exec_executed hstep
      have hweight := exec_weight h hstep
      refine tasksLeft_worker (w := w) (fun w' hne => ?_) hexecuted.calls ?_
      · refine weight_congr (hexecuted.pc w' hne) (hexecuted.threads w' hne) fun f hf => ?_
        exact hexecuted.coroutines f (fiber_ne h hne hf)
      · rw [hexecuted.tasks, List.length_append]
        omega
  | finish w => exact finish_lt h hstep
  | schedule c => exact schedule_lt hstep
  | yield w => cases ha
  | spawn c => cases ha

/-- What a worker has left to do besides tasks. -/
def Worker.left : Worker → Nat
  | .start => 2
  | .run => 1
  | .returned => 0

/-- What `Join` has left to do. -/
def Join.left (n : Nat) : Join → Nat
  | .idle => 0
  | .test => n + 5
  | .reset => n + 4
  | .worker i => n + 1 - i + 2
  | .store => 1

def rank (s : State n κ) : Nat := tasksLeft s.fibers + total Worker.left s.workers_ + s.join.left n

/-- What may happen once no routine yields or spawns any more, until `Join` returns. -/
def closes : Action n κ → Bool
  | .fiber a => closesFiber a
  | .callJoin => false
  | _ => true

theorem rank_lt {s s' : State n κ} (h : Fiber.Inv s.fibers) {a : Action n κ} (ha : closes a = true)
    (hnext : next s a = some s') : rank s' < rank s := by
  unfold rank
  cases next_stepped hnext with
  | start w hw =>
      have htotal := total_step Worker.left hw .run
      simp only [Worker.left] at htotal ⊢
      omega
  | leave w hw _ _ =>
      have htotal := total_step Worker.left hw .returned
      simp only [Worker.left] at htotal ⊢
      omega
  | fiber _ hstep =>
      have hlt := tasksLeft_lt h ha hstep
      simp only
      omega
  | callJoin => cases ha
  | again hjoin | first hjoin | store hjoin =>
      simp only [hjoin, Join.left]
      omega
  | reset hjoin =>
      simp only [hjoin, Join.left]
      omega
  | worker hjoin hlt =>
      simp only [hjoin, Join.left]
      omega
  | workers hjoin hle =>
      simp only [hjoin, Join.left]
      omega

/-- Somebody can go on. -/
def CanClose (s : State n κ) : Prop := ∃ a, closes a = true ∧ (next s a).isSome = true

omit [Fintype κ] in
theorem CanClose.of_fiber {s : State n κ} {a : Fiber.Action (Fin (n + 1)) κ} (ha : closesFiber a = true)
    (hallows : s.allows a = true) (hstep : (Fiber.next s.fibers a).isSome = true) : CanClose s := by
  refine ⟨.fiber a, ha, ?_⟩
  simp only [next, hallows, if_true, Option.isSome_map, hstep]

/-- **A worker with a task can go on**: with its next operation, or by the code that runs on it. -/
theorem busy_canClose {s : State n κ} (h : Fiber.Inv s.fibers) {w : Fin (n + 1)} (hbusy : s.fibers.pc w ≠ .idle) :
    CanClose s := by
  rcases h.exists_exec hbusy with ⟨fibers, hstep⟩ | ⟨f, hpc, hthread⟩
  · exact .of_fiber (a := .step w) rfl rfl (Option.isSome_iff_exists.mpr ⟨fibers, hstep⟩)
  · cases hc : s.fibers.calls (.inl w) with
    | some g =>
        -- the code is in a call of `Spawn`
        refine .of_fiber (a := .schedule (.inl w)) rfl rfl ?_
        simp only [Fiber.next, hc, Option.bind_some, h.calls _ g hc, Option.map_some, Option.isSome_some]
    | none =>
        have hcode : s.fibers.InCode w := by
          unfold Fiber.State.InCode
          rw [hthread]
          exact ⟨trivial, by simp, hc⟩
        obtain ⟨g, -, -, hthread', hcoroutine⟩ := h.inCode hcode
        refine .of_fiber (a := .finish w) rfl rfl ?_
        simp only [Fiber.next, hcode, if_true, hthread', Coroutine.finish_of_running hcoroutine, Option.map_some,
          Option.isSome_some]

omit [DecidableEq κ] [Fintype κ] in
/-- While the context runs and the guard is reset, there is a task. -/
theorem Counted.exists_task {s : State n κ} (h : Counted s) (hguard : s.work_guard_ = false)
    (hrun : s.io_context_.stopped = false) : (∃ f, f ∈ s.fibers.tasks) ∨ ∃ w, s.fibers.pc w ≠ .idle := by
  by_contra hnone
  obtain ⟨htasks, hbusy⟩ := not_or.mp hnone
  have hempty : s.fibers.tasks = [] := List.eq_nil_iff_forall_not_mem.mpr (not_exists.mp htasks)
  have hidle : ∀ w, s.fibers.pc w = .idle := fun w => not_not.mp (not_exists.mp hbusy w)
  have houtstanding := h.outstanding
  unfold load at houtstanding
  rw [hempty, total_eq_zero fun w => by rw [hidle w]; rfl, hguard] at houtstanding
  rw [h.zero houtstanding] at hrun
  cases hrun

/-- **A worker that has not returned can go on, or another one can.** -/
theorem worker_canClose {s : State n κ} (hinv : Fiber.Inv s.fibers) (hcounted : Counted s)
    (hguard : s.work_guard_ = false) {w : Fin (n + 1)} (hw : s.workers_ w ≠ .returned) : CanClose s := by
  cases hworker : s.workers_ w with
  | returned => exact absurd hworker hw
  | start => exact ⟨.work w, rfl, by simp only [next, work, hworker, Option.isSome_some]⟩
  | run =>
      cases hpc : s.fibers.pc w with
      | idle =>
          cases hstopped : s.io_context_.stopped with
          | true => exact ⟨.work w, rfl, by simp only [next, work, hworker, hpc, hstopped, if_true, Option.isSome_some]⟩
          | false =>
              rcases hcounted.exists_task hguard hstopped with ⟨f, hf⟩ | ⟨w', hbusy⟩
              · refine .of_fiber (a := .take w f) rfl (by simp [State.allows, hworker, hstopped]) ?_
                simp only [Fiber.next, hpc, hf, if_true, Option.isSome_some]
              · exact busy_canClose hinv hbusy
      | _ => exact busy_canClose hinv (w := w) (by simp [hpc])

/-- **`Join` is never stuck.** -/
theorem join_canClose {s : State n κ} (h : (system n κ).Reachable s) (hjoin : s.join ≠ .idle) : CanClose s := by
  have hjoining := reachable_joining h
  cases hj : s.join with
  | idle => exact absurd hj hjoin
  | test | reset | store => exact ⟨.join, rfl, by simp only [next, join, hj, Option.isSome_some]⟩
  | worker i =>
      by_cases hlt : i < n + 1
      · have hfirst : s.joined_ = false := hjoining.first hjoin (by rw [hj]; exact nofun)
        by_cases hreturned : s.workers_ ⟨i, hlt⟩ = .returned
        · have hjoinable := hjoining.joinable ⟨i, hlt⟩ (by simp [State.waited, hfirst, hj])
          refine ⟨.join, rfl, ?_⟩
          simp only [next, join, hj, hlt, dite_true, hreturned, hjoinable, and_self, if_true, Option.isSome_some]
        · exact worker_canClose (reachable_fibers h) (reachable_counted h) (hjoining.guard (by simp [State.closed, hj]))
            hreturned
      · exact ⟨.join, rfl, by simp only [next, join, hj, hlt, dite_false, Option.isSome_some]⟩

/-- The runs in which no routine yields or spawns any more, until `Join` returns. -/
def closing (n : Nat) (κ : Type) [DecidableEq κ] : System (State n κ) :=
  System.ofNextIf {} next fun _ a => closes a = true

omit [Fintype κ] in
theorem Reachable.closing {s s' : State n κ} (h : (system n κ).Reachable s) (hsteps : (closing n κ).Steps s s') :
    (system n κ).Reachable s' := by
  induction hsteps with
  | refl => exact h
  | tail _ hstep ih =>
      obtain ⟨a, -, hnext⟩ := hstep
      exact ih.step ⟨a, hnext⟩

/-- The call of `Join` goes on, or has returned. -/
def Called (s : State n κ) : Prop := s.join = .idle → s.joined_ = true

omit [Fintype κ] in
theorem Called.next {s s' : State n κ} (h : Called s) {a : Action n κ} (ha : closes a = true) (hnext : next s a = some s') :
    Called s' := by
  intro hidle
  cases next_stepped hnext with
  | callJoin => cases ha
  | again _ hjoined => exact hjoined
  | store => rfl
  | first => cases hidle
  | reset => cases hidle
  | worker => cases hidle
  | workers => cases hidle
  | start | leave | fiber => exact h hidle

/-- **`Join` returns.** Once `Join` has been called, and whatever the fibers and the workers are at, in every run in
    which the routines return without another `Yield` or `Spawn`, there are only finitely many steps left, and when no more
    can be taken, `Join` has returned with the pool joined: no interleaving of the workers, the fibers and `Join` is stuck. -/
theorem join_returns {s : State n κ} (h : (system n κ).Reachable s) (hjoin : s.join ≠ .idle) :
    (closing n κ).Terminates s ∧
      ∀ s', (closing n κ).Steps s s' → (closing n κ).Quiescent s' → s'.join = .idle ∧ s'.joined_ = true := by
  constructor
  · have hranked : (closing n κ).Ranked fun s m => (system n κ).Reachable s ∧ rank s = m := by
      rintro s s' m ⟨hs, rfl⟩ ⟨a, ha, hnext⟩
      exact ⟨rank s', rank_lt (reachable_fibers hs) ha hnext, hs.step ⟨a, hnext⟩, rfl⟩
    exact hranked.terminates ⟨h, rfl⟩
  · intro s' hsteps hquiescent
    have hidle : s'.join = .idle := by
      by_contra hne
      obtain ⟨a, ha, hnext⟩ := join_canClose (Reachable.closing h hsteps) hne
      obtain ⟨s'', hnext⟩ := Option.isSome_iff_exists.mp hnext
      exact hquiescent s'' ⟨a, ha, hnext⟩
    have hcalled : Called s' := by
      clear hquiescent hidle
      induction hsteps with
      | refl => exact fun hidle => absurd hidle hjoin
      | tail _ hstep ih =>
          obtain ⟨a, ha, hnext⟩ := hstep
          exact ih.next ha hnext
    exact ⟨hidle, hcalled hidle⟩

/-- `Join` waits for worker 0, which runs a fiber; worker 1 has not started. -/
theorem join_returns_running : ∃ s : State 1 Unit, s.join = .worker 0 ∧ s.fibers.pc 0 = .inside 0 ∧
    (closing 1 Unit).Terminates s ∧ ∀ s', (closing 1 Unit).Steps s s' → (closing 1 Unit).Quiescent s' →
      s'.join = .idle ∧ s'.joined_ = true := by
  have hrun : ∃ s, System.run next ({} : State 1 Unit)
      [.fiber (.spawn (.inr ())), .fiber (.schedule (.inr ())), .work 0, .fiber (.take 0 0), .fiber (.step 0),
        .fiber (.step 0), .fiber (.step 0), .fiber (.step 0), .callJoin, .join, .join] = some s ∧ s.join = .worker 0 ∧
      s.fibers.pc 0 = .inside 0 := ⟨_, rfl, rfl, rfl⟩
  obtain ⟨s, hs, hjoin, hpc⟩ := hrun
  exact ⟨s, hjoin, hpc, join_returns (System.reachable_of_run _ hs) (by rw [hjoin]; exact nofun)⟩

end StaticThreadPool
end Fibers
end Tpcc
