import Mathlib.Data.List.Nodup
import Tpcc.Transition.Exclusive
import Tpcc.Transition.System

/-!
# `Executors.Strand` — serial execution over an arbitrary executor

`StrandExecutor`: the calls of `Execute` and the batches of tasks that the strand hands to the underlying
executor, one atomic operation on `head_` and `is_scheduled_` at a time. The underlying executor starts a
batch at some moment after it has been submitted, in any order, on any thread, possibly inside the call
that submits it: nothing below depends on when.

A batch is popped off the stack top first, and run from the back of the vector, so it runs in the order of
the pushes. The right to drain the stack is a token, taken with `is_scheduled_`, and carried by whoever
`holds` it: a call, the batch it submits, the batch that one submits, up to the batch that gives it up.

`stack_` is kept as the list of its nodes, with their addresses: a compare-exchange compares addresses, and
an address can be used again once its node has been deleted.

## Contents
- **The machine.** `Strand`, `next`, and `Stepped`, the list of its steps.
- **Serial and FIFO.** `Token`: at most one activity holds the token, and what has been started, what the
  holder carries and what is on the stack make up the pushes, in their order.
- **What gets lost.** A call that finds `is_scheduled_` set leaves its task to the holder, who may already
  have looked at the stack for the last time.
-/

namespace Tpcc
namespace Executors

open Transition

/-- `StackNode`, at its address. Tasks are told apart by the number of calls of `Execute` before theirs. -/
structure Node where
  addr : Nat
  data : Nat
  deriving DecidableEq

/-- Who calls `ExecuteFirstStack`. -/
inductive Caller where
  | execute
  | batch
  deriving DecidableEq

/-- The next operation of an activity, a call of `Execute` or a batch. -/
inductive Pc where
  /-- No activity. -/
  | idle
  /-- `Push`: `new_node->next = head_`. -/
  | load (node : Node)
  /-- `Push`: the compare-exchange on `head_`. -/
  | cas (node : Node) (next : Option Nat)
  /-- `Execute`: the compare-exchange on `is_scheduled_`. -/
  | schedule
  /-- `ExecuteFirstStack`: the exchange of `head_`. -/
  | exchange (caller : Caller)
  /-- `ExecuteFirstStack`: `executor_->Execute`. -/
  | submit (caller : Caller) (tasks : List Nat)
  /-- A batch that the executor has not started. -/
  | pending (tasks : List Nat)
  /-- The batch: `while (!tasks.empty())`. -/
  | loop (tasks : List Nat)
  /-- The batch, in `ExecuteHere(task)`. -/
  | task (task : Nat) (tasks : List Nat)
  /-- The batch: `stack_.IsEmpty()`. -/
  | isEmpty
  /-- The batch: `is_scheduled_.store(false)`. -/
  | store
  /-- Nothing is left but to return. -/
  | return (caller : Caller)
  deriving DecidableEq

/-- `StrandExecutor`, the memory its nodes live in, and its activities. The last three fields record the
    number of calls of `Execute`, the tasks in the order of their successful compare-exchanges, and the
    tasks in the order in which they have been started. -/
structure Strand where
  is_scheduled_ : Bool := false
  stack_ : List Node := []
  allocated : List Nat := []
  activities : Nat → Pc := fun _ => .idle
  calls : Nat := 0
  pushed : List Nat := []
  started : List Nat := []

/-- Who takes the next step: a thread that calls `Execute`, with the address of its node; the task of
    activity `i`, which returns or throws; activity `i`, with the place of the batch if it submits one. -/
inductive Action (X : Type) where
  | execute (i addr : Nat)
  | finish (i : Nat) (outcome : Except X Unit)
  | step (i place : Nat)

namespace Strand

variable {X : Type}

/-- The pointer in `head_`. -/
def head_ (s : Strand) : Option Nat := s.stack_.head?.map (·.addr)

/-- Activity `i` goes on with `pc`. -/
def goOn (s : Strand) (i : Nat) (pc : Pc) : Strand :=
  { s with activities := Function.update s.activities i pc }

/-- `while (!tasks_to_run.IsEmpty()) tasks.push_back(tasks_to_run.Pop());` -/
def popAll (tasks : List Nat) : List Node → List Nat
  | [] => tasks
  | node :: nodes => popAll (tasks ++ [node.data]) nodes

def next (s : Strand) : Action X → Option Strand
  | .execute i addr =>
      match s.activities i with
      | .idle =>
          if addr ∈ s.allocated then none
          else some (({ s with allocated := addr :: s.allocated, calls := s.calls + 1 } : Strand).goOn i
            (.load ⟨addr, s.calls⟩))
      | _ => none
  | .finish i outcome =>
      match s.activities i, outcome with
      | .task _ tasks, .ok () => some (s.goOn i (.loop tasks))
      -- `ExecuteHere` ignores exceptions
      | .task _ tasks, .error _ => some (s.goOn i (.loop tasks))
      | _, _ => none
  | .step i place =>
      match s.activities i with
      | .idle => none
      | .load node => some (s.goOn i (.cas node s.head_))
      | .cas node next =>
          if s.head_ = next then
            some (({ s with stack_ := node :: s.stack_, pushed := s.pushed ++ [node.data] } : Strand).goOn i
              .schedule)
          else some (s.goOn i (.load node))
      | .schedule =>
          if s.is_scheduled_ then some (s.goOn i (.return .execute))
          else some (({ s with is_scheduled_ := true } : Strand).goOn i (.exchange .execute))
      | .exchange caller =>
          -- the nodes are popped off the local stack, and deleted with it
          some (({ s with
            stack_ := []
            allocated := s.allocated.filter (· ∉ s.stack_.map (·.addr)) } : Strand).goOn i
              (.submit caller (popAll [] s.stack_)))
      | .submit caller tasks =>
          match s.activities place with
          | .idle => some ((s.goOn place (.pending tasks)).goOn i (.return caller))
          | _ => none
      | .pending tasks => some (s.goOn i (.loop tasks))
      | .loop tasks =>
          match tasks.getLast? with
          | none => some (s.goOn i .isEmpty)
          | some task =>
              some (({ s with started := s.started ++ [task] } : Strand).goOn i (.task task tasks.dropLast))
      | .task _ _ => none
      | .isEmpty => some (s.goOn i (if s.stack_.isEmpty then .store else .exchange .batch))
      | .store => some (({ s with is_scheduled_ := false } : Strand).goOn i (.return .batch))
      | .return _ => some (s.goOn i .idle)

/-- All runs of a strand, over any executor. -/
def system (X : Type) : System Strand := System.ofNext {} (next (X := X))

/-! ## What a step can do -/

inductive Stepped (s : Strand) : Strand → Prop where
  | execute {i addr : Nat} (idle : s.activities i = .idle) (fresh : addr ∉ s.allocated) :
      Stepped s (({ s with allocated := addr :: s.allocated, calls := s.calls + 1 } : Strand).goOn i
        (.load ⟨addr, s.calls⟩))
  | finish {i task : Nat} {tasks : List Nat} (running : s.activities i = .task task tasks) :
      Stepped s (s.goOn i (.loop tasks))
  | load {i : Nat} {node : Node} (at_ : s.activities i = .load node) :
      Stepped s (s.goOn i (.cas node s.head_))
  | push {i : Nat} {node : Node} (at_ : s.activities i = .cas node s.head_) :
      Stepped s (({ s with stack_ := node :: s.stack_, pushed := s.pushed ++ [node.data] } : Strand).goOn i
        .schedule)
  | retry {i : Nat} {node : Node} {next : Option Nat} (at_ : s.activities i = .cas node next)
      (changed : s.head_ ≠ next) : Stepped s (s.goOn i (.load node))
  | schedule {i : Nat} (at_ : s.activities i = .schedule) (unscheduled : s.is_scheduled_ = false) :
      Stepped s (({ s with is_scheduled_ := true } : Strand).goOn i (.exchange .execute))
  | skip {i : Nat} (at_ : s.activities i = .schedule) (scheduled : s.is_scheduled_ = true) :
      Stepped s (s.goOn i (.return .execute))
  | exchange {i : Nat} {caller : Caller} (at_ : s.activities i = .exchange caller) :
      Stepped s (({ s with
        stack_ := []
        allocated := s.allocated.filter (· ∉ s.stack_.map (·.addr)) } : Strand).goOn i
          (.submit caller (popAll [] s.stack_)))
  | submit {i place : Nat} {caller : Caller} {tasks : List Nat} (at_ : s.activities i = .submit caller tasks)
      (free : s.activities place = .idle) :
      Stepped s ((s.goOn place (.pending tasks)).goOn i (.return caller))
  | start {i : Nat} {tasks : List Nat} (at_ : s.activities i = .pending tasks) :
      Stepped s (s.goOn i (.loop tasks))
  | run {i task : Nat} {tasks : List Nat} (at_ : s.activities i = .loop tasks)
      (back : tasks.getLast? = some task) :
      Stepped s (({ s with started := s.started ++ [task] } : Strand).goOn i (.task task tasks.dropLast))
  | drained {i : Nat} (at_ : s.activities i = .loop []) : Stepped s (s.goOn i .isEmpty)
  | last {i : Nat} (at_ : s.activities i = .isEmpty) (empty : s.stack_ = []) : Stepped s (s.goOn i .store)
  | again {i : Nat} (at_ : s.activities i = .isEmpty) (more : s.stack_ ≠ []) :
      Stepped s (s.goOn i (.exchange .batch))
  | store {i : Nat} (at_ : s.activities i = .store) :
      Stepped s (({ s with is_scheduled_ := false } : Strand).goOn i (.return .batch))
  | return {i : Nat} {caller : Caller} (at_ : s.activities i = .return caller) :
      Stepped s (s.goOn i .idle)

theorem next_stepped {s s' : Strand} {a : Action X} (h : s.next a = some s') : Stepped s s' := by
  cases a with
  | execute i addr =>
      simp only [next] at h
      split at h
      · next idle =>
          split at h
          · cases h
          · next fresh =>
              cases h
              exact .execute idle fresh
      · cases h
  | finish i outcome =>
      simp only [next] at h
      split at h
      · next running =>
          cases h
          exact .finish running
      · next running =>
          cases h
          exact .finish running
      · cases h
  | step i place =>
      simp only [next] at h
      split at h
      · cases h
      · next node at_ =>
          cases h
          exact .load at_
      · next node nxt at_ =>
          split at h
          · next same =>
              cases h
              subst same
              exact .push at_
          · next changed =>
              cases h
              exact .retry at_ changed
      · next at_ =>
          split at h
          · next scheduled =>
              cases h
              exact .skip at_ scheduled
          · next unscheduled =>
              cases h
              exact .schedule at_ (by simpa using unscheduled)
      · next caller at_ =>
          cases h
          exact .exchange at_
      · next caller tasks at_ =>
          split at h
          · next free =>
              cases h
              exact .submit at_ free
          · cases h
      · next tasks at_ =>
          cases h
          exact .start at_
      · next tasks at_ =>
          split at h
          · next hnone =>
              cases h
              rw [List.getLast?_eq_none_iff.mp hnone] at at_
              exact .drained at_
          · next task back =>
              cases h
              exact .run at_ back
      · cases h
      · next at_ =>
          cases h
          by_cases hempty : s.stack_ = []
          · rw [hempty]
            exact .last at_ hempty
          · rw [if_neg (by simpa using hempty)]
            exact .again at_ hempty
      · next at_ =>
          cases h
          exact .store at_
      · next caller at_ =>
          cases h
          exact .return at_

/-! ## The token -/

/-- The activity holds the token: it has set `is_scheduled_`, or has been submitted by the holder, and has
    neither cleared it nor submitted a batch since. -/
def holds : Pc → Bool
  | .exchange _ | .submit _ _ | .pending _ | .loop _ | .task _ _ | .isEmpty | .store => true
  | _ => false

/-- The tasks an activity carries, in the order in which they will be started. -/
def carries : Pc → List Nat
  | .submit _ tasks | .pending tasks | .loop tasks | .task _ tasks => tasks.reverse
  | _ => []

@[simp] theorem carries_exchange (caller : Caller) : carries (.exchange caller) = [] := rfl

@[simp] theorem carries_store : carries .store = [] := rfl

/-- The tasks on the stack, in the order of their pushes. -/
def waiting (s : Strand) : List Nat := (s.stack_.map (·.data)).reverse

/-- Who holds the token, and where the tasks that have been pushed are. -/
inductive Token (s : Strand) : Prop where
  | free (unscheduled : s.is_scheduled_ = false) (none : Nobody holds s.activities)
      (fifo : s.pushed = s.started ++ s.waiting)
  | held (i : Nat) (scheduled : s.is_scheduled_ = true) (only : Only holds s.activities i)
      (fifo : s.pushed = s.started ++ carries (s.activities i) ++ s.waiting)

theorem popAll_eq (tasks : List Nat) (nodes : List Node) :
    popAll tasks nodes = tasks ++ nodes.map (·.data) := by
  induction nodes generalizing tasks with
  | nil => simp [popAll]
  | cons node nodes ih =>
      rw [popAll, ih]
      simp

/-- Who has the token holds it. -/
theorem Token.scheduled_of_holds {s : Strand} (h : Token s) {i : Nat}
    (hi : holds (s.activities i) = true) :
    s.is_scheduled_ = true ∧ Only holds s.activities i ∧
      s.pushed = s.started ++ carries (s.activities i) ++ s.waiting := by
  cases h with
  | free unscheduled none fifo => exact (none.not hi).elim
  | held j scheduled only fifo =>
      obtain rfl := only.eq hi
      exact ⟨scheduled, only, fifo⟩

/-- A step of activity `i` that neither takes nor gives up the token and moves no task. -/
theorem Token.local {s s' : Strand} {i : Nat} {pc : Pc} (h : Token s)
    (hactivities : s'.activities = Function.update s.activities i pc)
    (hscheduled : s'.is_scheduled_ = s.is_scheduled_) (hstack : s'.stack_ = s.stack_)
    (hpushed : s'.pushed = s.pushed) (hstarted : s'.started = s.started)
    (hholds : holds pc = holds (s.activities i)) (hcarries : carries pc = carries (s.activities i)) :
    Token s' := by
  have hwaiting : s'.waiting = s.waiting := by rw [waiting, hstack, waiting]
  cases h with
  | free unscheduled none fifo =>
      refine .free (hscheduled.trans unscheduled) ?_ ?_
      · rw [hactivities]
        exact none.other (hholds.trans (none i))
      · rw [hpushed, hstarted, hwaiting]
        exact fifo
  | held j scheduled only fifo =>
      refine .held j (hscheduled.trans scheduled) ?_ ?_
      · rw [hactivities]
        by_cases hi : i = j
        · subst hi
          exact only.keep (hholds.trans only.holder)
        · exact only.other (only.others i hi) (hholds.trans (only.others i hi))
      · rw [hpushed, hstarted, hwaiting, hactivities]
        by_cases hi : i = j
        · subst hi
          rw [Function.update_self, hcarries]
          exact fifo
        · rw [Function.update_of_ne (Ne.symm hi)]
          exact fifo

theorem Token.push {s : Strand} (h : Token s) {i : Nat} {node : Node} {nxt : Option Nat}
    (hi : s.activities i = .cas node nxt) :
    Token (({ s with stack_ := node :: s.stack_, pushed := s.pushed ++ [node.data] } : Strand).goOn i
      .schedule) := by
  have hwaiting : ((node :: s.stack_).map (·.data)).reverse = s.waiting ++ [node.data] := by
    simp [waiting]
  cases h with
  | free unscheduled none fifo =>
      refine .free unscheduled (none.other rfl) ?_
      show s.pushed ++ [node.data] = s.started ++ ((node :: s.stack_).map (·.data)).reverse
      rw [hwaiting, fifo, List.append_assoc]
  | held j scheduled only fifo =>
      have hne : j ≠ i := by
        rintro rfl
        have hholder := only.holder
        rw [hi] at hholder
        cases hholder
      refine .held j scheduled (only.other (only.others i hne.symm) rfl) ?_
      show s.pushed ++ [node.data] = s.started ++ carries (Function.update s.activities i .schedule j) ++
        ((node :: s.stack_).map (·.data)).reverse
      rw [Function.update_of_ne hne, hwaiting, fifo, List.append_assoc]

/-- The compare-exchange on `is_scheduled_` takes the token. -/
theorem Token.schedule {s : Strand} (h : Token s) {i : Nat} (hfree : s.is_scheduled_ = false) :
    Token (({ s with is_scheduled_ := true } : Strand).goOn i (.exchange .execute)) := by
  cases h with
  | held j scheduled => rw [hfree] at scheduled; cases scheduled
  | free unscheduled none fifo =>
      refine .held i rfl (none.take rfl) ?_
      show s.pushed = s.started ++ carries (Function.update s.activities i (.exchange .execute) i) ++
        s.waiting
      rw [Function.update_self, carries_exchange, List.append_nil]
      exact fifo

/-- The exchange of `head_` moves the stack to its holder. -/
theorem Token.exchange {s : Strand} (h : Token s) {i : Nat} {caller : Caller} {allocated : List Nat}
    (hi : s.activities i = .exchange caller) :
    Token (({ s with stack_ := [], allocated } : Strand).goOn i (.submit caller (popAll [] s.stack_))) := by
  obtain ⟨hscheduled, honly, hfifo⟩ := h.scheduled_of_holds (i := i) (by rw [hi]; rfl)
  refine .held i hscheduled (honly.keep rfl) ?_
  show s.pushed = s.started ++
    carries (Function.update s.activities i (.submit caller (popAll [] s.stack_)) i) ++ []
  rw [Function.update_self, carries, popAll_eq, List.nil_append, List.append_nil, hfifo, hi,
    carries_exchange, List.append_nil]
  rfl

/-- Submitting a batch hands the token to it. -/
theorem Token.submit {s : Strand} (h : Token s) {i place : Nat} {caller : Caller} {tasks : List Nat}
    (hi : s.activities i = .submit caller tasks) (hfree : s.activities place = .idle) :
    Token ((s.goOn place (.pending tasks)).goOn i (.return caller)) := by
  obtain ⟨hscheduled, honly, hfifo⟩ := h.scheduled_of_holds (i := i) (by rw [hi]; rfl)
  have hne : i ≠ place := by
    rintro rfl
    rw [hi] at hfree
    cases hfree
  refine .held place hscheduled (honly.pass hne rfl rfl) ?_
  show s.pushed = s.started ++ carries (Function.update
    (Function.update s.activities place (.pending tasks)) i (.return caller) place) ++ s.waiting
  rw [Function.update_of_ne hne.symm, Function.update_self, hfifo, hi, carries, carries]

/-- The loop starts the task at the back, the first of those pushed. -/
theorem Token.run {s : Strand} (h : Token s) {i task : Nat} {tasks : List Nat}
    (hi : s.activities i = .loop tasks) (hback : tasks.getLast? = some task) :
    Token (({ s with started := s.started ++ [task] } : Strand).goOn i (.task task tasks.dropLast)) := by
  obtain ⟨hscheduled, honly, hfifo⟩ := h.scheduled_of_holds (i := i) (by rw [hi]; rfl)
  refine .held i hscheduled (honly.keep rfl) ?_
  have htasks : tasks.reverse = task :: tasks.dropLast.reverse := by
    rw [← List.dropLast_append_getLast? task hback]
    simp
  show s.pushed = s.started ++ [task] ++
    carries (Function.update s.activities i (.task task tasks.dropLast) i) ++ s.waiting
  rw [Function.update_self, hfifo, hi, carries, carries, htasks]
  simp

theorem Token.store {s : Strand} (h : Token s) {i : Nat} (hi : s.activities i = .store) :
    Token (({ s with is_scheduled_ := false } : Strand).goOn i (.return .batch)) := by
  obtain ⟨-, honly, hfifo⟩ := h.scheduled_of_holds (i := i) (by rw [hi]; rfl)
  refine .free rfl (honly.drop rfl) ?_
  rw [hi, carries_store, List.append_nil] at hfifo
  exact hfifo

/-- **Every step keeps the token.** -/
theorem Token.stepped {s s' : Strand} (h : Token s) (hs : Stepped s s') : Token s' := by
  cases hs with
  | execute idle fresh => exact h.local rfl rfl rfl rfl rfl (by rw [idle]; rfl) (by rw [idle]; rfl)
  | finish running => exact h.local rfl rfl rfl rfl rfl (by rw [running]; rfl) (by rw [running]; rfl)
  | push at_ => exact h.push at_
  | schedule at_ unscheduled => exact h.schedule unscheduled
  | exchange at_ => exact h.exchange at_
  | submit at_ free => exact h.submit at_ free
  | run at_ back => exact h.run at_ back
  | store at_ => exact h.store at_
  | load at_ | retry at_ changed | skip at_ scheduled | start at_ | drained at_ | last at_ empty
  | again at_ more | «return» at_ =>
      exact h.local rfl rfl rfl rfl rfl (by rw [at_]; rfl) (by rw [at_]; rfl)

theorem reachable_token {s : Strand} (h : (system X).Reachable s) : Token s := by
  refine h.invariant_next (.free rfl (fun _ => rfl) rfl) ?_
  intro s a s' hs hnext
  exact hs.stepped (next_stepped hnext)

/-! ## Every task once -/

/-- The task of a call that has not pushed it. -/
def toPush : Pc → Option Nat
  | .load node | .cas node _ => some node.data
  | _ => none

/-- Every call of `Execute` pushes its task, once. -/
structure Numbered (s : Strand) : Prop where
  nodup : s.pushed.Nodup
  lt : ∀ n ∈ s.pushed, n < s.calls
  covered : ∀ n < s.calls, n ∈ s.pushed ∨ ∃ i, toPush (s.activities i) = some n
  fresh : ∀ i n, toPush (s.activities i) = some n → n < s.calls ∧ n ∉ s.pushed
  distinct : ∀ i j n, toPush (s.activities i) = some n → toPush (s.activities j) = some n → i = j

theorem toPush_update {f : Nat → Pc} {i : Nat} {pc : Pc} (h : toPush pc = toPush (f i)) (j : Nat) :
    toPush (Function.update f i pc j) = toPush (f j) := by
  by_cases hj : j = i
  · subst hj
    rw [Function.update_self, h]
  · rw [Function.update_of_ne hj]

theorem Numbered.congr {s s' : Strand} (h : Numbered s) (hcalls : s'.calls = s.calls)
    (hpushed : s'.pushed = s.pushed)
    (hactivities : ∀ i, toPush (s'.activities i) = toPush (s.activities i)) : Numbered s' := by
  constructor
  · rw [hpushed]
    exact h.nodup
  · rw [hpushed, hcalls]
    exact h.lt
  · simp only [hpushed, hcalls, hactivities]
    exact h.covered
  · simp only [hpushed, hcalls, hactivities]
    exact h.fresh
  · simp only [hactivities]
    exact h.distinct

theorem Numbered.execute {s : Strand} (h : Numbered s) {i addr : Nat} {allocated : List Nat}
    (hi : s.activities i = .idle) :
    Numbered (({ s with allocated, calls := s.calls + 1 } : Strand).goOn i (.load ⟨addr, s.calls⟩)) := by
  have hself : toPush (Function.update s.activities i (.load ⟨addr, s.calls⟩) i) = some s.calls := by
    rw [Function.update_self]
    rfl
  have hothers : ∀ j, j ≠ i →
      toPush (Function.update s.activities i (.load ⟨addr, s.calls⟩) j) = toPush (s.activities j) := by
    intro j hj
    rw [Function.update_of_ne hj]
  constructor
  · exact h.nodup
  · intro n hn
    exact Nat.lt_succ_of_lt (h.lt n hn)
  · intro n hn
    rcases Nat.lt_succ_iff_lt_or_eq.mp hn with hn | rfl
    · refine (h.covered n hn).imp_right ?_
      rintro ⟨j, hj⟩
      refine ⟨j, (hothers j ?_).trans hj⟩
      rintro rfl
      rw [hi] at hj
      cases hj
    · exact .inr ⟨i, hself⟩
  · intro j n hj
    by_cases hji : j = i
    · subst hji
      obtain rfl := Option.some.inj (hself.symm.trans hj)
      exact ⟨Nat.lt_succ_self _, fun hmem => Nat.lt_irrefl _ (h.lt _ hmem)⟩
    · obtain ⟨hlt, hnew⟩ := h.fresh j n ((hothers j hji).symm.trans hj)
      exact ⟨Nat.lt_succ_of_lt hlt, hnew⟩
  · intro j k n hj hk
    by_cases hji : j = i
    · by_cases hki : k = i
      · rw [hji, hki]
      · subst hji
        obtain rfl := Option.some.inj (hself.symm.trans hj)
        exact absurd (h.fresh k _ ((hothers k hki).symm.trans hk)).1 (Nat.lt_irrefl _)
    · by_cases hki : k = i
      · subst hki
        obtain rfl := Option.some.inj (hself.symm.trans hk)
        exact absurd (h.fresh j _ ((hothers j hji).symm.trans hj)).1 (Nat.lt_irrefl _)
      · exact h.distinct j k n ((hothers j hji).symm.trans hj) ((hothers k hki).symm.trans hk)

theorem Numbered.push {s : Strand} (h : Numbered s) {i : Nat} {node : Node} {nxt : Option Nat}
    {stack : List Node} (hi : s.activities i = .cas node nxt) :
    Numbered (({ s with stack_ := stack, pushed := s.pushed ++ [node.data] } : Strand).goOn i
      .schedule) := by
  have hnode : toPush (s.activities i) = some node.data := by
    rw [hi]
    rfl
  obtain ⟨hlt, hnew⟩ := h.fresh i _ hnode
  -- who has a task to push is another call
  have hother : ∀ j n, toPush (Function.update s.activities i .schedule j) = some n →
      j ≠ i ∧ toPush (s.activities j) = some n := by
    intro j n hj
    exact of_update (P := fun a => toPush a = some n) (x := .schedule) nofun hj
  constructor
  · refine List.nodup_append.mpr ⟨h.nodup, List.nodup_singleton _, ?_⟩
    intro n hn m hm
    obtain rfl := List.mem_singleton.mp hm
    rintro rfl
    exact hnew hn
  · intro n hn
    rcases List.mem_append.mp hn with hn | hn
    · exact h.lt n hn
    · rw [List.mem_singleton.mp hn]
      exact hlt
  · intro n hn
    rcases h.covered n hn with hmem | ⟨j, hj⟩
    · exact .inl (List.mem_append_left _ hmem)
    · by_cases hji : j = i
      · subst hji
        obtain rfl := Option.some.inj (hnode.symm.trans hj)
        exact .inl (List.mem_append_right _ (List.mem_singleton_self _))
      · refine .inr ⟨j, ?_⟩
        show toPush (Function.update s.activities i .schedule j) = some n
        rwa [Function.update_of_ne hji]
  · intro j n hj
    obtain ⟨hji, hj⟩ := hother j n hj
    obtain ⟨hlt', hnew'⟩ := h.fresh j n hj
    refine ⟨hlt', ?_⟩
    intro hmem
    rcases List.mem_append.mp hmem with hmem | hmem
    · exact hnew' hmem
    · obtain rfl := List.mem_singleton.mp hmem
      exact hji (h.distinct j i _ hj hnode)
  · intro j k n hj hk
    exact h.distinct j k n (hother j n hj).2 (hother k n hk).2

theorem Numbered.stepped {s s' : Strand} (h : Numbered s) (hs : Stepped s s') : Numbered s' := by
  cases hs with
  | execute idle fresh => exact h.execute idle
  | push at_ => exact h.push at_
  | finish running => exact h.congr rfl rfl (toPush_update (by rw [running]; rfl))
  | @submit i place caller tasks at_ free =>
      have hplace : ∀ j, toPush (Function.update s.activities place (.pending tasks) j) =
          toPush (s.activities j) := toPush_update (by rw [free]; rfl)
      refine h.congr rfl rfl ?_
      intro j
      refine (toPush_update ?_ j).trans (hplace j)
      refine ((hplace i).trans ?_).symm
      rw [at_]
      rfl
  | schedule at_ | exchange at_ | run at_ | store at_ | load at_ | retry at_ | skip at_ | start at_
  | drained at_ | last at_ | again at_ | «return» at_ =>
      exact h.congr rfl rfl (toPush_update (by rw [at_]; rfl))

theorem reachable_numbered {s : Strand} (h : (system X).Reachable s) : Numbered s := by
  refine h.invariant_next ?_ ?_
  · refine ⟨List.nodup_nil, by simp, ?_, ?_, ?_⟩
    · intro n hn
      exact absurd hn (Nat.not_lt_zero n)
    · intro i n hi
      cases hi
    · intro i j n hi
      cases hi
  · intro s a s' hs hnext
    exact hs.stepped (next_stepped hnext)

/-! ## What gets lost -/

/-- The call of `Execute` has not come to its compare-exchange on `is_scheduled_`. -/
def due : Pc → Bool
  | .load _ | .cas _ _ | .schedule => true
  | _ => false

/-- When the step clears `is_scheduled_`, the stack is empty, or some call of `Execute` will still find
    the flag cleared. -/
def ClearsSafely (s s' : Strand) : Prop :=
  s.is_scheduled_ = true → s'.is_scheduled_ = false →
    s.stack_ = [] ∨ ∃ i, due (s.activities i) = true

/-- While nobody is scheduled, a task on the stack has a call that will schedule it. -/
def Attended (s : Strand) : Prop :=
  s.is_scheduled_ = false → s.stack_ = [] ∨ ∃ i, due (s.activities i) = true

theorem due_update {f : Nat → Pc} {i : Nat} {pc : Pc} (hpc : due (f i) = true → due pc = true)
    (h : ∃ j, due (f j) = true) : ∃ j, due (Function.update f i pc j) = true := by
  obtain ⟨j, hj⟩ := h
  by_cases hji : j = i
  · subst hji
    exact ⟨j, by rw [Function.update_self]; exact hpc hj⟩
  · exact ⟨j, by rwa [Function.update_of_ne hji]⟩

theorem Attended.local {s s' : Strand} {i : Nat} {pc : Pc} (h : Attended s)
    (hactivities : s'.activities = Function.update s.activities i pc)
    (hscheduled : s'.is_scheduled_ = s.is_scheduled_) (hstack : s'.stack_ = s.stack_)
    (hdue : due (s.activities i) = true → due pc = true) : Attended s' := by
  intro hs'
  rw [hstack, hactivities]
  exact (h (hscheduled.symm.trans hs')).imp_right (due_update hdue)

/-- **A step that clears safely leaves no task unattended.** -/
theorem Attended.stepped {s s' : Strand} (h : Attended s) (htoken : Token s) (hs : Stepped s s')
    (hclears : ClearsSafely s s') : Attended s' := by
  -- while an activity holds the token, the flag is set
  have hset : ∀ i, holds (s.activities i) = true → s.is_scheduled_ = true :=
    fun i hi => (htoken.scheduled_of_holds hi).1
  cases hs with
  | execute idle fresh => exact h.local rfl rfl rfl (fun _ => rfl)
  | finish running => exact h.local rfl rfl rfl (by rw [running]; intro hdue; cases hdue)
  | load at_ | retry at_ changed => exact h.local rfl rfl rfl (fun _ => rfl)
  | @push i node at_ =>
      intro _
      refine .inr ⟨i, ?_⟩
      show due (Function.update s.activities i .schedule i) = true
      rw [Function.update_self]
      rfl
  | schedule at_ unscheduled =>
      intro hs'
      cases hs'
  | skip at_ scheduled =>
      intro hs'
      exact absurd (scheduled.symm.trans hs') (by simp)
  | exchange at_ | submit at_ free =>
      intro hs'
      have hscheduled := hset _ (by rw [at_]; rfl)
      exact absurd (hscheduled.symm.trans hs') (by simp)
  | start at_ | run at_ | drained at_ | last at_ | again at_ | «return» at_ =>
      exact h.local rfl rfl rfl (by rw [at_]; intro hdue; cases hdue)
  | @store i at_ =>
      intro hs'
      have hscheduled := hset _ (by rw [at_]; rfl)
      refine (hclears hscheduled hs').imp_right (due_update ?_)
      rw [at_]
      intro hdue
      cases hdue

theorem reachable_attended {s : Strand} (h : ((system X).restrict ClearsSafely).Reachable s) :
    Attended s := by
  refine h.invariant_restrict ?_ ?_
  · rintro s rfl
    exact fun _ => .inl rfl
  · rintro s s' hs hattended hclears ⟨a, hnext⟩
    exact hattended.stepped (reachable_token hs) (next_stepped hnext) hclears

end Strand

open Strand

variable {X : Type} {s : Strand}

/-- **A strand is serial and FIFO.** In every run, over any executor: at most one activity holds the token,
    so at most one batch has been submitted and has neither cleared `is_scheduled_` nor submitted the next;
    no two tasks overlap; and the tasks started so far are the first of those pushed, in the order of their
    compare-exchanges, each once. -/
theorem strand_serial_fifo (h : (system X).Reachable s) :
    (∀ i j, holds (s.activities i) = true → holds (s.activities j) = true → i = j) ∧
      (∀ i j t u ts us, s.activities i = .task t ts → s.activities j = .task u us → i = j) ∧
      s.started <+: s.pushed ∧ s.started.Nodup := by
  have htoken := reachable_token h
  have honly : ∀ i j, holds (s.activities i) = true → holds (s.activities j) = true → i = j := by
    intro i j hi hj
    exact (htoken.scheduled_of_holds hj).2.1.eq hi
  have hprefix : s.started <+: s.pushed := by
    cases htoken with
    | free unscheduled none fifo => exact ⟨_, fifo.symm⟩
    | held i scheduled only fifo => exact ⟨_, by rw [fifo, List.append_assoc]⟩
  refine ⟨honly, ?_, hprefix, (reachable_numbered h).nodup.sublist hprefix.sublist⟩
  intro i j t u ts us hi hj
  exact honly i j (by rw [hi]; rfl) (by rw [hj]; rfl)

/-- A second task, pushed while the first runs, has been started by the batch submitted next. -/
theorem strand_serial_fifo_two :
    ∃ s, (system Unit).Reachable s ∧ s.pushed = [0, 1] ∧ s.started = [0, 1] ∧ s.started <+: s.pushed := by
  have hrun : ∃ s, System.run (next (X := Unit)) {} [.execute 0 100, .step 0 0, .step 0 0, .step 0 0,
      .step 0 0, .step 0 1, .step 1 0, .step 1 0, .execute 2 101, .step 2 0, .step 2 0, .finish 1 (.error ()),
      .step 1 0, .step 1 0, .step 1 0, .step 1 3, .step 3 0, .step 3 0] = some s ∧
      s.pushed = [0, 1] ∧ s.started = [0, 1] := ⟨_, rfl, rfl, rfl⟩
  obtain ⟨s, hs, hpushed, hstarted⟩ := hrun
  have h : (system Unit).Reachable s := System.reachable_of_run _ hs
  exact ⟨s, h, hpushed, hstarted, (strand_serial_fifo h).2.2.1⟩

/-- A batch that has been submitted and has not returned. -/
def isBatch : Pc → Bool
  | .pending _ | .loop _ | .task _ _ | .isEmpty | .store => true
  | .exchange .batch | .submit .batch _ | .return .batch => true
  | _ => false

/-- A batch that has submitted the next one is not finished: it has still to return. -/
theorem strand_two_batches :
    ¬ ∀ s, (system Unit).Reachable s →
      ∀ i j, isBatch (s.activities i) = true → isBatch (s.activities j) = true → i = j := by
  intro hclaim
  have hrun : ∃ s, System.run (next (X := Unit)) {} [.execute 0 100, .step 0 0, .step 0 0, .step 0 0,
      .step 0 0, .step 0 1, .step 1 0, .step 1 0, .execute 2 101, .step 2 0, .step 2 0, .finish 1 (.ok ()),
      .step 1 0, .step 1 0, .step 1 0, .step 1 3] = some s ∧
      isBatch (s.activities 1) = true ∧ isBatch (s.activities 3) = true := ⟨_, rfl, rfl, rfl⟩
  obtain ⟨s, hs, hone, hthree⟩ := hrun
  have hone_eq_three := hclaim s (System.reachable_of_run _ hs) 1 3 hone hthree
  cases hone_eq_three

/-- **A strand that clears `is_scheduled_` safely loses no task.** In every run, over any executor, in
    which this condition holds of each step that clears the flag: once no call of `Execute` is in progress
    and no batch is left, the stack is empty, and every task ever passed to `Execute` has been started,
    once. -/
theorem strand_loses_nothing (h : ((system X).restrict ClearsSafely).Reachable s)
    (hidle : ∀ i, s.activities i = .idle) :
    s.stack_ = [] ∧ s.started.Nodup ∧ ∀ n, n ∈ s.started ↔ n < s.calls := by
  have hnumbered := reachable_numbered h.of_restrict
  have hstack : ∀ (_ : s.is_scheduled_ = false), s.stack_ = [] := by
    intro hunscheduled
    refine (reachable_attended h hunscheduled).resolve_right ?_
    rintro ⟨i, hi⟩
    rw [hidle i] at hi
    cases hi
  cases reachable_token h.of_restrict with
  | held i scheduled only fifo =>
      have hholder := only.holder
      rw [hidle i] at hholder
      cases hholder
  | free unscheduled none fifo =>
      have hempty := hstack unscheduled
      have hstarted : s.pushed = s.started := by
        rw [fifo, waiting, hempty]
        exact List.append_nil _
      rw [← hstarted]
      refine ⟨hempty, hnumbered.nodup, ?_⟩
      intro n
      constructor
      · exact hnumbered.lt n
      · intro hn
        refine (hnumbered.covered n hn).resolve_right ?_
        rintro ⟨i, hi⟩
        rw [hidle i] at hi
        cases hi

/-- Two calls: the second pushes while the batch of the first runs, and that batch submits the next one, which clears
    the flag over an empty stack. -/
theorem strand_loses_nothing_two :
    ∃ s, ((system Unit).restrict ClearsSafely).Reachable s ∧ s.calls = 2 ∧ s.stack_ = [] ∧
      0 ∈ s.started ∧ 1 ∈ s.started := by
  have hrun : ∃ s, System.runIf (fun s s' => s.stack_.isEmpty || s'.is_scheduled_ || !s.is_scheduled_)
      (next (X := Unit)) {} [.execute 0 100, .step 0 0, .step 0 0, .step 0 0, .step 0 0, .step 0 1, .step 0 0,
        .step 1 0, .step 1 0, .execute 0 101, .step 0 0, .step 0 0, .step 0 0, .step 0 0, .finish 1 (.ok ()),
        .step 1 0, .step 1 0, .step 1 0, .step 1 2, .step 1 0, .step 2 0, .step 2 0, .finish 2 (.error ()),
        .step 2 0, .step 2 0, .step 2 0, .step 2 0] = some s ∧ s.calls = 2 ∧ ∀ i, s.activities i = .idle := by
    refine ⟨_, rfl, rfl, ?_⟩
    intro i
    match i with
    | 0 => rfl
    | 1 => rfl
    | 2 => rfl
    | i + 3 => rfl
  obtain ⟨s, hs, hcalls, hidle⟩ := hrun
  have h : ((system Unit).restrict ClearsSafely).Reachable s := by
    refine ⟨{}, rfl, System.steps_of_runIf ?_ hs⟩
    intro s s' hok hset hcleared
    rw [hset, hcleared] at hok
    exact .inl (by simpa using hok)
  obtain ⟨hstack, -, hstarted⟩ := strand_loses_nothing h hidle
  exact ⟨s, h, hcalls, hstack, (hstarted 0).mpr (by omega), (hstarted 1).mpr (by omega)⟩

/-- The batch finds the stack empty; a call pushes, and finds the flag set; the batch clears the flag. The
    task stays on the stack, and nobody is left to start it. -/
theorem strand_loses_task :
    ¬ ∀ s, (system Unit).Reachable s → (∀ i, s.activities i = .idle) → s.stack_ = [] := by
  intro hclaim
  have hrun : ∃ s, System.run (next (X := Unit)) {} [.execute 0 100, .step 0 0, .step 0 0, .step 0 0,
      .step 0 0, .step 0 1, .step 0 0, .step 1 0, .step 1 0, .finish 1 (.ok ()), .step 1 0, .step 1 0,
      .execute 0 101, .step 0 0, .step 0 0, .step 0 0, .step 0 0, .step 1 0, .step 1 0] = some s ∧
      s.stack_ = [⟨101, 1⟩] ∧ ∀ i, s.activities i = .idle := by
    refine ⟨_, rfl, rfl, ?_⟩
    intro i
    match i with
    | 0 => rfl
    | 1 => rfl
    | i + 2 => rfl
  obtain ⟨s, hs, hstack, hidle⟩ := hrun
  rw [hclaim s (System.reachable_of_run _ hs) hidle] at hstack
  cases hstack

end Executors
end Tpcc
