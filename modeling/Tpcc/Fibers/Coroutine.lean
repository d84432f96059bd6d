import Tpcc.Transition.History
import Tpcc.Transition.System

/-!
# `Fibers.Coroutine` — stackful coroutines on one thread

`Coroutine::Resume`, `Suspend` and `Trampoline`, each cut in two by its context switch. `SwitchTo` saves what
runs and continues what the other context holds; a context that has been continued holds nothing until
something is saved there again, so a switch to it is stuck.

Code runs on a stack: the thread's own, or that of a coroutine, under `Trampoline`. What it does between two
calls of this class is not modelled; at any moment it may resume a coroutine, suspend, return or throw.

## Contents
- **The class.** `resume`, `suspend`, `finish` up to the switch, and `proceed` after it.
- **The runs.** `State`, with a log of what the code did and of how each `Resume` ended.
- **Its purpose.** `chain` reads off the log which coroutines run inside which; `Allowed` says how a `Resume`
  may end.
- **Results.** `stack_discipline`.
-/

namespace Tpcc
namespace Fibers

open Transition

/-- What a stack does next. -/
inductive Frame (ι κ : Type) where
  /-- Code outside this class. -/
  | code
  /-- `Trampoline`, from its beginning. -/
  | start
  /-- `Resume` of `this`, after its switch. `call` is a mark of this call. -/
  | resume (this : ι) (call : κ)
  /-- `Suspend`, after its switch. -/
  | suspend (co : ι)
  /-- `Trampoline`, after its last switch. -/
  | unreachable

/-- A stack with what it does next: that of a coroutine, or the thread's own, and the variable `co` of the
    `Trampoline` at its bottom. -/
structure ExecutionContext (ι κ : Type) where
  stack : Option ι
  co : Option ι
  frame : Frame ι κ

structure Coroutine (ι κ ε : Type) where
  routine_context_ : Option (ExecutionContext ι κ)
  caller_context_ : Option (ExecutionContext ι κ) := none
  exception_ptr_ : Option ε := none
  parent_ : Option ι := none
  completed_ : Bool := false

/-- `thread_local current_coroutine`, and what the thread runs. -/
structure Thread (ι κ : Type) where
  current_coroutine : Option ι := none
  running : ExecutionContext ι κ := ⟨none, none, .code⟩

variable {ι κ ε : Type} [DecidableEq ι]

namespace Coroutine

/-- The constructor, with a stack of its own. -/
def create (this : ι) : Coroutine ι κ ε where
  routine_context_ := some ⟨some this, none, .start⟩

/-- `Resume`, up to its switch. -/
def resume (coroutines : ι → Coroutine ι κ ε) (th : Thread ι κ) (this : ι) (call : κ) :
    Option ((ι → Coroutine ι κ ε) × Thread ι κ) :=
  (coroutines this).routine_context_.map fun routine_context_ =>
    (Function.update coroutines this { coroutines this with
        parent_ := th.current_coroutine
        caller_context_ := some { th.running with frame := .resume this call }
        routine_context_ := none },
      { current_coroutine := some this, running := routine_context_ })

/-- `Suspend`, up to its switch. -/
def suspend (coroutines : ι → Coroutine ι κ ε) (th : Thread ι κ) :
    Option ((ι → Coroutine ι κ ε) × Thread ι κ) :=
  th.current_coroutine.bind fun co =>
    (coroutines co).caller_context_.map fun caller_context_ =>
      (Function.update coroutines co { coroutines co with
          routine_context_ := some { th.running with frame := .suspend co }
          caller_context_ := none },
        { current_coroutine := (coroutines co).parent_, running := caller_context_ })

/-- `Trampoline`, once the routine has returned or thrown, up to its switch. -/
def finish (coroutines : ι → Coroutine ι κ ε) (th : Thread ι κ) (exception : Option ε) :
    Option ((ι → Coroutine ι κ ε) × Thread ι κ) :=
  th.running.co.bind fun co =>
    (coroutines co).caller_context_.map fun caller_context_ =>
      (Function.update coroutines co { coroutines co with
          exception_ptr_ := exception.or (coroutines co).exception_ptr_
          completed_ := true
          routine_context_ := some { th.running with frame := .unreachable }
          caller_context_ := none },
        { th with running := caller_context_ })

/-- What comes after a switch, up to the code outside. -/
def proceed (coroutines : ι → Coroutine ι κ ε) (th : Thread ι κ) : Option (Thread ι κ) :=
  match th.running.frame with
  | .start => th.current_coroutine.map fun co => { th with running := { th.running with co := some co, frame := .code } }
  | .suspend co => some { current_coroutine := some co, running := { th.running with frame := .code } }
  | .resume this _ =>
      some { current_coroutine := (coroutines this).parent_, running := { th.running with frame := .code } }
  | .code => none
  | .unreachable => none

/-- A coroutine that is being run, `caller` below it, `parent` its parent. -/
def running (caller : ExecutionContext ι κ) (parent : Option ι) : Coroutine ι κ ε where
  routine_context_ := none
  caller_context_ := some caller
  parent_ := parent

theorem suspend_of_running {coroutines : ι → Coroutine ι κ ε} {c : ι} {caller : ExecutionContext ι κ} {parent : Option ι}
    (h : coroutines c = running caller parent) :
    suspend coroutines ⟨some c, some c, some c, .code⟩ =
      some (Function.update coroutines c
        { routine_context_ := some ⟨some c, some c, .suspend c⟩, parent_ := parent },
          { current_coroutine := parent, running := caller }) := by
  simp only [suspend, Option.bind_some, h, running, Option.map_some]

theorem finish_of_running {coroutines : ι → Coroutine ι κ ε} {c : ι} {caller : ExecutionContext ι κ} {parent : Option ι}
    (h : coroutines c = running caller parent) (exception : Option ε) :
    finish coroutines ⟨some c, some c, some c, .code⟩ exception =
      some (Function.update coroutines c
        { routine_context_ := some ⟨some c, some c, .unreachable⟩, exception_ptr_ := exception, parent_ := parent
          completed_ := true },
          { current_coroutine := some c, running := caller }) := by
  simp only [finish, Option.bind_some, h, running, Option.map_some, Option.or_none]

end Coroutine

/-- What happens on the thread: the code calls `Resume` of `c`, with `current_coroutine` as given; the routine of
    `c` calls `Suspend`, or returns or throws; the call of `Resume` that is entry `call` of the log ends, normally
    or with the exception it rethrows, and leaves `current_coroutine`. -/
inductive Event (ι ε : Type) where
  | resume (c : ι) (current_coroutine : Option ι)
  | suspend (c : ι)
  | finish (c : ι) (exception : Option ε)
  | back (call : Nat) (c : ι) (exception : Option ε) (current_coroutine : Option ι)

/-- The coroutines, the thread, and what has happened. -/
structure State (ι ε : Type) where
  coroutines : ι → Coroutine ι Nat ε := Coroutine.create
  thread : Thread ι Nat := {}
  log : List (Event ι ε) := []

/-- What the code does, or what comes after a switch. -/
inductive Action (ι ε : Type) where
  | resume (c : ι)
  | suspend
  | finish (exception : Option ε)
  | proceed

/-- The `Resume` that ends now, if one does. -/
def ended (s : State ι ε) (current_coroutine : Option ι) : List (Event ι ε) :=
  match s.thread.running.frame with
  | .resume c call => [.back call c (s.coroutines c).exception_ptr_ current_coroutine]
  | _ => []

def next (s : State ι ε) : Action ι ε → Option (State ι ε)
  | .resume c =>
      match s.thread.running.frame with
      | .code =>
          (Coroutine.resume s.coroutines s.thread c s.log.length).map fun p =>
            { coroutines := p.1, thread := p.2, log := s.log ++ [.resume c s.thread.current_coroutine] }
      | _ => none
  | .suspend =>
      match s.thread.running.frame, s.thread.running.stack with
      | .code, some c =>
          (Coroutine.suspend s.coroutines s.thread).map fun p =>
            { coroutines := p.1, thread := p.2, log := s.log ++ [.suspend c] }
      | _, _ => none
  | .finish exception =>
      match s.thread.running.frame, s.thread.running.stack with
      | .code, some c =>
          (Coroutine.finish s.coroutines s.thread exception).map fun p =>
            { coroutines := p.1, thread := p.2, log := s.log ++ [.finish c exception] }
      | _, _ => none
  | .proceed =>
      (Coroutine.proceed s.coroutines s.thread).map fun th =>
        { s with thread := th, log := s.log ++ ended s th.current_coroutine }

/-! ## What the log says -/

/-- The coroutines that have been resumed and have not suspended since, the innermost first. One that has finished
    goes when its last `Resume` ends. -/
def chainStep (chain : List ι) : Event ι ε → List ι
  | .resume c _ => c :: chain
  | .suspend c => chain.erase c
  | .finish .. => chain
  | .back _ c _ _ => chain.erase c

def chain (log : List (Event ι ε)) : List ι := log.foldl chainStep []

/-- A coroutine is resumed only if it is neither completed nor on the chain. -/
def resumable (s : State ι ε) : Action ι ε → Bool
  | .resume c => !(s.coroutines c).completed_ && !decide (c ∈ chain s.log)
  | _ => true

/-- All such runs of the coroutines `ι` on one thread, with exceptions `ε`. -/
def system (ι ε : Type) [DecidableEq ι] : System (State ι ε) :=
  System.ofNextIf {} next fun s a => resumable s a = true

/-- The coroutine that gives control back, and the exception that leaves its routine. -/
def Event.yields : Event ι ε → Option (ι × Option ε)
  | .suspend c => some (c, none)
  | .finish c exception => some (c, exception)
  | .resume .. => none
  | .back .. => none

/-- Entry `call` of the log is the last `Resume` of `c`, which found this `current_coroutine`. -/
def LastResume (log : List (Event ι ε)) (c : ι) (call : Nat) (current_coroutine : Option ι) : Prop :=
  ∃ pre post, log = pre ++ .resume c current_coroutine :: post ∧ pre.length = call ∧
    ∀ current, .resume c current ∉ post

/-- **What a coroutine is for**, in terms of the log: when it gives control back, the last `Resume` of it ends,
    with the exception that left the routine, and `current_coroutine` is what it was before the call; and
    no `Resume` ends otherwise. -/
def Allowed (pre : List (Event ι ε)) : Event ι ε → Prop
  | .back call c exception current_coroutine =>
      ∃ pre' e, pre = pre' ++ [e] ∧ e.yields = some (c, exception) ∧ LastResume pre' c call current_coroutine
  | _ => ∀ e ∈ pre.getLast?, e.yields = none

/-- Following `parent_` from a coroutine lists these. -/
inductive Links (coroutines : ι → Coroutine ι κ ε) : Option ι → List ι → Prop where
  | nil : Links coroutines none []
  | cons {c : ι} {cs : List ι} (h : Links coroutines (coroutines c).parent_ cs) : Links coroutines (some c) (c :: cs)

/-! ## The log grows -/

section Log

variable {log : List (Event ι ε)} {e : Event ι ε} {c : ι} {call : Nat} {current : Option ι}

theorem chain_snoc : chain (log ++ [e]) = chainStep (chain log) e := by
  unfold chain
  rw [List.foldl_append]
  rfl

/-- The coroutine that has finished, while its last `Resume` has not ended. -/
def finishing (log : List (Event ι ε)) : List ι :=
  match log.getLast? with
  | some (.finish c _) => [c]
  | _ => []

omit [DecidableEq ι] in
theorem finishing_snoc (log : List (Event ι ε)) (e : Event ι ε) :
    finishing (log ++ [e]) = match e with | .finish c _ => [c] | _ => [] := by
  unfold finishing
  rw [List.getLast?_concat]
  cases e <;> rfl

omit [DecidableEq ι] in
theorem finishing_of_quiet (hquiet : ∀ e ∈ log.getLast?, e.yields = none) : finishing log = [] := by
  unfold finishing
  split
  · next c exception hlast => cases hquiet _ hlast
  · rfl

omit [DecidableEq ι] in
theorem lastResume_snoc : LastResume (log ++ [.resume c current]) c log.length current :=
  ⟨log, [], rfl, rfl, fun _ h => nomatch h⟩

omit [DecidableEq ι] in
/-- What is not a `Resume` of `c` leaves its last one the last. -/
theorem LastResume.snoc (h : LastResume log c call current) (he : ∀ current', e ≠ .resume c current') :
    LastResume (log ++ [e]) c call current := by
  obtain ⟨pre, post, rfl, hlength, hpost⟩ := h
  refine ⟨pre, post ++ [e], by rw [List.append_assoc]; rfl, hlength, fun current' hmem => ?_⟩
  rcases List.mem_append.mp hmem with hmem | hmem
  · exact hpost current' hmem
  · exact he current' (List.mem_singleton.mp hmem).symm

end Log

/-! ## The invariant -/

/-- The innermost of the calls in progress, each a coroutine with the number of its `Resume`. -/
def top (calls : List (ι × Nat)) : Option ι := (calls.map Prod.fst).head?

/-- The calls of `Resume` in progress, the innermost first: each has saved its stack, which is that of the coroutine
    that is next in the list, and is the last of its coroutine. -/
inductive Open (coroutines : ι → Coroutine ι Nat ε) (log : List (Event ι ε)) : List (ι × Nat) → Prop where
  | nil : Open coroutines log []
  | cons {c : ι} {call : Nat} {calls : List (ι × Nat)} (rest : Open coroutines log calls)
      (coroutine : coroutines c = .running ⟨top calls, top calls, .resume c call⟩ (top calls))
      (last : LastResume log c call (top calls)) : Open coroutines log ((c, call) :: calls)

/-- A coroutine that is not being run. -/
inductive Closed (c : ι) (co : Coroutine ι κ ε) : Prop where
  | fresh (context : co.routine_context_ = some ⟨some c, none, .start⟩) (exception : co.exception_ptr_ = none)
      (completed : co.completed_ = false)
  | suspended (context : co.routine_context_ = some ⟨some c, some c, .suspend c⟩) (exception : co.exception_ptr_ = none)
      (completed : co.completed_ = false)
  | completed (completed : co.completed_ = true)

/-- **A coroutine that is not completed can be resumed.** -/
theorem Closed.resume {coroutines : ι → Coroutine ι κ ε} {c : ι} (h : Closed c (coroutines c))
    (hcompleted : (coroutines c).completed_ = false) (th : Thread ι κ) (call : κ) :
    ∃ context, (context = ⟨some c, none, .start⟩ ∨ context = ⟨some c, some c, .suspend c⟩) ∧
      Coroutine.resume coroutines th c call =
        some (Function.update coroutines c
          (.running { th.running with frame := .resume c call } th.current_coroutine), ⟨some c, context⟩) := by
  cases h with
  | fresh context exception _ =>
      -- its first `Resume` goes to `Trampoline`
      refine ⟨_, .inl rfl, ?_⟩
      simp only [Coroutine.resume, context, Option.map_some, exception, hcompleted, Coroutine.running]
  | suspended context exception _ =>
      refine ⟨_, .inr rfl, ?_⟩
      simp only [Coroutine.resume, context, Option.map_some, exception, hcompleted, Coroutine.running]
  | completed completed =>
      rw [hcompleted] at completed
      cases completed

/-- What the thread runs, when these calls are in progress. -/
inductive Running (s : State ι ε) (calls : List (ι × Nat)) : Prop where
  | code (thread : s.thread = ⟨top calls, top calls, top calls, .code⟩)
      (quiet : ∀ e ∈ s.log.getLast?, e.yields = none)
  | start (c : ι) (innermost : top calls = some c) (thread : s.thread = ⟨some c, some c, none, .start⟩)
      (quiet : ∀ e ∈ s.log.getLast?, e.yields = none)
  | suspend (c : ι) (innermost : top calls = some c) (thread : s.thread = ⟨some c, some c, some c, .suspend c⟩)
      (quiet : ∀ e ∈ s.log.getLast?, e.yields = none)
  /-- The coroutine `c` has just given control back. -/
  | back (c : ι) (call : Nat) (running : s.thread.running = ⟨top calls, top calls, .resume c call⟩)
      (current : s.thread.current_coroutine = (chain s.log).head?) (out : c ∉ calls.map Prod.fst)
      (parent : (s.coroutines c).parent_ = top calls)
      (yielded : ∃ pre e, s.log = pre ++ [e] ∧ e.yields = some (c, (s.coroutines c).exception_ptr_) ∧
        LastResume pre c call (top calls))

structure InvAt (s : State ι ε) (calls : List (ι × Nat)) : Prop where
  opened : Open s.coroutines s.log calls
  nodup : (calls.map Prod.fst).Nodup
  chain : chain s.log = finishing s.log ++ calls.map Prod.fst
  closed : ∀ c, c ∉ calls.map Prod.fst → Closed c (s.coroutines c)
  running : Running s calls
  explained : Explained Allowed s.log
  completed : ∀ c, (s.coroutines c).completed_ = true ↔ ∃ exception, .finish c exception ∈ s.log

theorem inv_init : InvAt ({} : State ι ε) [] where
  opened := .nil
  nodup := List.nodup_nil
  chain := rfl
  closed c _ := .fresh rfl rfl rfl
  running := .code rfl nofun
  explained := explained_nil
  completed c := by simp [Coroutine.create]

/-- A step on a coroutine that is not being run, and an event that is no `Resume` of one that is. -/
theorem Open.update {coroutines : ι → Coroutine ι Nat ε} {log : List (Event ι ε)} {calls : List (ι × Nat)}
    (h : Open coroutines log calls) {c : ι} (hc : c ∉ calls.map Prod.fst) (co : Coroutine ι Nat ε) {e : Event ι ε}
    (he : ∀ c' ∈ calls.map Prod.fst, ∀ current, e ≠ .resume c' current) :
    Open (Function.update coroutines c co) (log ++ [e]) calls := by
  induction h with
  | nil => exact .nil
  | @cons c' call calls rest coroutine last ih =>
      rw [List.map_cons, List.mem_cons, not_or] at hc
      refine .cons (ih hc.2 fun c'' hmem => he c'' (List.mem_cons_of_mem _ hmem)) ?_ ?_
      · rw [Function.update_of_ne (Ne.symm hc.1)]
        exact coroutine
      · exact last.snoc (he c' List.mem_cons_self)

omit [DecidableEq ι] in
/-- The same, where no coroutine changes. -/
theorem Open.snoc {coroutines : ι → Coroutine ι Nat ε} {log : List (Event ι ε)} {calls : List (ι × Nat)}
    (h : Open coroutines log calls) {e : Event ι ε} (he : ∀ c current, e ≠ .resume c current) :
    Open coroutines (log ++ [e]) calls := by
  induction h with
  | nil => exact .nil
  | @cons c call calls rest coroutine last ih => exact .cons ih coroutine (last.snoc (he c))

omit [DecidableEq ι] in
/-- Following `parent_` lists the calls in progress. -/
theorem Open.links {coroutines : ι → Coroutine ι Nat ε} {log : List (Event ι ε)} {calls : List (ι × Nat)}
    (h : Open coroutines log calls) : Links coroutines (top calls) (calls.map Prod.fst) := by
  induction h with
  | nil => exact .nil
  | @cons c call calls rest coroutine last ih =>
      apply Links.cons
      rw [coroutine]
      exact ih

/-! ## The steps -/

theorem Running.of_code {s : State ι ε} {calls : List (ι × Nat)} (h : Running s calls)
    (hframe : s.thread.running.frame = .code) :
    s.thread = ⟨top calls, top calls, top calls, .code⟩ ∧ ∀ e ∈ s.log.getLast?, e.yields = none := by
  cases h with
  | code thread quiet => exact ⟨thread, quiet⟩
  | start c _ thread | suspend c _ thread =>
      rw [thread] at hframe
      cases hframe
  | back c call running =>
      rw [running] at hframe
      cases hframe

omit [DecidableEq ι] in
/-- The innermost call. -/
theorem exists_of_top {calls : List (ι × Nat)} {c : ι} (h : top calls = some c) :
    ∃ call rest, calls = (c, call) :: rest := by
  cases calls with
  | nil => cases h
  | cons x rest =>
      obtain rfl := Option.some.inj h
      exact ⟨x.2, rest, rfl⟩

omit [DecidableEq ι] in
theorem finish_mem_snoc {log : List (Event ι ε)} {e : Event ι ε} {c : ι} (he : ∀ exception, e ≠ .finish c exception) :
    (∃ exception, .finish c exception ∈ log ++ [e]) ↔ ∃ exception, .finish c exception ∈ log := by
  apply exists_congr
  intro exception
  rw [List.mem_append, List.mem_singleton, or_iff_left (Ne.symm (he exception))]

omit [DecidableEq ι] in
theorem quiet_snoc {log : List (Event ι ε)} {e : Event ι ε} (he : e.yields = none) :
    ∀ e' ∈ (log ++ [e]).getLast?, e'.yields = none := by
  intro e' hmem
  rw [List.getLast?_concat] at hmem
  obtain rfl := Option.some.inj hmem
  exact he

/-- A coroutine that is not being run is resumed. -/
theorem InvAt.resume {s : State ι ε} {calls : List (ι × Nat)} (h : InvAt s calls) {c : ι}
    {context : ExecutionContext ι Nat} (hthread : s.thread = ⟨top calls, top calls, top calls, .code⟩)
    (hquiet : ∀ e ∈ s.log.getLast?, e.yields = none) (hc : c ∉ calls.map Prod.fst)
    (hcompleted : (s.coroutines c).completed_ = false)
    (hkind : context = ⟨some c, none, .start⟩ ∨ context = ⟨some c, some c, .suspend c⟩) :
    InvAt
      { coroutines := Function.update s.coroutines c
          (.running { s.thread.running with frame := .resume c s.log.length } s.thread.current_coroutine)
        thread := ⟨some c, context⟩
        log := s.log ++ [.resume c s.thread.current_coroutine] }
      ((c, s.log.length) :: calls) := by
  have hcurrent : s.thread.current_coroutine = top calls := by rw [hthread]
  constructor
  · refine .cons (h.opened.update hc _ ?_) ?_ ?_
    · rintro c' hmem current heq
      cases heq
      exact hc hmem
    · show Function.update s.coroutines c _ c = _
      rw [Function.update_self, hthread]
    · rw [hcurrent]
      exact lastResume_snoc
  · exact List.nodup_cons.mpr ⟨hc, h.nodup⟩
  · show Fibers.chain (s.log ++ [_]) = finishing (s.log ++ [_]) ++ _
    rw [chain_snoc, h.chain, finishing_of_quiet hquiet, finishing_snoc]
    rfl
  · intro c' hc'
    rw [List.map_cons, List.mem_cons, not_or] at hc'
    show Closed c' (Function.update s.coroutines c _ c')
    rw [Function.update_of_ne hc'.1]
    exact h.closed c' hc'.2
  · rcases hkind with rfl | rfl
    · exact .start c rfl rfl (quiet_snoc rfl)
    · exact .suspend c rfl rfl (quiet_snoc rfl)
  · exact h.explained.snoc hquiet
  · intro c'
    show (Function.update s.coroutines c _ c').completed_ = true ↔ ∃ exception, .finish c' exception ∈ s.log ++ [_]
    rw [finish_mem_snoc (e := .resume c s.thread.current_coroutine) nofun, ← h.completed c']
    by_cases hc' : c' = c
    · rw [hc', Function.update_self, hcompleted]
      rfl
    · rw [Function.update_of_ne hc']

/-- The innermost coroutine gives control back. -/
theorem InvAt.yield {s : State ι ε} {calls : List (ι × Nat)} {c : ι} {call : Nat} (h : InvAt s ((c, call) :: calls))
    (hquiet : ∀ e ∈ s.log.getLast?, e.yields = none) {co : Coroutine ι Nat ε} {th : Thread ι Nat} {e : Event ι ε}
    (hparent : co.parent_ = top calls) (hclosed : Closed c co) (hyields : e.yields = some (c, co.exception_ptr_))
    (hcompleted : co.completed_ = true ↔ ∃ exception, e = .finish c exception)
    (hcurrent : th.current_coroutine = (chainStep (c :: calls.map Prod.fst) e).head?)
    (hrunning : th.running = ⟨top calls, top calls, .resume c call⟩) :
    InvAt { coroutines := Function.update s.coroutines c co, thread := th, log := s.log ++ [e] } calls := by
  obtain ⟨hnot, hnodup⟩ := List.nodup_cons.mp h.nodup
  have hresume : ∀ c' current, e ≠ .resume c' current := by
    rintro c' current rfl
    cases hyields
  -- `e` says that `c` gives control back, and nothing of any other coroutine
  have hof : (e = .suspend c ∨ ∃ exception, e = .finish c exception) := by
    cases e with
    | resume | back => cases hyields
    | suspend c' =>
        obtain ⟨rfl, -⟩ := Prod.mk.inj (Option.some.inj hyields)
        exact .inl rfl
    | finish c' exception =>
        obtain ⟨rfl, -⟩ := Prod.mk.inj (Option.some.inj hyields)
        exact .inr ⟨exception, rfl⟩
  have hchain : Fibers.chain s.log = c :: calls.map Prod.fst := by
    rw [h.chain, finishing_of_quiet hquiet]
    rfl
  cases h.opened with
  | cons rest coroutine last =>
      constructor
      · exact rest.update hnot co fun c' _ => hresume c'
      · exact hnodup
      · show Fibers.chain (s.log ++ [e]) = finishing (s.log ++ [e]) ++ _
        rw [chain_snoc, hchain, finishing_snoc]
        rcases hof with rfl | ⟨exception, rfl⟩
        · exact List.erase_cons_head ..
        · rfl
      · intro c' hc'
        show Closed c' (Function.update s.coroutines c co c')
        by_cases hcc : c' = c
        · subst hcc
          rwa [Function.update_self]
        · rw [Function.update_of_ne hcc]
          apply h.closed c'
          rw [List.map_cons, List.mem_cons, not_or]
          exact ⟨hcc, hc'⟩
      · refine .back c call hrunning ?_ hnot ?_ ⟨s.log, e, rfl, ?_, last⟩
        · show th.current_coroutine = (Fibers.chain (s.log ++ [e])).head?
          rw [chain_snoc, hchain, hcurrent]
        · show (Function.update s.coroutines c co c).parent_ = _
          rw [Function.update_self, hparent]
        · show e.yields = some (c, (Function.update s.coroutines c co c).exception_ptr_)
          rw [Function.update_self, hyields]
      · refine h.explained.snoc ?_
        rcases hof with rfl | ⟨exception, rfl⟩ <;> exact hquiet
      · intro c'
        show (Function.update s.coroutines c co c').completed_ = true ↔ ∃ exception, .finish c' exception ∈ s.log ++ [e]
        by_cases hcc : c' = c
        · -- it was being run, so it had not finished
          subst hcc
          have hbefore : ¬ ∃ exception, .finish c' exception ∈ s.log := by
            rw [← h.completed c', coroutine]
            exact Bool.false_ne_true
          rw [Function.update_self, hcompleted]
          apply exists_congr
          intro exception
          rw [List.mem_append, List.mem_singleton, or_iff_right fun hmem => hbefore ⟨exception, hmem⟩, eq_comm]
        · rw [Function.update_of_ne hcc, h.completed c', finish_mem_snoc]
          rintro exception rfl
          rcases hof with heq | ⟨_, heq⟩ <;> cases heq
          exact hcc rfl

theorem InvAt.next_resume {s s' : State ι ε} {calls : List (ι × Nat)} {c : ι} (h : InvAt s calls)
    (hok : resumable s (.resume c) = true) (hnext : next s (.resume c) = some s') : ∃ calls', InvAt s' calls' := by
  simp only [next] at hnext
  split at hnext
  · next hframe =>
      obtain ⟨p, hp, rfl⟩ := Option.map_eq_some_iff.mp hnext
      obtain ⟨hthread, hquiet⟩ := h.running.of_code hframe
      simp only [resumable, Bool.and_eq_true, Bool.not_eq_true', decide_eq_false_iff_not, h.chain,
        finishing_of_quiet hquiet, List.nil_append] at hok
      obtain ⟨context, hkind, hresume⟩ := (h.closed c hok.2).resume hok.1 s.thread s.log.length
      obtain rfl := Option.some.inj (hresume.symm.trans hp)
      exact ⟨_, h.resume hthread hquiet hok.2 hok.1 hkind⟩
  · cases hnext

/-- Code on the stack of a coroutine: it is the innermost. -/
theorem InvAt.exists_running {s : State ι ε} {calls : List (ι × Nat)} {c : ι} (h : InvAt s calls)
    (hframe : s.thread.running.frame = .code) (hstack : s.thread.running.stack = some c) :
    ∃ call rest, calls = (c, call) :: rest ∧ s.thread = ⟨some c, some c, some c, .code⟩ ∧
      s.coroutines c = .running ⟨top rest, top rest, .resume c call⟩ (top rest) := by
  have hthread := (h.running.of_code hframe).1
  rw [hthread] at hstack
  obtain ⟨call, rest, rfl⟩ := exists_of_top hstack
  cases h.opened with
  | cons _ coroutine _ => exact ⟨call, rest, rfl, hthread, coroutine⟩

theorem InvAt.next_suspend {s s' : State ι ε} {calls : List (ι × Nat)} (h : InvAt s calls)
    (hnext : next s .suspend = some s') : ∃ calls', InvAt s' calls' := by
  simp only [next] at hnext
  split at hnext
  · next c hframe hstack =>
      obtain ⟨p, hp, rfl⟩ := Option.map_eq_some_iff.mp hnext
      have hquiet := (h.running.of_code hframe).2
      obtain ⟨call, rest, rfl, hthread, hrunning⟩ := h.exists_running hframe hstack
      rw [hthread, Coroutine.suspend_of_running hrunning] at hp
      obtain rfl := Option.some.inj hp
      have hcurrent : top rest = (chainStep (c :: rest.map Prod.fst) (.suspend c : Event ι ε)).head? := by
        rw [chainStep, List.erase_cons_head]
        rfl
      exact ⟨rest, h.yield hquiet rfl (.suspended rfl rfl rfl) rfl (iff_of_false Bool.false_ne_true nofun) hcurrent rfl⟩
  · cases hnext

theorem InvAt.next_finish {s s' : State ι ε} {calls : List (ι × Nat)} {exception : Option ε} (h : InvAt s calls)
    (hnext : next s (.finish exception) = some s') : ∃ calls', InvAt s' calls' := by
  simp only [next] at hnext
  split at hnext
  · next c hframe hstack =>
      obtain ⟨p, hp, rfl⟩ := Option.map_eq_some_iff.mp hnext
      have hquiet := (h.running.of_code hframe).2
      obtain ⟨call, rest, rfl, hthread, hrunning⟩ := h.exists_running hframe hstack
      rw [hthread, Coroutine.finish_of_running hrunning] at hp
      obtain rfl := Option.some.inj hp
      exact ⟨rest, h.yield hquiet rfl (.completed rfl) rfl (iff_of_true rfl ⟨exception, rfl⟩) rfl rfl⟩
  · cases hnext

omit [DecidableEq ι] in
theorem ended_of_frame {s : State ι ε} {current : Option ι} (h : ∀ c call, s.thread.running.frame ≠ .resume c call) :
    ended s current = [] := by
  unfold ended
  split
  · next c call hframe => exact absurd hframe (h c call)
  · rfl

/-- The code goes on, and no `Resume` ends. -/
theorem InvAt.code {s : State ι ε} {calls : List (ι × Nat)} (h : InvAt s calls)
    (hquiet : ∀ e ∈ s.log.getLast?, e.yields = none) :
    InvAt { s with thread := ⟨top calls, top calls, top calls, .code⟩ } calls :=
  ⟨h.opened, h.nodup, h.chain, h.closed, .code rfl hquiet, h.explained, h.completed⟩

/-- The last event gives control back from `c`: it is not on the chain, or it is its first element. -/
theorem erase_finishing {log pre : List (Event ι ε)} {e : Event ι ε} {c : ι} {exception : Option ε} {cs : List ι}
    (hlog : log = pre ++ [e]) (hyields : e.yields = some (c, exception)) (hout : c ∉ cs) :
    (finishing log ++ cs).erase c = cs := by
  rw [hlog, finishing_snoc]
  cases e with
  | resume | back => cases hyields
  | suspend c' => exact List.erase_of_not_mem hout
  | finish c' exception' =>
      obtain ⟨rfl, -⟩ := Prod.mk.inj (Option.some.inj hyields)
      exact List.erase_cons_head ..

/-- **A `Resume` ends**: the one that the coroutine gives control back to. -/
theorem InvAt.back {s : State ι ε} {calls : List (ι × Nat)} (h : InvAt s calls) {c : ι} {call : Nat}
    (hout : c ∉ calls.map Prod.fst) (hyielded : ∃ pre e, s.log = pre ++ [e] ∧
      e.yields = some (c, (s.coroutines c).exception_ptr_) ∧ LastResume pre c call (top calls)) :
    InvAt { s with
      thread := ⟨top calls, top calls, top calls, .code⟩
      log := s.log ++ [.back call c (s.coroutines c).exception_ptr_ (top calls)] } calls where
  opened := h.opened.snoc nofun
  nodup := h.nodup
  chain := by
    obtain ⟨pre, e, hlog, hyields, -⟩ := hyielded
    show Fibers.chain (s.log ++ [_]) = finishing (s.log ++ [_]) ++ _
    rw [chain_snoc, finishing_snoc, h.chain]
    exact erase_finishing hlog hyields hout
  closed := h.closed
  running := .code rfl (quiet_snoc rfl)
  explained := h.explained.snoc hyielded
  completed c' := by
    show (s.coroutines c').completed_ = true ↔ ∃ exception, .finish c' exception ∈ s.log ++ [_]
    rw [finish_mem_snoc (e := .back call c _ _) nofun, h.completed c']

/-- What comes after a switch. -/
theorem InvAt.next_proceed {s s' : State ι ε} {calls : List (ι × Nat)} (h : InvAt s calls)
    (hnext : next s .proceed = some s') : InvAt s' calls := by
  obtain ⟨th, hth, rfl⟩ := Option.map_eq_some_iff.mp hnext
  cases h.running with
  | code thread quiet =>
      -- no switch has just happened
      rw [thread] at hth
      cases hth
  | start c innermost thread quiet =>
      -- `Trampoline` finds its coroutine in `current_coroutine`
      rw [thread] at hth
      obtain rfl : ⟨some c, some c, some c, .code⟩ = th := Option.some.inj hth
      rw [ended_of_frame (by rw [thread]; exact nofun), List.append_nil, ← innermost]
      exact h.code quiet
  | suspend c innermost thread quiet =>
      rw [thread] at hth
      obtain rfl : ⟨some c, some c, some c, .code⟩ = th := Option.some.inj hth
      rw [ended_of_frame (by rw [thread]; exact nofun), List.append_nil, ← innermost]
      exact h.code quiet
  | back c call running current out parent yielded =>
      -- `current_coroutine` is the parent of `c`, as before the call
      simp only [Coroutine.proceed, running] at hth
      obtain rfl := Option.some.inj hth
      have hended : ended s (top calls) = [.back call c (s.coroutines c).exception_ptr_ (top calls)] := by
        unfold ended
        rw [running]
      rw [parent, hended]
      exact h.back out yielded

theorem reachable_inv {s : State ι ε} (h : (system ι ε).Reachable s) : ∃ calls, InvAt s calls := by
  refine h.invariant (P := fun s => ∃ calls, InvAt s calls) ?_ ?_
  · rintro s rfl
    exact ⟨[], inv_init⟩
  · rintro s s' ⟨calls, hinv⟩ ⟨a, hok, hnext⟩
    cases a with
    | resume c => exact hinv.next_resume hok hnext
    | suspend => exact hinv.next_suspend hnext
    | finish exception => exact hinv.next_finish hnext
    | proceed => exact ⟨calls, hinv.next_proceed hnext⟩

/-! ## No switch is stuck -/

/-- What can happen now: any of the four while code runs, the last two only on the stack of a coroutine; else what
    comes after the switch. -/
def Possible (s : State ι ε) : Action ι ε → Prop
  | .resume c => s.thread.running.frame = .code ∧ resumable s (.resume c) = true
  | .suspend => s.thread.running.frame = .code ∧ s.thread.running.stack ≠ none
  | .finish _ => s.thread.running.frame = .code ∧ s.thread.running.stack ≠ none
  | .proceed => s.thread.running.frame ≠ .code

theorem InvAt.exists_next {s : State ι ε} {calls : List (ι × Nat)} (h : InvAt s calls) {a : Action ι ε}
    (ha : Possible s a) : ∃ s', next s a = some s' := by
  cases a with
  | resume c =>
      obtain ⟨hframe, hok⟩ := ha
      simp only [resumable, Bool.and_eq_true, Bool.not_eq_true', decide_eq_false_iff_not, h.chain,
        finishing_of_quiet (h.running.of_code hframe).2, List.nil_append] at hok
      obtain ⟨context, -, hresume⟩ := (h.closed c hok.2).resume hok.1 s.thread s.log.length
      simp only [next, hframe, hresume]
      exact ⟨_, rfl⟩
  | suspend =>
      obtain ⟨hframe, hstack⟩ := ha
      obtain ⟨c, hc⟩ := Option.ne_none_iff_exists'.mp hstack
      obtain ⟨call, rest, -, hthread, hrunning⟩ := h.exists_running hframe hc
      simp only [next, hthread, Coroutine.suspend_of_running hrunning]
      exact ⟨_, rfl⟩
  | finish exception =>
      obtain ⟨hframe, hstack⟩ := ha
      obtain ⟨c, hc⟩ := Option.ne_none_iff_exists'.mp hstack
      obtain ⟨call, rest, -, hthread, hrunning⟩ := h.exists_running hframe hc
      simp only [next, hthread, Coroutine.finish_of_running hrunning]
      exact ⟨_, rfl⟩
  | proceed =>
      simp only [next, Coroutine.proceed]
      cases h.running with
      | code thread =>
          rw [Possible, thread] at ha
          exact absurd rfl ha
      | start c _ thread | suspend c _ thread =>
          rw [thread]
          exact ⟨_, rfl⟩
      | back c call running =>
          rw [running]
          exact ⟨_, rfl⟩

/-- A coroutine has finished, and control is back in its last `Resume`, which has yet to set `current_coroutine`. -/
def State.Finishing (s : State ι ε) : Prop :=
  ∃ c call, s.thread.running.frame = .resume c call ∧ s.thread.current_coroutine = some c ∧
    (s.coroutines c).completed_ = true ∧ (s.coroutines c).parent_ = s.thread.running.stack

/-- Where `current_coroutine` is, when a coroutine has given control back. -/
theorem InvAt.current_back {s : State ι ε} {calls : List (ι × Nat)} (h : InvAt s calls) {c : ι} {call : Nat}
    (hrunning : s.thread.running = ⟨top calls, top calls, .resume c call⟩)
    (hcurrent : s.thread.current_coroutine = (Fibers.chain s.log).head?)
    (hparent : (s.coroutines c).parent_ = top calls) {pre : List (Event ι ε)} {e : Event ι ε} {exception : Option ε}
    (hlog : s.log = pre ++ [e]) (hyields : e.yields = some (c, exception)) :
    (s.thread.running.stack = s.thread.current_coroutine ∨ s.Finishing) ∧
      Links s.coroutines s.thread.current_coroutine (Fibers.chain s.log) := by
  have hlinks := h.opened.links
  have hchain := h.chain
  rw [hcurrent, hrunning]
  cases e with
  | resume | back => cases hyields
  | suspend c' =>
      rw [hlog, finishing_snoc, ← hlog, List.nil_append] at hchain
      rw [hchain]
      exact ⟨.inl rfl, hlinks⟩
  | finish c' exception' =>
      obtain ⟨rfl, -⟩ := Prod.mk.inj (Option.some.inj hyields)
      rw [hlog, finishing_snoc, ← hlog] at hchain
      rw [hchain]
      refine ⟨.inr ⟨c', call, by rw [hrunning], by rw [hcurrent, hchain]; rfl, ?_, by rw [hrunning, hparent]⟩, ?_⟩
      · rw [h.completed c', hlog]
        exact ⟨exception', List.mem_append_right _ (List.mem_singleton_self _)⟩
      · apply Links.cons
        rw [hparent]
        exact hlinks

/-- **Coroutines nest like calls.** In every reachable state following `parent_` from `current_coroutine` lists the chain
    of coroutines that run inside each other; what runs is on the stack of `current_coroutine`, or in the last `Resume`
    of one that has finished; when a coroutine suspends, returns or throws, the `Resume` that ends is the last one of
    that coroutine, with its exception, and `current_coroutine` is then what it was before; a coroutine is completed
    exactly if its routine has returned or thrown; and whatever the code does, its switch finds a context to
    continue. -/
theorem stack_discipline {s : State ι ε} (h : (system ι ε).Reachable s) :
    ((s.thread.running.stack = s.thread.current_coroutine ∨ s.Finishing) ∧
        Links s.coroutines s.thread.current_coroutine (chain s.log)) ∧
      (∀ pre e post, s.log = pre ++ e :: post → Allowed pre e) ∧
      (∀ c, (s.coroutines c).completed_ = true ↔ ∃ exception, .finish c exception ∈ s.log) ∧
      (∀ a, Possible s a → ∃ s', next s a = some s') := by
  obtain ⟨calls, hinv⟩ := reachable_inv h
  refine ⟨?_, hinv.explained, hinv.completed, fun a ha => hinv.exists_next ha⟩
  have hlinks := hinv.opened.links
  cases hinv.running with
  | code thread quiet =>
      rw [thread, hinv.chain, finishing_of_quiet quiet]
      exact ⟨.inl rfl, hlinks⟩
  | start c innermost thread quiet | suspend c innermost thread quiet =>
      rw [thread, hinv.chain, finishing_of_quiet quiet, ← innermost]
      exact ⟨.inl rfl, hlinks⟩
  | back c call running current out parent yielded =>
      obtain ⟨pre, e, hlog, hyields, -⟩ := yielded
      exact hinv.current_back running current parent hlog hyields

/-- Coroutine 0 resumes coroutine 1, which throws; the code of coroutine 0 lets the exception through. -/
theorem stack_discipline_throw : ∃ s : State Nat String, (system Nat String).Reachable s ∧
    s.log.getLast? = some (.back 0 0 (some "e") none) ∧ ∀ pre e post, s.log = pre ++ e :: post → Allowed pre e := by
  have hrun : ∃ s, System.runWhile resumable next ({} : State Nat String)
      [.resume 0, .proceed, .resume 1, .proceed, .finish (some "e"), .proceed, .finish (some "e"), .proceed] = some s ∧
        s.log.getLast? = some (.back 0 0 (some "e") none) := ⟨_, rfl, rfl⟩
  obtain ⟨s, hs, hlast⟩ := hrun
  have h : (system Nat String).Reachable s := ⟨_, rfl, System.steps_of_runWhile (fun _ _ hok => hok) hs⟩
  exact ⟨s, h, hlast, (stack_discipline h).2.1⟩

end Fibers
end Tpcc
