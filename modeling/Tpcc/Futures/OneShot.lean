import Mathlib.Data.List.Perm.Basic
import Tpcc.Transition.System
import Tpcc.Futures.SharedState

/-!
# `Futures.OneShot` — one fulfilment against one consumption, atomic operation by atomic operation

A fresh `SharedState` with its one promise and its one future. The *producer* thread fulfils the
promise; the *consumer* thread makes some `Via` calls and then consumes the future: `Subscribe`,
`GetResult`, or `IsReady` polled until it answers true and then `GetReadyResult`. Each atomic operation
on `state_`, and each access to the unprotected members around it, is one step (`Pc`).

`Joint` lists the five phases the pair goes through, named after `state_` and after who takes the
result; `Joint.next` shows that every step stays inside it, and the delivery theorem reads it off.
-/

namespace Tpcc
namespace Futures

open Transition

/-- How the future is consumed once its `Via` calls are done. -/
inductive Consumption (κ : Type) where
  | subscribe (callback : κ)
  | getResult
  | getReadyResult
  deriving DecidableEq

/-- What the caller of `GetReadyResult` does with the result it gets. -/
inductive Use (κ : Type) where
  | execute (callback : κ)
  | hand
  deriving DecidableEq

/-- The next operation of a thread. -/
inductive Pc (V E κ ι : Type) where
  -- `Promise::SetValue` / `SetError` / `Set`, and `SetResult`
  | fulfil (f : Fulfilment V E)
  | emplaceResult (r : Result V E)
  | casOnlyResult
  | notifyOne
  | verifyOnlyCallback (expected : SubscriptionState)
  -- `Future::Via`, `Subscribe`, and `PassCallback`
  | future (vias : List (Option ι)) (c : Consumption κ)
  | hasResult (callback : κ)
  | storeCallback (callback : κ)
  | casOnlyCallback
  | verifyOnlyResult (expected : SubscriptionState)
  -- `BlockForResult`, and the polling loop
  | wait
  | asleep
  | isReady
  | releaseReady
  -- `GetReadyResult` and `Execute`, on either side
  | storeDone (u : Use κ)
  | moveResult (u : Use κ)
  | execute (callback : κ) (r : Result V E)
  | returned (r : Option (Result V E))
  | failed (v : Violation)

/-- What both threads see. `tasks` are the tasks handed to executors and not yet run, `called` the calls
    of callbacks made so far. -/
structure Core (V E κ ι : Type) where
  shared : SharedState κ (Result V E) ι := {}
  promiseHeld : Bool := true
  futureHeld : Bool := true
  sleeping : Bool := false
  tasks : List (ι × κ × Result V E) := []
  called : List (κ × Result V E) := []

structure OneShot (V E κ ι : Type) where
  core : Core V E κ ι
  producer : Pc V E κ ι
  consumer : Pc V E κ ι

variable {V E κ ι : Type}

/-! ## The steps -/

namespace Core

def setState (m : Core V E κ ι) (st : SubscriptionState) : Core V E κ ι :=
  { m with shared := { m.shared with state := st } }

/-- `callback_.value()`, the first argument of both losing calls of `Execute`. -/
def callbackValue (m : Core V E κ ι) : Pc V E κ ι :=
  match m.shared.callback with
  | some cb => .storeDone (.execute cb)
  | none => .failed .emptyOptional

/-- `Execute`: call the callback, or hand it to the executor together with the result. -/
def execute (m : Core V E κ ι) (cb : κ) (r : Result V E) : Core V E κ ι :=
  match m.shared.executor with
  | none => { m with called := m.called ++ [(cb, r)] }
  | some e => { m with tasks := m.tasks ++ [(e, cb, r)] }

/-- `ReleaseState` of the future, then `pc`. -/
def releaseFuture (m : Core V E κ ι) (pc : Pc V E κ ι) : Core V E κ ι × Pc V E κ ι :=
  if m.futureHeld then ({ m with futureHeld := false }, pc) else (m, .failed .noSharedState)

end Core

/-- One step of a thread. `none`: it is blocked, or has nothing left to do. -/
def Pc.exec (m : Core V E κ ι) : Pc V E κ ι → Option (Core V E κ ι × Pc V E κ ι)
  | .fulfil f =>
      if m.promiseHeld then some ({ m with promiseHeld := false }, .emplaceResult f.result)
      else some (m, .failed .noSharedState)
  | .emplaceResult r => some ({ m with shared := { m.shared with result := .full r } }, .casOnlyResult)
  | .casOnlyResult =>
      if m.shared.state = .start then some (m.setState .onlyResult, .notifyOne)
      else some (m, .verifyOnlyCallback m.shared.state)
  | .notifyOne => some ({ m with sleeping := false }, .returned none)
  | .verifyOnlyCallback expected =>
      if expected = .onlyCallback then some (m, m.callbackValue)
      else some (m, .failed .expectedOnlyCallback)
  | .future (e :: es) c => some ({ m with shared := m.shared.setExecutor e }, .future es c)
  | .future [] (.subscribe cb) => some (m.releaseFuture (.hasResult cb))
  | .future [] .getResult => some (m.releaseFuture .wait)
  | .future [] .getReadyResult => some (m, .isReady)
  | .hasResult cb =>
      if m.shared.hasResult then some (m, .storeDone (.execute cb)) else some (m, .storeCallback cb)
  | .storeCallback cb =>
      some ({ m with shared := { m.shared with callback := some cb } }, .casOnlyCallback)
  | .casOnlyCallback =>
      if m.shared.state = .start then some (m.setState .onlyCallback, .returned none)
      else some (m, .verifyOnlyResult m.shared.state)
  | .verifyOnlyResult expected =>
      if expected = .onlyResult then some (m, m.callbackValue)
      else some (m, .failed .expectedOnlyResult)
  | .wait =>
      if m.shared.state = .start then some ({ m with sleeping := true }, .asleep)
      else some (m, .storeDone .hand)
  | .asleep => if m.sleeping then none else some (m, .wait)
  | .isReady =>
      if m.futureHeld then
        if m.shared.hasResult then some (m, .releaseReady) else some (m, .isReady)
      else some (m, .failed .noSharedState)
  | .releaseReady => some (m.releaseFuture (.storeDone .hand))
  | .storeDone u => some (m.setState .done, .moveResult u)
  | .moveResult u =>
      match m.shared.result with
      | .full r =>
          some ({ m with shared := { m.shared with result := .moved } },
            match u with | .execute cb => .execute cb r | .hand => .returned (some r))
      | .empty => some (m, .failed .emptyOptional)
      | .moved => some (m, .failed .movedFrom)
  | .execute cb r => some (m.execute cb r, .returned none)
  | .returned _ => none
  | .failed _ => none

/-- Who takes the next step. `wakeup` is a spurious wakeup of the sleeping consumer; `worker i` is an
    executor running its `i`-th pending task. -/
inductive Actor where
  | producer
  | consumer
  | wakeup
  | worker (i : Nat)
  deriving DecidableEq

namespace OneShot

def next (s : OneShot V E κ ι) : Actor → Option (OneShot V E κ ι)
  | .producer => (s.producer.exec s.core).map fun (m, pc) => { s with core := m, producer := pc }
  | .consumer => (s.consumer.exec s.core).map fun (m, pc) => { s with core := m, consumer := pc }
  | .wakeup => if s.core.sleeping then some { s with core := { s.core with sleeping := false } } else none
  | .worker i =>
      s.core.tasks[i]?.map fun (_, cb, r) =>
        { s with core := { s.core with tasks := s.core.tasks.eraseIdx i
                                       called := s.core.called ++ [(cb, r)] } }

/-- The fresh pair: `f` will fulfil the promise, `vias` and `c` will consume the future. -/
def fresh (f : Fulfilment V E) (vias : List (Option ι)) (c : Consumption κ) : OneShot V E κ ι :=
  ⟨{}, .fulfil f, .future vias c⟩

/-- Every interleaving of the two calls and the executors. -/
def system (f : Fulfilment V E) (vias : List (Option ι)) (c : Consumption κ) : System (OneShot V E κ ι) :=
  System.ofNext (fresh f vias c) next

/-! ## What has been handed over -/

/-- The results handed to callbacks: in a task of an executor, or called already. -/
def executed (m : Core V E κ ι) : List (Option κ × Result V E) :=
  m.tasks.map (fun t => (some t.2.1, t.2.2)) ++ m.called.map (fun c => (some c.1, c.2))

/-- The result a call returned to its caller. -/
def ofReturned : Pc V E κ ι → List (Option κ × Result V E)
  | .returned (some r) => [(none, r)]
  | _ => []

/-- Every result that left the shared state, with the callback it went to or with `none` where it was
    returned. -/
def handed (s : OneShot V E κ ι) : List (Option κ × Result V E) :=
  executed s.core ++ ofReturned s.producer ++ ofReturned s.consumer

/-- An executor that runs a task hands over nothing new. -/
theorem executed_worker {s s' : OneShot V E κ ι} {i : Nat} (h : s.next (.worker i) = some s') :
    (executed s'.core).Perm (executed s.core) := by
  obtain ⟨⟨e, cb, r⟩, ht, rfl⟩ := Option.map_eq_some_iff.mp h
  obtain ⟨hi, ht⟩ := List.getElem?_eq_some_iff.mp ht
  have hperm : s.core.tasks.Perm (s.core.tasks[i] :: s.core.tasks.eraseIdx i) :=
    (List.getElem_cons_eraseIdx_perm hi).symm
  have hmap := hperm.map (fun t : ι × κ × Result V E => (some t.2.1, t.2.2))
  rw [ht, List.map_cons] at hmap
  simp only [executed, List.map_append, ← List.append_assoc]
  exact (List.perm_append_singleton _ _).trans (hmap.symm.append_right _)

/-- `Execute` hands over exactly the result it is given. -/
theorem executed_execute {m : Core V E κ ι} (h : executed m = []) (cb : κ) (r : Result V E) :
    executed (m.execute cb r) = [(some cb, r)] := by
  obtain ⟨ht, hc⟩ : m.tasks = [] ∧ m.called = [] := by simpa [executed] using h
  unfold executed Core.execute
  cases m.shared.executor <;> simp [ht, hc]

/-! ## The phases of the pair -/

/-- What a consumption does with the result. -/
def use : Consumption κ → Use κ
  | .subscribe cb => .execute cb
  | _ => .hand

/-- Who a consumption hands the result to: a callback, or the caller. -/
def receiver : Consumption κ → Option κ
  | .subscribe cb => some cb
  | _ => none

/-- The producer has not tried its compare-exchange yet. -/
inductive Promising (f : Fulfilment V E) (m : Core V E κ ι) : Pc V E κ ι → Prop where
  | fulfil (held : m.promiseHeld = true) : Promising f m (.fulfil f)
  | emplaceResult : Promising f m (.emplaceResult f.result)
  | cas (full : m.shared.result = .full f.result) : Promising f m .casOnlyResult

/-- The producer has published the result. -/
inductive Published : Pc V E κ ι → Prop where
  | notifyOne : Published .notifyOne
  | returned : Published (.returned none)

/-- The consumer has not tried its compare-exchange, and seen no result, yet. -/
inductive Waiting (c : Consumption κ) (m : Core V E κ ι) : Pc V E κ ι → Prop where
  | future {es : List (Option ι)} (held : m.futureHeld = true) : Waiting c m (.future es c)
  | hasResult {cb : κ} (hc : c = .subscribe cb) : Waiting c m (.hasResult cb)
  | storeCallback {cb : κ} (hc : c = .subscribe cb) : Waiting c m (.storeCallback cb)
  | cas {cb : κ} (hc : c = .subscribe cb) (stored : m.shared.callback = some cb) :
      Waiting c m .casOnlyCallback
  | wait (hc : use c = .hand) : Waiting c m .wait
  | asleep (hc : use c = .hand) : Waiting c m .asleep
  | isReady (hc : use c = .hand) (held : m.futureHeld = true) : Waiting c m .isReady

/-- The consumer knows that the result is there, and has not stored `Done` yet. -/
inductive Claiming (c : Consumption κ) (m : Core V E κ ι) : Pc V E κ ι → Prop where
  | verify {cb : κ} (hc : c = .subscribe cb) (stored : m.shared.callback = some cb) :
      Claiming c m (.verifyOnlyResult .onlyResult)
  | releaseReady (hc : use c = .hand) (held : m.futureHeld = true) : Claiming c m .releaseReady
  | storeDone : Claiming c m (.storeDone (use c))

/-- The producer has found the callback, and has not stored `Done` yet. -/
inductive Answering (c : Consumption κ) : Pc V E κ ι → Prop where
  | verify : Answering c (.verifyOnlyCallback .onlyCallback)
  | storeDone : Answering c (.storeDone (use c))

/-- The one thread that stored `Done`, on its way to hand the result over. -/
inductive Taking (f : Fulfilment V E) (c : Consumption κ) (m : Core V E κ ι) : Pc V E κ ι → Prop where
  | move (full : m.shared.result = .full f.result) (empty : executed m = []) :
      Taking f c m (.moveResult (use c))
  | execute {cb : κ} (hc : c = .subscribe cb) (empty : executed m = []) :
      Taking f c m (.execute cb f.result)
  | returned {o : Option (Result V E)}
      (one : executed m ++ ofReturned (.returned o : Pc V E κ ι) = [(receiver c, f.result)]) :
      Taking f c m (.returned o)

/-- The phases of the pair. -/
inductive Joint (f : Fulfilment V E) (c : Consumption κ) : OneShot V E κ ι → Prop where
  | start {m : Core V E κ ι} {p q : Pc V E κ ι} (state : m.shared.state = .start)
      (producer : Promising f m p) (consumer : Waiting c m q) (empty : executed m = []) :
      Joint f c ⟨m, p, q⟩
  | onlyResult {m : Core V E κ ι} {p q : Pc V E κ ι} (state : m.shared.state = .onlyResult)
      (full : m.shared.result = .full f.result) (producer : Published p)
      (consumer : Waiting c m q ∨ Claiming c m q) (empty : executed m = []) : Joint f c ⟨m, p, q⟩
  | onlyCallback {m : Core V E κ ι} {p : Pc V E κ ι} {cb : κ} (hc : c = .subscribe cb)
      (state : m.shared.state = .onlyCallback) (stored : m.shared.callback = some cb)
      (producer : Promising f m p ∨ (Answering c p ∧ m.shared.result = .full f.result))
      (empty : executed m = []) : Joint f c ⟨m, p, .returned none⟩
  | consumerTakes {m : Core V E κ ι} {p q : Pc V E κ ι} (producer : Published p)
      (consumer : Taking f c m q) : Joint f c ⟨m, p, q⟩
  | producerTakes {m : Core V E κ ι} {p : Pc V E κ ι} (producer : Taking f c m p) :
      Joint f c ⟨m, p, .returned none⟩

theorem joint_fresh (f : Fulfilment V E) (vias : List (Option ι)) (c : Consumption κ) :
    Joint f c (fresh f vias c) :=
  .start rfl (.fulfil rfl) (.future rfl) rfl

/-! ## Each step stays in the phases -/

theorem Promising.congr {f : Fulfilment V E} {m m' : Core V E κ ι} {p : Pc V E κ ι}
    (h : Promising f m p) (hheld : m'.promiseHeld = m.promiseHeld)
    (hres : m'.shared.result = m.shared.result) : Promising f m' p := by
  cases h with
  | fulfil held => exact .fulfil (hheld.trans held)
  | emplaceResult => exact .emplaceResult
  | cas full => exact .cas (hres.trans full)

theorem Waiting.congr {c : Consumption κ} {m m' : Core V E κ ι} {q : Pc V E κ ι}
    (h : Waiting c m q) (hheld : m'.futureHeld = m.futureHeld)
    (hcb : m'.shared.callback = m.shared.callback) : Waiting c m' q := by
  cases h with
  | future held => exact .future (hheld.trans held)
  | hasResult hc => exact .hasResult hc
  | storeCallback hc => exact .storeCallback hc
  | cas hc stored => exact .cas hc (hcb.trans stored)
  | wait hc => exact .wait hc
  | asleep hc => exact .asleep hc
  | isReady hc held => exact .isReady hc (hheld.trans held)

theorem Claiming.congr {c : Consumption κ} {m m' : Core V E κ ι} {q : Pc V E κ ι}
    (h : Claiming c m q) (hheld : m'.futureHeld = m.futureHeld)
    (hcb : m'.shared.callback = m.shared.callback) : Claiming c m' q := by
  cases h with
  | verify hc stored => exact .verify hc (hcb.trans stored)
  | releaseReady hc held => exact .releaseReady hc (hheld.trans held)
  | storeDone => exact .storeDone

theorem Taking.congr {f : Fulfilment V E} {c : Consumption κ} {m m' : Core V E κ ι}
    {p : Pc V E κ ι} (h : Taking f c m p) (hres : m'.shared.result = m.shared.result)
    (hlog : executed m' = executed m) : Taking f c m' p := by
  cases h with
  | move full empty => exact .move (hres.trans full) (hlog.trans empty)
  | execute hc empty => exact .execute hc (hlog.trans empty)
  | returned one => exact .returned (hlog ▸ one)

/-- **The taker's step.** It moves the result out, and calls the callback, submits it, or returns. -/
theorem Taking.exec {f : Fulfilment V E} {c : Consumption κ} {m m' : Core V E κ ι}
    {p p' : Pc V E κ ι} (h : Taking f c m p) (he : p.exec m = some (m', p')) : Taking f c m' p' := by
  cases h with
  | move full empty =>
      simp only [Pc.exec, full, Option.some.injEq, Prod.mk.injEq] at he
      obtain ⟨rfl, rfl⟩ := he
      have empty' : executed { m with shared := { m.shared with result := .moved } } = [] := empty
      cases c with
      | subscribe cb => exact .execute rfl empty'
      | getResult => exact .returned (by rw [empty']; rfl)
      | getReadyResult => exact .returned (by rw [empty']; rfl)
  | @execute cb hc empty =>
      simp only [Pc.exec, Option.some.injEq, Prod.mk.injEq] at he
      obtain ⟨rfl, rfl⟩ := he
      exact .returned (by rw [executed_execute empty, hc]; rfl)
  | returned => simp [Pc.exec] at he

theorem use_execute {c : Consumption κ} {cb : κ} (hc : c = .subscribe cb) : Use.execute cb = use c := by
  rw [hc]
  rfl

/-- A step of the producer. -/
theorem Joint.producer_step {f : Fulfilment V E} {c : Consumption κ} {m m' : Core V E κ ι}
    {p p' q : Pc V E κ ι} (hj : Joint f c ⟨m, p, q⟩) (he : p.exec m = some (m', p')) :
    Joint f c ⟨m', p', q⟩ := by
  cases hj with
  | start state producer consumer empty =>
      cases producer with
      | fulfil held =>
          simp only [Pc.exec, held, if_true, Option.some.injEq, Prod.mk.injEq] at he
          obtain ⟨rfl, rfl⟩ := he
          exact .start state .emplaceResult (consumer.congr rfl rfl) empty
      | emplaceResult =>
          simp only [Pc.exec, Option.some.injEq, Prod.mk.injEq] at he
          obtain ⟨rfl, rfl⟩ := he
          exact .start state (.cas rfl) (consumer.congr rfl rfl) empty
      | cas full =>
          -- the compare-exchange wins
          simp only [Pc.exec, state, if_true, Option.some.injEq, Prod.mk.injEq] at he
          obtain ⟨rfl, rfl⟩ := he
          exact .onlyResult rfl full .notifyOne (.inl (consumer.congr rfl rfl)) empty
  | onlyResult state full producer consumer empty =>
      cases producer with
      | notifyOne =>
          simp only [Pc.exec, Option.some.injEq, Prod.mk.injEq] at he
          obtain ⟨rfl, rfl⟩ := he
          exact .onlyResult state full .returned
            (consumer.imp (·.congr rfl rfl) (·.congr rfl rfl)) empty
      | returned => simp [Pc.exec] at he
  | @onlyCallback _ _ cb hc state stored producer empty =>
      rcases producer with producer | ⟨producer, full⟩
      · cases producer with
        | fulfil held =>
            simp only [Pc.exec, held, if_true, Option.some.injEq, Prod.mk.injEq] at he
            obtain ⟨rfl, rfl⟩ := he
            exact .onlyCallback hc state stored (.inl .emplaceResult) empty
        | emplaceResult =>
            simp only [Pc.exec, Option.some.injEq, Prod.mk.injEq] at he
            obtain ⟨rfl, rfl⟩ := he
            exact .onlyCallback hc state stored (.inl (.cas rfl)) empty
        | cas full =>
            -- the compare-exchange loses against the stored callback
            simp only [Pc.exec, state, reduceCtorEq, if_false, Option.some.injEq, Prod.mk.injEq] at he
            obtain ⟨rfl, rfl⟩ := he
            exact .onlyCallback hc state stored (.inr ⟨.verify, full⟩) empty
      · cases producer with
        | verify =>
            simp only [Pc.exec, if_true, Core.callbackValue, stored, Option.some.injEq,
              Prod.mk.injEq] at he
            obtain ⟨rfl, rfl⟩ := he
            refine .onlyCallback hc state stored (.inr ⟨?_, full⟩) empty
            rw [use_execute hc]
            exact .storeDone
        | storeDone =>
            simp only [Pc.exec, Option.some.injEq, Prod.mk.injEq] at he
            obtain ⟨rfl, rfl⟩ := he
            exact .producerTakes (.move full empty)
  | consumerTakes producer consumer =>
      cases producer with
      | notifyOne =>
          simp only [Pc.exec, Option.some.injEq, Prod.mk.injEq] at he
          obtain ⟨rfl, rfl⟩ := he
          exact .consumerTakes .returned (consumer.congr rfl rfl)
      | returned => simp [Pc.exec] at he
  | producerTakes producer => exact .producerTakes (producer.exec he)

/-- What the producer has done while the consumer waits: the phase is `Start`, or the result is there. -/
inductive Awaited (f : Fulfilment V E) (m : Core V E κ ι) (p : Pc V E κ ι) : Prop where
  | start (state : m.shared.state = .start) (producer : Promising f m p) : Awaited f m p
  | onlyResult (state : m.shared.state = .onlyResult) (full : m.shared.result = .full f.result)
      (producer : Published p) : Awaited f m p

/-- The consumer waits on, and leaves the phase alone. -/
theorem Awaited.waits {f : Fulfilment V E} {c : Consumption κ} {m m' : Core V E κ ι} {p q : Pc V E κ ι}
    (h : Awaited f m p) (hq : Waiting c m' q) (empty : executed m' = [])
    (hstate : m'.shared.state = m.shared.state) (hres : m'.shared.result = m.shared.result)
    (hheld : m'.promiseHeld = m.promiseHeld) : Joint f c ⟨m', p, q⟩ := by
  cases h with
  | start state producer => exact .start (hstate.trans state) (producer.congr hheld hres) hq empty
  | onlyResult state full producer =>
      exact .onlyResult (hstate.trans state) (hres.trans full) producer (.inl hq) empty

/-- The consumer finds the result. -/
theorem Awaited.claims {f : Fulfilment V E} {c : Consumption κ} {m : Core V E κ ι} {p q : Pc V E κ ι}
    (h : Awaited f m p) (hq : Claiming c m q) (empty : executed m = []) (hne : m.shared.state ≠ .start) :
    Joint f c ⟨m, p, q⟩ := by
  cases h with
  | start state producer => exact absurd state hne
  | onlyResult state full producer => exact .onlyResult state full producer (.inr hq) empty

theorem SharedState.ne_start_of_hasResult {s : SharedState V E κ} (h : s.hasResult = true) : s.state ≠ .start := by
  intro hstart
  simp [SharedState.hasResult, hstart] at h

/-- A step of the consumer while it waits. -/
theorem Waiting.exec {f : Fulfilment V E} {c : Consumption κ} {m m' : Core V E κ ι}
    {p q q' : Pc V E κ ι} (hq : Waiting c m q) (empty : executed m = []) (hp : Awaited f m p)
    (he : q.exec m = some (m', q')) : Joint f c ⟨m', p, q'⟩ := by
  cases hq with
  | @future es held =>
      cases es with
      | cons e es =>
          simp only [Pc.exec, Option.some.injEq, Prod.mk.injEq] at he
          obtain ⟨rfl, rfl⟩ := he
          exact hp.waits (.future held) empty rfl rfl rfl
      | nil =>
          cases c with
          | subscribe cb =>
              simp only [Pc.exec, Core.releaseFuture, held, if_true, Option.some.injEq,
                Prod.mk.injEq] at he
              obtain ⟨rfl, rfl⟩ := he
              exact hp.waits (.hasResult rfl) empty rfl rfl rfl
          | getResult =>
              simp only [Pc.exec, Core.releaseFuture, held, if_true, Option.some.injEq,
                Prod.mk.injEq] at he
              obtain ⟨rfl, rfl⟩ := he
              exact hp.waits (.wait rfl) empty rfl rfl rfl
          | getReadyResult =>
              simp only [Pc.exec, Option.some.injEq, Prod.mk.injEq] at he
              obtain ⟨rfl, rfl⟩ := he
              exact hp.waits (.isReady rfl held) empty rfl rfl rfl
  | @hasResult cb hc =>
      simp only [Pc.exec] at he
      split at he
      · next hres =>
          simp only [Option.some.injEq, Prod.mk.injEq] at he
          obtain ⟨rfl, rfl⟩ := he
          refine hp.claims ?_ empty (SharedState.ne_start_of_hasResult hres)
          rw [use_execute hc]
          exact .storeDone
      · simp only [Option.some.injEq, Prod.mk.injEq] at he
        obtain ⟨rfl, rfl⟩ := he
        exact hp.waits (.storeCallback hc) empty rfl rfl rfl
  | storeCallback hc =>
      simp only [Pc.exec, Option.some.injEq, Prod.mk.injEq] at he
      obtain ⟨rfl, rfl⟩ := he
      exact hp.waits (.cas hc rfl) empty rfl rfl rfl
  | cas hc stored =>
      cases hp with
      | start state producer =>
          -- the compare-exchange wins
          simp only [Pc.exec, state, if_true, Option.some.injEq, Prod.mk.injEq] at he
          obtain ⟨rfl, rfl⟩ := he
          exact .onlyCallback hc rfl stored (.inl (producer.congr rfl rfl)) empty
      | onlyResult state full producer =>
          -- the compare-exchange loses against the stored result
          simp only [Pc.exec, state, reduceCtorEq, if_false, Option.some.injEq, Prod.mk.injEq] at he
          obtain ⟨rfl, rfl⟩ := he
          exact .onlyResult state full producer (.inr (.verify hc stored)) empty
  | wait hc =>
      simp only [Pc.exec] at he
      split at he
      · simp only [Option.some.injEq, Prod.mk.injEq] at he
        obtain ⟨rfl, rfl⟩ := he
        exact hp.waits (.asleep hc) empty rfl rfl rfl
      · next hne =>
          simp only [Option.some.injEq, Prod.mk.injEq] at he
          obtain ⟨rfl, rfl⟩ := he
          refine hp.claims ?_ empty hne
          rw [← hc]
          exact .storeDone
  | asleep hc =>
      simp only [Pc.exec] at he
      split at he
      · cases he
      · simp only [Option.some.injEq, Prod.mk.injEq] at he
        obtain ⟨rfl, rfl⟩ := he
        exact hp.waits (.wait hc) empty rfl rfl rfl
  | isReady hc held =>
      simp only [Pc.exec, held, if_true] at he
      split at he
      · next hres =>
          simp only [Option.some.injEq, Prod.mk.injEq] at he
          obtain ⟨rfl, rfl⟩ := he
          exact hp.claims (.releaseReady hc held) empty (SharedState.ne_start_of_hasResult hres)
      · simp only [Option.some.injEq, Prod.mk.injEq] at he
        obtain ⟨rfl, rfl⟩ := he
        exact hp.waits (.isReady hc held) empty rfl rfl rfl

/-- A step of the consumer. -/
theorem Joint.consumer_step {f : Fulfilment V E} {c : Consumption κ} {m m' : Core V E κ ι}
    {p q q' : Pc V E κ ι} (hj : Joint f c ⟨m, p, q⟩) (he : q.exec m = some (m', q')) :
    Joint f c ⟨m', p, q'⟩ := by
  cases hj with
  | start state producer consumer empty => exact consumer.exec empty (.start state producer) he
  | onlyResult state full producer consumer empty =>
      rcases consumer with consumer | consumer
      · exact consumer.exec empty (.onlyResult state full producer) he
      · cases consumer with
        | @verify cb hc stored =>
            simp only [Pc.exec, if_true, Core.callbackValue, stored, Option.some.injEq,
              Prod.mk.injEq] at he
            obtain ⟨rfl, rfl⟩ := he
            refine .onlyResult state full producer (.inr ?_) empty
            rw [use_execute hc]
            exact .storeDone
        | releaseReady hc held =>
            simp only [Pc.exec, Core.releaseFuture, held, if_true, Option.some.injEq,
              Prod.mk.injEq] at he
            obtain ⟨rfl, rfl⟩ := he
            refine .onlyResult state full producer (.inr ?_) empty
            rw [← hc]
            exact .storeDone
        | storeDone =>
            simp only [Pc.exec, Option.some.injEq, Prod.mk.injEq] at he
            obtain ⟨rfl, rfl⟩ := he
            exact .consumerTakes producer (.move full empty)
  | onlyCallback => simp [Pc.exec] at he
  | consumerTakes producer consumer => exact .consumerTakes producer (consumer.exec he)
  | producerTakes => simp [Pc.exec] at he

/-- The phases look at neither `sleeping` nor the order of the tasks. -/
theorem Joint.congr {f : Fulfilment V E} {c : Consumption κ} {m m' : Core V E κ ι}
    {p q : Pc V E κ ι} (hj : Joint f c ⟨m, p, q⟩) (hshared : m'.shared = m.shared)
    (hpromise : m'.promiseHeld = m.promiseHeld) (hfuture : m'.futureHeld = m.futureHeld)
    (hlog : (executed m').Perm (executed m)) : Joint f c ⟨m', p, q⟩ := by
  have hcb : m'.shared.callback = m.shared.callback := by rw [hshared]
  have hres : m'.shared.result = m.shared.result := by rw [hshared]
  have hempty : executed m = [] → executed m' = [] := fun h => List.Perm.eq_nil (h ▸ hlog)
  have htaking : ∀ {p : Pc V E κ ι}, Taking f c m p → Taking f c m' p := by
    intro p h
    cases h with
    | move full empty => exact .move (hres.trans full) (hempty empty)
    | execute hc empty => exact .execute hc (hempty empty)
    | returned one => exact .returned (List.perm_singleton.mp (one ▸ hlog.append_right _))
  cases hj with
  | start state producer consumer empty =>
      exact .start (hshared ▸ state) (producer.congr hpromise hres) (consumer.congr hfuture hcb)
        (hempty empty)
  | onlyResult state full producer consumer empty =>
      exact .onlyResult (hshared ▸ state) (hres.trans full) producer
        (consumer.imp (·.congr hfuture hcb) (·.congr hfuture hcb)) (hempty empty)
  | onlyCallback hc state stored producer empty =>
      exact .onlyCallback hc (hshared ▸ state) (hcb.trans stored)
        (producer.imp (·.congr hpromise hres) (fun h => ⟨h.1, hres.trans h.2⟩)) (hempty empty)
  | consumerTakes producer consumer => exact .consumerTakes producer (htaking consumer)
  | producerTakes producer => exact .producerTakes (htaking producer)

/-- **Every step stays in the phases.** -/
theorem Joint.next {f : Fulfilment V E} {c : Consumption κ} {s s' : OneShot V E κ ι} {a : Actor}
    (hj : Joint f c s) (h : s.next a = some s') : Joint f c s' := by
  obtain ⟨m, p, q⟩ := s
  cases a with
  | producer =>
      obtain ⟨⟨m', p'⟩, he, rfl⟩ := Option.map_eq_some_iff.mp h
      exact hj.producer_step he
  | consumer =>
      obtain ⟨⟨m', q'⟩, he, rfl⟩ := Option.map_eq_some_iff.mp h
      exact hj.consumer_step he
  | wakeup =>
      simp only [OneShot.next] at h
      split at h
      · obtain rfl := Option.some.inj h
        exact hj.congr rfl rfl rfl (List.Perm.refl _)
      · cases h
  | worker i =>
      have hlog := executed_worker h
      obtain ⟨t, -, rfl⟩ := Option.map_eq_some_iff.mp h
      exact hj.congr rfl rfl rfl hlog

theorem reachable_joint {f : Fulfilment V E} {vias : List (Option ι)} {c : Consumption κ}
    {s : OneShot V E κ ι} (h : (system f vias c).Reachable s) : Joint f c s :=
  h.invariant_next (joint_fresh f vias c) (fun _ _ _ hj hs => hj.next hs)

/-! ## Delivery -/

/-- The call is over. -/
def Returned (p : Pc V E κ ι) : Prop := ∃ o, p = .returned o

/-- The next operation's check holds, and the optional it dereferences has a value. -/
def Supplied (m : Core V E κ ι) : Pc V E κ ι → Prop
  | .verifyOnlyCallback expected => expected = .onlyCallback ∧ ∃ cb, m.shared.callback = some cb
  | .verifyOnlyResult expected => expected = .onlyResult ∧ ∃ cb, m.shared.callback = some cb
  | .moveResult _ => ∃ r, m.shared.result = .full r
  | .failed _ => False
  | _ => True

/-- A thread that still has operations to run. -/
def Running : Pc V E κ ι → Prop
  | .returned _ => False
  | .failed _ => False
  | _ => True

theorem Running.ofReturned {p : Pc V E κ ι} (h : Running p) : ofReturned p = [] := by
  cases p <;> first | rfl | exact h.elim

theorem Running.not_returned {p : Pc V E κ ι} (h : Running p) : ¬ Returned p := by
  rintro ⟨o, rfl⟩
  exact h

theorem Promising.running {f : Fulfilment V E} {m : Core V E κ ι} {p : Pc V E κ ι}
    (h : Promising f m p) : Running p ∧ Supplied m p := by cases h <;> exact ⟨trivial, trivial⟩

theorem Published.quiet {p : Pc V E κ ι} (h : Published p) (m : Core V E κ ι) :
    ofReturned p = [] ∧ Supplied m p := by cases h <;> exact ⟨rfl, trivial⟩

theorem Waiting.running {c : Consumption κ} {m : Core V E κ ι} {q : Pc V E κ ι}
    (h : Waiting c m q) : Running q ∧ Supplied m q := by cases h <;> exact ⟨trivial, trivial⟩

theorem Claiming.running {c : Consumption κ} {m : Core V E κ ι} {q : Pc V E κ ι}
    (h : Claiming c m q) : Running q ∧ Supplied m q := by
  cases h with
  | verify _ stored => exact ⟨trivial, rfl, _, stored⟩
  | releaseReady | storeDone => exact ⟨trivial, trivial⟩

theorem Answering.running {c : Consumption κ} {m : Core V E κ ι} {p : Pc V E κ ι} {cb : κ}
    (h : Answering c p) (stored : m.shared.callback = some cb) : Running p ∧ Supplied m p := by
  cases h with
  | verify => exact ⟨trivial, rfl, _, stored⟩
  | storeDone => exact ⟨trivial, trivial⟩

/-- The taker has handed nothing over yet, or, once it has returned, exactly the result. -/
theorem Taking.handed {f : Fulfilment V E} {c : Consumption κ} {m : Core V E κ ι} {p : Pc V E κ ι}
    (h : Taking f c m p) : Supplied m p ∧
      ((Running p ∧ executed m ++ ofReturned p = []) ∨
        executed m ++ ofReturned p = [(receiver c, f.result)]) := by
  cases h with
  | move full empty => exact ⟨⟨_, full⟩, .inl ⟨trivial, by rw [empty]; rfl⟩⟩
  | execute hc empty => exact ⟨trivial, .inl ⟨trivial, by rw [empty]; rfl⟩⟩
  | returned one => exact ⟨trivial, .inr one⟩

/-- **What a phase says about delivery.** -/
theorem Joint.delivery {f : Fulfilment V E} {c : Consumption κ} {s : OneShot V E κ ι}
    (hj : Joint f c s) : Supplied s.core s.producer ∧ Supplied s.core s.consumer ∧
      (((Running s.producer ∨ Running s.consumer) ∧ s.handed = []) ∨
        s.handed = [(receiver c, f.result)]) := by
  cases hj with
  | start _ producer consumer empty =>
      have hp := producer.running
      have hq := consumer.running
      exact ⟨hp.2, hq.2, .inl ⟨.inl hp.1, by
        simp [OneShot.handed, empty, hp.1.ofReturned, hq.1.ofReturned]⟩⟩
  | onlyResult _ _ producer consumer empty =>
      have hp := producer.quiet
      have hq := consumer.elim Waiting.running Claiming.running
      exact ⟨(hp _).2, hq.2, .inl ⟨.inr hq.1, by
        simp [OneShot.handed, empty, (hp {}).1, hq.1.ofReturned]⟩⟩
  | onlyCallback _ _ stored producer empty =>
      have hp := producer.elim Promising.running (fun h => h.1.running stored)
      refine ⟨hp.2, trivial, .inl ⟨.inl hp.1, ?_⟩⟩
      simp only [OneShot.handed, empty, hp.1.ofReturned]
      rfl
  | consumerTakes producer consumer =>
      obtain ⟨hq, hh⟩ := consumer.handed
      have hlog := (producer.quiet {}).1
      refine ⟨(producer.quiet _).2, hq, ?_⟩
      simp only [OneShot.handed, hlog, List.append_nil]
      exact hh.imp (fun h => ⟨.inr h.1, h.2⟩) id
  | producerTakes producer =>
      obtain ⟨hp, hh⟩ := producer.handed
      refine ⟨hp, trivial, ?_⟩
      simp only [OneShot.handed, OneShot.ofReturned, List.append_nil]
      exact hh.imp (fun h => ⟨.inl h.1, h.2⟩) id

/-- The calls of callbacks, among all that has left the shared state. -/
def calls (hs : List (Option κ × Result V E)) : List (κ × Result V E) :=
  hs.filterMap fun h => h.1.map (·, h.2)

theorem calls_ofReturned (p : Pc V E κ ι) : calls (ofReturned p) = [] := by
  unfold ofReturned
  split <;> rfl

/-- With no task pending, the callbacks called are the callbacks the results were handed to. -/
theorem calls_handed {s : OneShot V E κ ι} (h : s.core.tasks = []) :
    calls s.handed = s.core.called := by
  have hp := calls_ofReturned s.producer
  have hq := calls_ofReturned s.consumer
  unfold calls at hp hq ⊢
  simp only [handed, executed, h, List.filterMap_append, hp, hq, List.map_nil, List.nil_append,
    List.append_nil, List.filterMap_map]
  exact List.filterMap_some

/-- **One-shot delivery.** In every interleaving of one fulfilment with one consumption, after any `Via`
    calls: no check fails and every optional that is dereferenced holds a value; what has left the shared
    state is nothing or exactly the result, handed once; and once both calls have returned it has been
    handed over, and the callback called with it as soon as the executors have no task left. -/
theorem delivered_once (f : Fulfilment V E) (vias : List (Option ι)) (c : Consumption κ) {s : OneShot V E κ ι}
    (h : (system f vias c).Reachable s) :
    (∀ v, s.producer ≠ .failed v ∧ s.consumer ≠ .failed v) ∧
    (Supplied s.core s.producer ∧ Supplied s.core s.consumer) ∧
    (s.handed = [] ∨ s.handed = [(receiver c, f.result)]) ∧
    (Returned s.producer → Returned s.consumer → s.handed = [(receiver c, f.result)] ∧
      (s.core.tasks = [] → s.core.called = (receiver c).toList.map (·, f.result))) := by
  obtain ⟨hp, hq, hh⟩ := (reachable_joint h).delivery
  refine ⟨?_, ⟨hp, hq⟩, hh.imp And.right id, ?_⟩
  · refine fun v => ⟨fun he => ?_, fun he => ?_⟩
    · rw [he] at hp; exact hp
    · rw [he] at hq; exact hq
  · intro hrp hrq
    have hone : s.handed = [(receiver c, f.result)] := by
      rcases hh with ⟨hrun | hrun, -⟩ | hone
      · exact absurd hrp hrun.not_returned
      · exact absurd hrq hrun.not_returned
      · exact hone
    refine ⟨hone, fun htasks => ?_⟩
    rw [← calls_handed htasks, hone]
    cases receiver c <;> rfl

/-- The callback is stored first, the producer finds it, and executor `3` runs the task. -/
theorem delivered_once_callback_first :
    ∃ s : OneShot Nat Nat Nat Nat, (system (.setValue 7) [none, some 3] (.subscribe 5)).Reachable s ∧
      s.core.called = [(5, .ok 7)] := by
  have h : (system (V := Nat) (E := Nat) (.setValue 7) [none, some 3] (.subscribe 5)).Reachable _ :=
    System.reachable_of_run
      (List.replicate 6 Actor.consumer ++ List.replicate 7 .producer ++ [.worker 0]) rfl
  exact ⟨_, h, ((delivered_once _ _ _ h).2.2.2 ⟨_, rfl⟩ ⟨_, rfl⟩).2 rfl⟩

end OneShot
end Futures
end Tpcc
