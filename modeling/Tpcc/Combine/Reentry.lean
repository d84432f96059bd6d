import Mathlib.Logic.Relation
import Tpcc.Combine.All

/-!
# `Combine.Reentry` — the subscriber of `All` runs under the mutex

`All` fulfils its output inside the critical section. A subscriber without an executor, if it is there by
then, is called right there, by the thread that holds `mutex_`; and what it calls in turn, on the same
stack, is called under the mutex as well. If it fulfils an input that is still pending, whose callback is
not for an executor, this is the lambda again, and it locks `mutex_`.

The runs are those of `Setting.next` for a lambda that stops inside of `SetError` and `SetValue`
(`NestedPc.subscriber`), and of the subscriber, which may fulfil what it can reach, in any order, or
return. `Relocks` is the moment at which a thread waits for itself.
-/

namespace Tpcc
namespace Combine

open Transition Futures

variable {V E ι : Type}

/-! ## The lambda, stopping where the subscriber runs -/

/-- The shared state of the output: as much of it as matters to `SetResult` and `Subscribe`. -/
inductive OutputState (V E : Type) where
  | start
  | onlyResult (r : Result (List V) E)
  | onlyCallback
  | done

/-- `SetResult` will succeed. -/
def OutputState.Unset (o : OutputState V E) : Prop := o = .start ∨ o = .onlyCallback

/-- The subscriber has come. -/
def OutputState.consumed : OutputState V E → Bool
  | .start => false
  | .onlyResult _ => false
  | .onlyCallback => true
  | .done => true

/-- What the callbacks share. -/
structure AllState (V E : Type) where
  combinator : AllCombinator V E
  output : OutputState V E := .start

/-- The operations of the lambda. -/
inductive NestedPc (V E : Type) where
  | lock (result : Result V E)
  /-- Up to `SetError`, or up to `++counter_`. -/
  | body (result : Result V E)
  | setError (e : E)
  | count
  | setValue
  /-- Inside of `SetError` or `SetValue`: the subscriber has been called with `r`, and is itself inside of
      the callback of the input `inside`, if any. -/
  | subscriber (r : Result (List V) E) (inside : Option Nat)
  | unlock

/-- Where the lambda goes on after `SetError` and `SetValue`. -/
def NestedPc.after : Result (List V) E → NestedPc V E
  | .fail _ => .count
  | .ok _ => .unlock

namespace AllState

/-- `SetResult` on the output. It has no executor, so `Execute` calls the subscriber. -/
def setResult (r : Result (List V) E) (m : AllState V E) : Except Violation (AllState V E × Option (NestedPc V E)) :=
  match m.output with
  | .start => .ok ({ m with output := .onlyResult r }, some (.after r))
  | .onlyCallback => .ok ({ m with output := .done }, some (.subscriber r none))
  | _ => .error .expectedOnlyCallback

/-- `std::move(v_promise_).SetError / SetValue`, by callback `i`. -/
def fulfil (i : Nat) (r : Result (List V) E) (m : AllState V E) :
    Except Violation (AllState V E × Option (NestedPc V E)) :=
  (AllCombinator.fulfil i r m.combinator).bind fun c => setResult r { m with combinator := c }

def exec (n i : Nat) (m : AllState V E) :
    NestedPc V E → Option (Except Violation (AllState V E × Option (NestedPc V E)))
  | .lock r =>
      if m.combinator.mutex_ then none
      else
        let c := { m.combinator with mutex_ := true, order := m.combinator.order ++ [i] }
        some (.ok ({ m with combinator := c }, some (.body r)))
  | .body r =>
      if m.combinator.error_ then some (.ok (m, some .unlock))
      else
        match r with
        | .fail e => some (.ok ({ m with combinator := { m.combinator with error_ := true } }, some (.setError e)))
        | .ok v => some ((AllCombinator.store v m.combinator).map fun c => ({ m with combinator := c }, some .count))
  | .setError e => some (fulfil i (.fail e) m)
  | .count =>
      let c := { m.combinator with counter_ := m.combinator.counter_ + 1 }
      some (.ok ({ m with combinator := c }, some (if c.counter_ = n then .setValue else .unlock)))
  | .setValue =>
      some (fulfil i (.ok m.combinator.results_) { m with combinator := { m.combinator with results_ := [] } })
  | .subscriber _ _ => none
  | .unlock => some (.ok ({ m with combinator := { m.combinator with mutex_ := false } }, none))

/-- The lambda under the lock, in at most `fuel` steps, up to `unlock`. -/
def runBody (n i : Nat) : Nat → AllState V E → NestedPc V E → Except Violation (AllState V E)
  | 0, m, _ => .ok m
  | fuel + 1, m, pc =>
      match exec n i m pc with
      | some (.ok (m, some .unlock)) => .ok m
      | some (.ok (m, some pc)) => runBody n i fuel m pc
      | some (.error v) => .error v
      | _ => .ok m

/-- With no subscriber there, this is the lambda that `AllCombinator.body` runs in one step. -/
theorem runBody_eq (n i : Nat) (r : Result V E) (c : AllCombinator V E) :
    (runBody n i 4 ⟨c, .start⟩ (.body r)).map (·.combinator) = AllCombinator.body n i r c := by
  cases herror : c.error_ with
  | true => simp [runBody, exec, AllCombinator.body, herror, Except.map]
  | false =>
      cases r with
      | fail e =>
          by_cases hpromise : c.v_promise_ = true
          · by_cases hlast : c.counter_ + 1 = n <;>
              simp [runBody, exec, fulfil, setResult, NestedPc.after, AllCombinator.body, AllCombinator.count,
                AllCombinator.fulfil, herror, hpromise, hlast, Except.bind, Except.map]
          · simp [runBody, exec, fulfil, AllCombinator.body, AllCombinator.fulfil, herror, hpromise, Except.bind,
              Except.map]
      | ok v =>
          by_cases hroom : c.counter_ < c.results_.length
          · by_cases hlast : c.counter_ + 1 = n
            · by_cases hpromise : c.v_promise_ = true <;>
                simp [runBody, exec, fulfil, setResult, NestedPc.after, AllCombinator.body, AllCombinator.count,
                  AllCombinator.fulfil, AllCombinator.store, herror, hroom, hlast, hpromise, Except.bind, Except.map]
            · simp [runBody, exec, AllCombinator.body, AllCombinator.count, AllCombinator.store, herror, hroom,
                hlast, Except.bind, Except.map]
          · simp [runBody, exec, AllCombinator.body, AllCombinator.store, herror, hroom, Except.bind, Except.map]

end AllState

/-! ## The runs -/

/-- `All` on these inputs. `results` are the results the inputs end with, whoever fulfils them. An input
    with executor `none` runs its callback on the thread that fulfils it, as it does with an executor that
    runs its tasks in place. `reaches r i`: called with `r`, the subscriber of the output may fulfil input
    `i`, if it is pending. -/
structure Reentry (V E ι : Type) where
  results : List (Result V E)
  executor : Nat → Option ι
  reaches : Result (List V) E → Nat → Bool

/-- The run of the callbacks, and the thread that subscribes to the output: when that comes last, it calls
    the subscriber itself, as does a callback in `NestedPc.subscriber`. -/
structure Nested (V E ι : Type) extends Run (AllState V E) (NestedPc V E) ι where
  consumer : Call (Result (List V) E × Option Nat) := .idle

/-- Who takes the next step. A subscriber is named by the callback that called it, `none` if that was the
    consumer. -/
inductive NestedAction where
  | run (a : Action)
  | consume
  | reenter (caller : Option Nat) (j : Nat)
  | resume (caller : Option Nat)

/-- What a callback has called the subscriber with, and the callback that one is inside of. -/
def calledWith : Call (NestedPc V E) → Option (Result (List V) E × Option Nat)
  | .running (.subscriber r inside) => some (r, inside)
  | _ => none

namespace Nested

def subscriberOf (s : Nested V E ι) : Option Nat → Option (Result (List V) E × Option Nat)
  | some i => calledWith (s.calls i)
  | none =>
      match s.consumer with
      | .running p => some p
      | _ => none

/-- The subscriber goes into a callback. -/
def setSubscriber (s : Nested V E ι) (r : Result (List V) E) (inside : Option Nat) : Option Nat → Nested V E ι
  | some i => { s with calls := Function.update s.calls i (.running (.subscriber r inside)) }
  | none => { s with consumer := .running (r, inside) }

/-- The subscriber returns. -/
def endSubscriber (s : Nested V E ι) (r : Result (List V) E) : Option Nat → Nested V E ι
  | some i => { s with calls := Function.update s.calls i (.running (.after r)) }
  | none => { s with consumer := .returned }

/-- The callback that the subscriber went into has returned. -/
def back (s : Nested V E ι) : Option Nat → Bool
  | none => true
  | some j =>
      match s.calls j with
      | .returned => true
      | _ => false

/-- Callback `j` runs on top of callback `i`, in the subscriber that `i` called. -/
def OnTop (s : Nested V E ι) (j i : Nat) : Prop :=
  ∃ r, s.calls i = .running (.subscriber r (some j)) ∧ s.calls j ≠ .returned

/-- The lambda of a callback holds `mutex_`. -/
def holds : Call (NestedPc V E) → Bool
  | .running (.lock _) => false
  | .running _ => true
  | _ => false

/-- **Some thread waits for a mutex that it holds.** -/
def Relocks (s : Nested V E ι) : Prop :=
  ∃ i j r, Relation.TransGen s.OnTop j i ∧ holds (s.calls i) = true ∧ s.calls j = .running (.lock r)

end Nested

namespace Reentry

variable (c : Reentry V E ι)

/-- The inputs and the lambda. -/
def setting : Setting (AllState V E) (NestedPc V E) V E ι where
  lambda := { enter := .lock, exec := AllState.exec c.results.length }
  results := c.results
  executor := c.executor

def next (s : Nested V E ι) : NestedAction → Option (Nested V E ι)
  | .run a => (c.setting.next s.toRun a).map fun r => { s with toRun := r }
  | .consume =>
      -- `All` returns the output when the loop is over
      if s.violated = none ∧ s.loop = c.results.length ∧ s.inside = none then
        match s.shared.output with
        | .start => some { s with shared := { s.shared with output := .onlyCallback }, consumer := .returned }
        | .onlyResult r => some { s with shared := { s.shared with output := .done }, consumer := .running (r, none) }
        | _ => none
      else none
  | .reenter caller j =>
      match s.subscriberOf caller with
      | some (r, inside) =>
          if s.violated = none ∧ s.back inside = true ∧ c.reaches r j = true ∧ j < c.results.length ∧
              (s.inputs j).isSet = false then
            let p := (s.inputs j).set (c.executor j)
            some ({ s with inputs := Function.update s.inputs j p }.setSubscriber r (Setting.insideOf j p) caller)
          else none
      | none => none
  | .resume caller =>
      match s.subscriberOf caller with
      | some (r, inside) =>
          if s.violated = none ∧ s.back inside = true then some (s.endSubscriber r caller) else none
      | none => none

/-- All runs: `results_` is resized before the loop. -/
def system [Inhabited V] : System (Nested V E ι) :=
  System.ofNext { shared := ⟨{ results_ := List.replicate c.results.length default }, .start⟩ } c.next

/-- **What `All` is to do.** No thread waits for itself, and every run ends, with all callbacks returned. -/
def NeverStuck [Inhabited V] : Prop :=
  ∀ s, c.system.Reachable s → ¬ s.Relocks ∧ c.system.Terminates s ∧
    (c.system.Quiescent s → ∀ i < c.results.length, s.calls i = .returned)

end Reentry

/-! ## The conditions -/

namespace Reentry

/-- Called with the error of an input, the subscriber leaves alone the other inputs whose callbacks would
    run in place. -/
def StaysOut (c : Reentry V E ι) : Prop :=
  ∀ (i : Nat) (e : E), c.results[i]? = some (.fail e) → ∀ j < c.results.length, j ≠ i → c.reaches (.fail e) j = true →
    c.executor j ≠ none

/-- Just one input fails. -/
def SoleFailure (c : Reentry V E ι) : Prop :=
  ∃ (i : Nat) (e : E), c.results[i]? = some (.fail e) ∧
    ∀ (j : Nat) (e' : E), c.results[j]? = some (.fail e') → j = i

/-! ## What the callbacks share -/

/-- How far the callbacks have come together. -/
inductive Stage where
  /-- Only values so far. -/
  | collecting
  /-- An error has been found, and not been set yet. -/
  | failing
  /-- An error has been set. -/
  | failed
  /-- All values have been set. -/
  | collected

/-- Input `i` ends with a value. -/
def Succeeds (c : Reentry V E ι) (i : Nat) : Prop := ∃ v, c.results[i]? = some (.ok v)

/-- Where the call of callback `i` can be. -/
def Fits (c : Reentry V E ι) (st : Stage) (counter : Nat) (i : Nat) : Call (NestedPc V E) → Prop
  | .idle => True
  | .running (.lock r) => c.results[i]? = some r
  | .running (.body r) => c.results[i]? = some r ∧ (st = .collecting ∨ st = .failed)
  | .running (.setError e) => st = .failing ∧ c.results[i]? = some (.fail e)
  | .running .count =>
      st = .collecting ∧ c.Succeeds i ∨ st = .failed ∧ counter + 1 < c.results.length
  | .running .setValue => st = .collecting ∧ c.Succeeds i ∧ counter = c.results.length
  | .running (.subscriber r inside) => inside = none ∧
      ((st = .failed ∧ counter + 1 < c.results.length ∧ ∃ e, r = Result.fail e ∧ c.results[i]? = some (.fail e)) ∨
        st = .collected ∧ ∃ vs, r = Result.ok vs)
  | .running .unlock => st ≠ .failing ∧ (st = .collecting → c.Succeeds i)
  | .returned => st = .collecting → c.Succeeds i

/-- The call has counted, while values are collected. -/
def passed : Call (NestedPc V E) → Bool
  | .running .setValue | .running (.subscriber _ _) | .running .unlock | .returned => true
  | _ => false

/-- What the members are in each stage. -/
inductive At (c : Reentry V E ι) (m : AllState V E) (calls : Nat → Call (NestedPc V E)) : Stage → Prop where
  | collecting (done : List Nat) (nodup : done.Nodup) (done_iff : ∀ i, i ∈ done ↔ passed (calls i) = true)
      (lt : ∀ i ∈ done, i < c.results.length) (counter_ : m.combinator.counter_ = done.length)
      (error_ : m.combinator.error_ = false) (size : m.combinator.results_.length = c.results.length)
      (promise : m.combinator.v_promise_ = true) (output : OutputState.Unset m.output) : At c m calls .collecting
  | failing (i : Nat) (e : E) (holder : calls i = .running (.setError e))
      (counter_ : m.combinator.counter_ + 1 < c.results.length) (error_ : m.combinator.error_ = true)
      (promise : m.combinator.v_promise_ = true) (output : OutputState.Unset m.output) : At c m calls .failing
  | failed (error_ : m.combinator.error_ = true) : At c m calls .failed
  | collected (all : ∀ i < c.results.length, passed (calls i) = true) : At c m calls .collected

/-- The mutex, the stage, and the calls. -/
structure Inv (c : Reentry V E ι) (m : AllState V E) (calls : Nat → Call (NestedPc V E)) : Prop where
  mutex : m.combinator.mutex_ = false ∧ Nobody Nested.holds calls ∨
    m.combinator.mutex_ = true ∧ ∃ i, Only Nested.holds calls i
  stage : ∃ st, c.At m calls st ∧ ∀ i, c.Fits st m.combinator.counter_ i (calls i)

section Members

variable {c : Reentry V E ι} {m : AllState V E} {calls : Nat → Call (NestedPc V E)} {i : Nat}

/-- Once an error is set, a lambda goes on to the unlock. -/
theorem fits_failed_unlock (c : Reentry V E ι) {k i : Nat} : c.Fits .failed k i (.running .unlock) := by
  constructor
  · intro hst
    cases hst
  · intro hst
    cases hst

/-- A call that does not hold the mutex only cares that values are no longer collected. -/
theorem Fits.other {st st' : Stage} {k k' : Nat} {x : Call (NestedPc V E)} (h : c.Fits st k i x)
    (hx : Nested.holds x = false) (hst : st' = .collecting → st = .collecting) : c.Fits st' k' i x := by
  cases x with
  | idle => trivial
  | returned => exact fun h' => h (hst h')
  | running pc =>
      cases pc with
      | lock r => exact h
      | body | setError | count | setValue | subscriber | unlock => cases hx

/-- The holder `i` of the mutex goes on to `x`. -/
theorem fits_update {st st' : Stage} {k k' : Nat} {x : Call (NestedPc V E)}
    (h : ∀ j, c.Fits st k j (calls j)) (honly : Only Nested.holds calls i) (hx : c.Fits st' k' i x)
    (hst : st' = .collecting → st = .collecting) (j : Nat) :
    c.Fits st' k' j (Function.update calls i x j) := by
  by_cases hj : j = i
  · subst hj
    rw [Function.update_self]
    exact hx
  · rw [Function.update_of_ne hj]
    exact (h j).other (honly.others j hj) hst

/-- While values are collected, the callbacks that have counted brought values. -/
theorem succeeds_of_passed {k : Nat} {x : Call (NestedPc V E)} (h : c.Fits .collecting k i x)
    (hx : passed x = true) : c.Succeeds i := by
  cases x with
  | idle => cases hx
  | returned => exact h rfl
  | running pc =>
      cases pc with
      | lock | body | setError | count => cases hx
      | setValue => exact h.2.1
      | unlock => exact h.2 rfl
      | subscriber r inside => obtain ⟨-, ⟨hst, -⟩ | ⟨hst, -⟩⟩ := h <;> cases hst

/-- The one call that holds the mutex. -/
theorem Inv.only (h : c.Inv m calls) (hi : Nested.holds (calls i) = true) :
    m.combinator.mutex_ = true ∧ Only Nested.holds calls i := by
  rcases h.mutex with ⟨-, hnobody⟩ | ⟨hlocked, j, honly⟩
  · exact (hnobody.not hi).elim
  · obtain rfl := honly.eq hi
    exact ⟨hlocked, honly⟩

/-- A callback begins. -/
theorem Inv.enter {r : Result V E} (h : c.Inv m calls) (hi : calls i = .idle) (hr : c.results[i]? = some r) :
    c.Inv m (Function.update calls i (.running (.lock r))) := by
  have hold : Nested.holds (calls i) = false := by rw [hi]; rfl
  have hpassed : ∀ j, passed (Function.update calls i (.running (.lock r)) j) = passed (calls j) :=
    update_same (q := passed) (by rw [hi]; rfl)
  constructor
  · rcases h.mutex with ⟨hfree, hnobody⟩ | ⟨hlocked, j, honly⟩
    · exact .inl ⟨hfree, hnobody.other rfl⟩
    · exact .inr ⟨hlocked, j, honly.other hold rfl⟩
  · obtain ⟨st, hat, hfits⟩ := h.stage
    refine ⟨st, ?_, ?_⟩
    · cases hat with
      | collecting done nodup done_iff lt counter_ error_ size promise output =>
          refine .collecting done nodup (fun j => ?_) lt counter_ error_ size promise output
          rw [hpassed]
          exact done_iff j
      | failing k e holder counter_ error_ promise output =>
          have hk : k ≠ i := by
            rintro rfl
            rw [hi] at holder
            cases holder
          exact .failing k e ((Function.update_of_ne hk _ _).trans holder) counter_ error_ promise output
      | failed error_ => exact .failed error_
      | collected all =>
          refine .collected fun j hj => ?_
          rw [hpassed]
          exact all j hj
    · intro j
      by_cases hj : j = i
      · subst hj
        rw [Function.update_self]
        exact hr
      · rw [Function.update_of_ne hj]
        exact hfits j

/-- The stage, and what it says of a callback whose call is known. -/
theorem Inv.stage_at {x : Call (NestedPc V E)} (h : c.Inv m calls) (hi : calls i = x) :
    ∃ st, c.At m calls st ∧ (∀ j, c.Fits st m.combinator.counter_ j (calls j)) ∧
      c.Fits st m.combinator.counter_ i x := by
  obtain ⟨st, hat, hfits⟩ := h.stage
  exact ⟨st, hat, hfits, hi ▸ hfits i⟩

/-- The call after a step of the lambda. -/
def callOf : Option (NestedPc V E) → Call (NestedPc V E)
  | some pc => .running pc
  | none => .returned

/-- The step of callback `i` succeeds and keeps the invariant. -/
def Kept (c : Reentry V E ι) (calls : Nat → Call (NestedPc V E)) (i : Nat)
    (o : Except Violation (AllState V E × Option (NestedPc V E))) : Prop :=
  ∃ m' x, o = .ok (m', x) ∧ c.Inv m' (Function.update calls i (callOf x))

/-- The holder of the mutex goes on under it. -/
theorem kept_under {st st' : Stage} {k : Nat} {m' : AllState V E} {pc : NestedPc V E}
    (honly : Only Nested.holds calls i) (hlocked : m'.combinator.mutex_ = true)
    (hpc : Nested.holds (.running pc) = true) (hfits : ∀ j, c.Fits st k j (calls j))
    (hat : c.At m' (Function.update calls i (.running pc)) st')
    (hx : c.Fits st' m'.combinator.counter_ i (.running pc)) (hst : st' = .collecting → st = .collecting) :
    c.Kept calls i (.ok (m', some pc)) := by
  refine ⟨m', some pc, rfl, .inr ⟨hlocked, i, honly.keep hpc⟩, st', hat, ?_⟩
  exact fits_update hfits honly hx hst

/-- While values are collected, a step that does not count keeps the callbacks that have counted. -/
theorem done_update {done : List Nat} {x : Call (NestedPc V E)} (hdone : ∀ j, j ∈ done ↔ passed (calls j) = true)
    (hx : passed x = passed (calls i)) (j : Nat) :
    j ∈ done ↔ passed (Function.update calls i x j) = true := by
  rw [update_same (q := passed) hx]
  exact hdone j

/-- `i` counts. -/
theorem done_concat {done : List Nat} {x : Call (NestedPc V E)} (hdone : ∀ j, j ∈ done ↔ passed (calls j) = true)
    (hx : passed x = true) (j : Nat) :
    j ∈ done ++ [i] ↔ passed (Function.update calls i x j) = true := by
  rw [List.mem_append, List.mem_singleton, hdone j]
  by_cases hj : j = i
  · subst hj
    rw [Function.update_self]
    exact ⟨fun _ => hx, fun _ => .inr rfl⟩
  · rw [Function.update_of_ne hj]
    exact ⟨fun h => h.resolve_right hj, .inl⟩

/-- Indices below `n`, as many as `n`, are all of them. -/
theorem mem_of_length_eq {done : List Nat} {n : Nat} (hnodup : done.Nodup) (hlt : ∀ j ∈ done, j < n)
    (hlen : done.length = n) {j : Nat} (hj : j < n) : j ∈ done := by
  have hsub : done ⊆ List.range n := fun k hk => List.mem_range.mpr (hlt k hk)
  have hperm := (List.subperm_of_subset hnodup hsub).perm_of_length_le (by rw [List.length_range, hlen])
  exact hperm.mem_iff.mpr (List.mem_range.mpr hj)

/-- One more index counts. -/
theorem concat_lt {done : List Nat} {n : Nat} (hnodup : done.Nodup) (hlt : ∀ j ∈ done, j < n) (hnew : i ∉ done)
    (hi : i < n) : (done ++ [i]).Nodup ∧ ∀ j ∈ done ++ [i], j < n := by
  refine ⟨hnodup.append (List.nodup_singleton i) (List.disjoint_singleton.mpr hnew), fun j hj => ?_⟩
  rcases List.mem_append.mp hj with hj | hj
  · exact hlt j hj
  · exact List.mem_singleton.mp hj ▸ hi

/-- **The mutex is taken.** -/
theorem Inv.lock {r : Result V E} (h : c.Inv m calls) (hi : calls i = .running (.lock r))
    (hlt : i < c.results.length) (hfree : m.combinator.mutex_ = false) :
    c.Inv { m with combinator := { m.combinator with mutex_ := true, order := m.combinator.order ++ [i] } }
      (Function.update calls i (.running (.body r))) := by
  rcases h.mutex with ⟨-, hnobody⟩ | ⟨hlocked, -⟩
  · obtain ⟨st, hat, hfits, hr⟩ := h.stage_at hi
    have hsame : passed (.running (.body r) : Call (NestedPc V E)) = passed (calls i) := by rw [hi]; rfl
    refine ⟨.inr ⟨rfl, i, hnobody.take rfl⟩, st, ?_, ?_⟩
    · cases hat with
      | collecting done nodup done_iff lt counter_ error_ size promise output =>
          exact .collecting done nodup (done_update done_iff hsame) lt counter_ error_ size promise output
      | failing k e holder =>
          have hk := hnobody k
          rw [holder] at hk
          cases hk
      | failed error_ => exact .failed error_
      | collected all =>
          have hpassed := all i hlt
          rw [hi] at hpassed
          cases hpassed
    · have hst : st = .collecting ∨ st = .failed := by
        cases hat with
        | collecting => exact .inl rfl
        | failed => exact .inr rfl
        | failing k e holder =>
            have hk := hnobody k
            rw [holder] at hk
            cases hk
        | collected all =>
            have hpassed := all i hlt
            rw [hi] at hpassed
            cases hpassed
      intro j
      by_cases hj : j = i
      · subst hj
        rw [Function.update_self]
        exact ⟨hr, hst⟩
      · rw [Function.update_of_ne hj]
        exact (hfits j).other (hnobody j) id
  · rw [hfree] at hlocked
    cases hlocked

/-- **The body**, up to `SetError` or `++counter_`. An error does not come first after `n - 1` values. -/
theorem Inv.body {r : Result V E} {o : Except Violation (AllState V E × Option (NestedPc V E))}
    (hsole : ¬ c.SoleFailure) (h : c.Inv m calls) (hi : calls i = .running (.body r)) (hlt : i < c.results.length)
    (ho : AllState.exec c.results.length i m (.body r) = some o) : c.Kept calls i o := by
  obtain ⟨hlocked, honly⟩ := h.only (i := i) (by rw [hi]; rfl)
  obtain ⟨st, hat, hfits, hr, hst⟩ := h.stage_at hi
  have hpassed : passed (calls i) = false := by rw [hi]; rfl
  cases hat with
  | failing | collected => rcases hst with hst | hst <;> cases hst
  | failed error_ =>
      -- an error has been set: the lambda returns at once
      simp only [AllState.exec, error_, if_true] at ho
      obtain rfl := Option.some.inj ho
      exact kept_under honly hlocked rfl hfits (.failed error_) (fits_failed_unlock c) id
  | collecting done nodup done_iff lt counter_ error_ size promise output =>
      have hnew : i ∉ done := by
        rw [done_iff, hpassed]
        exact Bool.false_ne_true
      obtain ⟨hnodup, hbound⟩ := concat_lt nodup lt hnew hlt
      have hroom : done.length + 1 ≤ c.results.length := by
        have hle := (List.subperm_of_subset hnodup fun j hj => List.mem_range.mpr (hbound j hj)).length_le
        rwa [List.length_append, List.length_singleton, List.length_range] at hle
      simp only [AllState.exec, error_, Bool.false_eq_true, if_false] at ho
      cases r with
      | ok v =>
          have hstore : AllCombinator.store v m.combinator =
              .ok { m.combinator with results_ := m.combinator.results_.set m.combinator.counter_ v } := by
            rw [AllCombinator.store, if_pos]
            rw [counter_, size]
            exact hroom
          simp only [hstore, Except.map] at ho
          obtain rfl := Option.some.inj ho
          refine kept_under honly hlocked rfl hfits ?_ (.inl ⟨rfl, v, hr⟩) id
          refine .collecting done nodup (done_update done_iff (by rw [hpassed]; rfl)) lt counter_ error_ ?_ promise output
          rw [List.length_set]
          exact size
      | fail e =>
          obtain rfl := Option.some.inj ho
          have hearly : done.length + 1 ≠ c.results.length := by
            intro hlast
            -- the others have all counted, with values
            apply hsole
            refine ⟨i, e, hr, fun j e' hj => ?_⟩
            have hmem : j ∈ done ++ [i] := mem_of_length_eq hnodup hbound
              (by rw [List.length_append, List.length_singleton, hlast]) (List.getElem?_eq_some_iff.mp hj).1
            rcases List.mem_append.mp hmem with hmem | hmem
            · obtain ⟨v, hv⟩ := succeeds_of_passed (hfits j) ((done_iff j).mp hmem)
              rw [hj] at hv
              cases hv
            · exact List.mem_singleton.mp hmem
          refine kept_under honly hlocked rfl hfits ?_ ⟨rfl, hr⟩ (by intro h; cases h)
          refine .failing i e (Function.update_self ..) ?_ rfl promise output
          rw [counter_]
          omega

/-- What a promise that still holds its state does with the output. -/
theorem fulfil_spec (promise : m.combinator.v_promise_ = true) (output : OutputState.Unset m.output) (i : Nat)
    (r : Result (List V) E) :
    ∃ m' pc, AllState.fulfil i r m = .ok (m', some pc) ∧ (pc = .after r ∨ pc = .subscriber r none) ∧
      m'.combinator.mutex_ = m.combinator.mutex_ ∧ m'.combinator.error_ = m.combinator.error_ ∧
      m'.combinator.counter_ = m.combinator.counter_ := by
  simp only [AllState.fulfil, AllCombinator.fulfil, promise, if_true, Except.bind, AllState.setResult]
  rcases output with output | output <;> rw [output]
  · exact ⟨_, _, rfl, .inl rfl, rfl, rfl, rfl⟩
  · exact ⟨_, _, rfl, .inr rfl, rfl, rfl, rfl⟩

/-- **`SetError`**, up to the call of the subscriber. -/
theorem Inv.setError {e : E} (h : c.Inv m calls) (hi : calls i = .running (.setError e)) :
    c.Kept calls i (AllState.fulfil i (.fail e) m) := by
  obtain ⟨hlocked, honly⟩ := h.only (i := i) (by rw [hi]; rfl)
  obtain ⟨st, hat, hfits, rfl, hr⟩ := h.stage_at hi
  cases hat with
  | failing k e' holder counter_ error_ promise output =>
      obtain ⟨m', pc, hset, hpc, hmutex, herror, hcounter⟩ := fulfil_spec promise output i (.fail e)
      rw [hset]
      rw [← hmutex] at hlocked
      rw [← herror] at error_
      rw [← hcounter] at counter_
      rcases hpc with rfl | rfl
      · exact kept_under honly hlocked rfl hfits (.failed error_) (.inr ⟨rfl, counter_⟩) nofun
      · exact kept_under honly hlocked rfl hfits (.failed error_) ⟨rfl, .inl ⟨rfl, counter_, e, rfl, hr⟩⟩ nofun

/-- **`++counter_`**, and whether all have counted. -/
theorem Inv.count (h : c.Inv m calls) (hi : calls i = .running .count) (hlt : i < c.results.length) {o}
    (ho : AllState.exec c.results.length i m .count = some o) : c.Kept calls i o := by
  obtain ⟨hlocked, honly⟩ := h.only (i := i) (by rw [hi]; rfl)
  obtain ⟨st, hat, hfits, hst⟩ := h.stage_at hi
  obtain rfl := Option.some.inj ho
  rcases hst with ⟨rfl, hok⟩ | ⟨rfl, hfew⟩
  · cases hat with
    | collecting done nodup done_iff lt counter_ error_ size promise output =>
        have hnew : i ∉ done := by
          rw [done_iff, hi]
          exact Bool.false_ne_true
        have hcounted : ∀ x : Call (NestedPc V E), passed x = true →
            c.At { m with combinator := { m.combinator with counter_ := m.combinator.counter_ + 1 } }
              (Function.update calls i x) .collecting := by
          intro x hx
          obtain ⟨hnodup, hbound⟩ := concat_lt nodup lt hnew hlt
          refine .collecting (done ++ [i]) hnodup (done_concat done_iff hx) hbound ?_ error_ size promise output
          rw [List.length_append, List.length_singleton, ← counter_]
        by_cases hlast : m.combinator.counter_ + 1 = c.results.length
        · rw [if_pos hlast]
          exact kept_under honly hlocked rfl hfits (hcounted _ rfl) ⟨rfl, hok, hlast⟩ id
        · rw [if_neg hlast]
          exact kept_under honly hlocked rfl hfits (hcounted _ rfl) ⟨nofun, fun _ => hok⟩ id
  · cases hat with
    | failed error_ =>
        rw [if_neg (Nat.ne_of_lt hfew)]
        exact kept_under honly hlocked rfl hfits (.failed error_) (fits_failed_unlock c) id

/-- **`SetValue`**, up to the call of the subscriber: by then all callbacks have counted. -/
theorem Inv.setValue (h : c.Inv m calls) (hi : calls i = .running .setValue) {o}
    (ho : AllState.exec c.results.length i m .setValue = some o) : c.Kept calls i o := by
  obtain ⟨hlocked, honly⟩ := h.only (i := i) (by rw [hi]; rfl)
  obtain ⟨st, hat, hfits, rfl, hok, hfull⟩ := h.stage_at hi
  obtain rfl := Option.some.inj ho
  cases hat with
  | collecting done nodup done_iff lt counter_ error_ size promise output =>
      rw [counter_] at hfull
      have hall : ∀ x : Call (NestedPc V E), passed x = true →
          ∀ j < c.results.length, passed (Function.update calls i x j) = true := by
        intro x hx j hj
        rw [← done_update done_iff (by rw [hx, hi]; rfl)]
        exact mem_of_length_eq nodup lt hfull hj
      obtain ⟨m', pc, hset, hpc, hmutex, -, -⟩ := fulfil_spec
        (m := { m with combinator := { m.combinator with results_ := [] } }) promise output i
        (.ok m.combinator.results_)
      rw [hset]
      replace hlocked := hmutex.trans hlocked
      rcases hpc with rfl | rfl
      · exact kept_under honly hlocked rfl hfits (.collected (hall _ rfl)) ⟨nofun, nofun⟩ nofun
      · exact kept_under honly hlocked rfl hfits (.collected (hall _ rfl)) ⟨rfl, .inr ⟨rfl, _, rfl⟩⟩ nofun

/-- **The mutex is released.** -/
theorem Inv.unlock (h : c.Inv m calls) (hi : calls i = .running .unlock) :
    c.Inv { m with combinator := { m.combinator with mutex_ := false } } (Function.update calls i .returned) := by
  obtain ⟨-, honly⟩ := h.only (i := i) (by rw [hi]; rfl)
  obtain ⟨st, hat, hfits, hst, hok⟩ := h.stage_at hi
  have hsame : passed (.returned : Call (NestedPc V E)) = passed (calls i) := by rw [hi]; rfl
  refine ⟨.inl ⟨rfl, honly.drop rfl⟩, st, ?_, fits_update hfits honly hok id⟩
  cases hat with
  | collecting done nodup done_iff lt counter_ error_ size promise output =>
      exact .collecting done nodup (done_update done_iff hsame) lt counter_ error_ size promise output
  | failing => exact absurd rfl hst
  | failed error_ => exact .failed error_
  | collected all =>
      refine .collected fun j hj => ?_
      rw [update_same (q := passed) hsame]
      exact all j hj

/-- **Every step of the lambda succeeds, and keeps the invariant.** -/
theorem Inv.exec {pc : NestedPc V E} (hsole : ¬ c.SoleFailure) (h : c.Inv m calls) (hi : calls i = .running pc)
    (hlt : i < c.results.length) {o} (ho : AllState.exec c.results.length i m pc = some o) : c.Kept calls i o := by
  cases pc with
  | lock r =>
      simp only [AllState.exec] at ho
      split at ho
      · cases ho
      · next hfree =>
          obtain rfl := Option.some.inj ho
          exact ⟨_, _, rfl, h.lock hi hlt (Bool.eq_false_iff.mpr hfree)⟩
  | body r => exact h.body hsole hi hlt ho
  | setError e =>
      obtain rfl := Option.some.inj ho
      exact h.setError hi
  | count => exact h.count hi hlt ho
  | setValue => exact h.setValue hi ho
  | subscriber r inside => cases ho
  | unlock =>
      obtain rfl := Option.some.inj ho
      exact ⟨_, _, rfl, h.unlock hi⟩

/-- **The subscriber returns** to the lambda. -/
theorem Inv.resume {r : Result (List V) E} {inside : Option Nat} (h : c.Inv m calls)
    (hi : calls i = .running (.subscriber r inside)) :
    c.Inv m (Function.update calls i (.running (.after r))) := by
  obtain ⟨hlocked, honly⟩ := h.only (i := i) (by rw [hi]; rfl)
  obtain ⟨st, hat, hfits, -, hsub⟩ := h.stage_at hi
  rcases hsub with ⟨rfl, hfew, e, rfl, -⟩ | ⟨rfl, vs, rfl⟩
  · cases hat with
    | failed error_ =>
        refine ⟨.inr ⟨hlocked, i, honly.keep rfl⟩, .failed, .failed error_, ?_⟩
        exact fits_update hfits honly (.inr ⟨rfl, hfew⟩) id
  · cases hat with
    | collected all =>
        refine ⟨.inr ⟨hlocked, i, honly.keep rfl⟩, .collected, .collected fun j hj => ?_, ?_⟩
        · rw [update_same (q := passed) (by rw [hi]; rfl)]
          exact all j hj
        · exact fits_update hfits honly ⟨nofun, nofun⟩ id

end Members

end Reentry

end Combine
end Tpcc
