import Tpcc.Transition.Exclusive
import Tpcc.Combine.Inputs

/-!
# `Combine.All` — all values, or the first error

`AllCombinator::Combine` on `n ≥ 1` inputs. The lambda takes `mutex_`, and its whole body runs under it
(`body`), so a run is determined by the order in which the callbacks take the mutex: `Progress` says what
the members are after the callbacks in `done` have run their bodies, and `body_spec` is the step.

The body counts an error like a value. An error that comes first after `n - 1` values therefore makes
`counter_` reach `n` with the promise already released, and `SetValue` fails its check.
-/

namespace Tpcc
namespace Combine

open Transition Futures

variable {V E ι : Type}

/-- The members of `detail::AllCombinator`; `v_promise_` and `mutex_` say whether the promise holds its
    state and whether the mutex is locked. The last two fields record the callbacks in the order in which
    they took the mutex, and the calls of `SetValue` and `SetError` with the callback that made them. -/
structure AllCombinator (V E : Type) where
  error_ : Bool := false
  v_promise_ : Bool := true
  mutex_ : Bool := false
  results_ : List V
  counter_ : Nat := 0
  order : List Nat := []
  output : List (Nat × Result (List V) E) := []

/-- The operations of the lambda: lock, the body, unlock. -/
inductive AllPc (V E : Type) where
  | lock (result : Result V E)
  | body (result : Result V E)
  | unlock

namespace AllCombinator

/-- `std::move(v_promise_).SetValue / SetError`, by callback `i`. -/
def fulfil (i : Nat) (r : Result (List V) E) (c : AllCombinator V E) :
    Except Violation (AllCombinator V E) :=
  if c.v_promise_ then .ok { c with v_promise_ := false, output := c.output ++ [(i, r)] }
  else .error .noSharedState

/-- `results_[counter_] = ...`. -/
def store (v : V) (c : AllCombinator V E) : Except Violation (AllCombinator V E) :=
  if c.counter_ < c.results_.length then .ok { c with results_ := c.results_.set c.counter_ v }
  else .error .outOfBounds

/-- `++counter_; if (counter_ == n) SetValue(std::move(results_));` -/
def count (n i : Nat) (c : AllCombinator V E) : Except Violation (AllCombinator V E) :=
  let c := { c with counter_ := c.counter_ + 1 }
  if c.counter_ = n then fulfil i (.ok c.results_) { c with results_ := [] } else .ok c

/-- The lambda under the lock. -/
def body (n i : Nat) (result : Result V E) (c : AllCombinator V E) :
    Except Violation (AllCombinator V E) :=
  if c.error_ then .ok c
  else
    match result with
    | .fail e => (fulfil i (.fail e) { c with error_ := true }).bind (count n i)
    | .ok v => (store v c).bind (count n i)

def exec (n i : Nat) (c : AllCombinator V E) :
    AllPc V E → Option (Except Violation (AllCombinator V E × Option (AllPc V E)))
  | .lock r =>
      if c.mutex_ then none
      else some (.ok ({ c with mutex_ := true, order := c.order ++ [i] }, some (.body r)))
  | .body r => some ((body n i r c).map fun c => (c, some .unlock))
  | .unlock => some (.ok ({ c with mutex_ := false }, none))

end AllCombinator

/-- `All` on these inputs. -/
def all (results : List (Result V E)) (executor : Nat → Option ι) :
    Setting (AllCombinator V E) (AllPc V E) V E ι where
  lambda := { enter := .lock, exec := AllCombinator.exec results.length }
  results := results
  executor := executor

/-- All runs of `All` on these inputs: `results_` is resized before the loop. -/
def allSystem [Inhabited V] (results : List (Result V E)) (executor : Nat → Option ι) :
    System (Run (AllCombinator V E) (AllPc V E) ι) :=
  (all results executor).system { results_ := List.replicate results.length default }

namespace AllCombinator

/-! ## The members after some bodies -/

/-- The callbacks in `done` brought these values. -/
def Brings (results : List (Result V E)) (done : List Nat) (vs : List V) : Prop :=
  done.map (results[·]?) = vs.map fun v => some (.ok v)

/-- The members, when the callbacks in `done` have run their bodies, in this order. -/
inductive Progress (results : List (Result V E)) (c : AllCombinator V E) (done : List Nat) : Prop where
  /-- Only values so far, and more to come. -/
  | collecting (vs : List V) (brings : Brings results done vs) (few : done.length < results.length)
      (error_ : c.error_ = false) (counter_ : c.counter_ = vs.length)
      (results_ : c.results_.take vs.length = vs) (size : c.results_.length = results.length)
      (promise : c.v_promise_ = true) (output : c.output = [])
  /-- The last callback has delivered all values. -/
  | collected (vs : List V) (brings : Brings results done vs) (last : Nat)
      (end_ : done.getLast? = some last) (full : done.length = results.length)
      (output : c.output = [(last, .ok vs)])
  /-- The first error has been delivered. -/
  | failed (pre : List Nat) (i : Nat) (post : List Nat) (vs : List V) (e : E)
      (split : done = pre ++ i :: post) (brings : Brings results pre vs)
      (fails : results[i]? = some (.fail e)) (early : pre.length + 1 < results.length)
      (error_ : c.error_ = true) (output : c.output = [(i, .fail e)])

/-- The error of callback `i` comes first, after `n - 1` values. -/
def FailsLast (results : List (Result V E)) (done : List Nat) (i : Nat) : Prop :=
  done.length + 1 = results.length ∧ (∃ vs, Brings results done vs) ∧
    ∃ e, results[i]? = some (.fail e)

theorem Brings.length {results : List (Result V E)} {done : List Nat} {vs : List V}
    (h : Brings results done vs) : done.length = vs.length := by
  simpa using congrArg List.length h

theorem Brings.snoc {results : List (Result V E)} {done : List Nat} {vs : List V} {i : Nat} {v : V}
    (h : Brings results done vs) (hi : results[i]? = some (.ok v)) :
    Brings results (done ++ [i]) (vs ++ [v]) := by
  unfold Brings at h ⊢
  rw [List.map_append, List.map_append, h]
  simp [hi]

theorem take_set_snoc {l : List V} {vs : List V} {v : V} (h : l.take vs.length = vs)
    (hlt : vs.length < l.length) : (l.set vs.length v).take (vs.length + 1) = vs ++ [v] := by
  rw [List.take_add_one, List.take_set_of_le (Nat.le_refl _), h]
  simp [hlt]

/-- **One body.** It keeps the members in step, unless an error comes first after `n - 1` values. -/
theorem body_spec {results : List (Result V E)} {c : AllCombinator V E} {done : List Nat} {i : Nat}
    {r : Result V E} (h : Progress results c done) (hi : results[i]? = some r)
    (hfew : done.length < results.length) :
    (∃ c', body results.length i r c = .ok c' ∧ Progress results c' (done ++ [i]) ∧
        c'.mutex_ = c.mutex_ ∧ c'.order = c.order) ∨
      (body results.length i r c = .error .noSharedState ∧ FailsLast results done i) := by
  cases h with
  | collected vs brings last end_ full output => omega
  | failed pre j post vs e split brings fails early error_ output =>
      refine .inl ⟨c, by simp [body, error_], ?_, rfl, rfl⟩
      exact .failed pre j (post ++ [i]) vs e (by simp [split]) brings fails early error_ output
  | collecting vs brings few error_ counter_ results_ size promise output =>
      have hlen := brings.length
      cases r with
      | ok v =>
          have hstore : store v c = .ok { c with results_ := c.results_.set vs.length v } := by
            rw [store, counter_, if_pos (by omega)]
          have htake := take_set_snoc (v := v) results_ (by omega)
          by_cases hlast : vs.length + 1 = results.length
          · -- the last value: all of `results_` is delivered
            have hall : c.results_.set vs.length v = vs ++ [v] := by
              rw [← htake, List.take_of_length_le]
              simp [size, hlast]
            have hbody : body results.length i (.ok v) c = .ok ({ c with
                results_ := []
                counter_ := vs.length + 1
                v_promise_ := false
                output := [(i, .ok (vs ++ [v]))] }) := by
              simp [body, error_, hstore, Except.bind, count, counter_, hlast, fulfil, promise, output,
                hall]
            refine .inl ⟨_, hbody, ?_, rfl, rfl⟩
            exact .collected (vs ++ [v]) (brings.snoc hi) i (by simp) (by simp; omega) rfl
          · have hbody : body results.length i (.ok v) c = .ok ({ c with
                results_ := c.results_.set vs.length v
                counter_ := vs.length + 1 }) := by
              simp [body, error_, hstore, Except.bind, count, counter_, hlast]
            refine .inl ⟨_, hbody, ?_, rfl, rfl⟩
            exact .collecting (vs ++ [v]) (brings.snoc hi) (by simp; omega) error_ (by simp)
                (by simpa using htake) (by simpa using size) promise output
      | fail e =>
          have hset : fulfil i (.fail e) { c with error_ := true } = .ok ({ c with
              error_ := true
              v_promise_ := false
              output := [(i, .fail e)] }) := by
            simp [fulfil, promise, output]
          have hbody : body results.length i (.fail e) c = count results.length i ({ c with
              error_ := true
              v_promise_ := false
              output := [(i, .fail e)] }) := by
            rw [body, error_, if_neg (by simp), hset]
            rfl
          rw [hbody]
          by_cases hlast : vs.length + 1 = results.length
          · -- the counter reaches `n` although the promise is released
            refine .inr ⟨?_, by omega, ⟨vs, brings⟩, e, hi⟩
            simp [count, counter_, hlast, fulfil]
          · refine .inl ⟨_, if_neg (by simpa [counter_] using hlast), ?_, rfl, rfl⟩
            exact .failed done i [] vs e rfl brings hi (by omega) rfl rfl

theorem Progress.with_lock {results : List (Result V E)} {c : AllCombinator V E} {done : List Nat}
    (h : Progress results c done) (locked : Bool) (order : List Nat) :
    Progress results ({ c with mutex_ := locked, order }) done := by
  cases h with
  | collecting vs brings few error_ counter_ results_ size promise output =>
      exact .collecting vs brings few error_ counter_ results_ size promise output
  | collected vs brings last end_ full output => exact .collected vs brings last end_ full output
  | failed pre i post vs e split brings fails early error_ output =>
      exact .failed pre i post vs e split brings fails early error_ output

/-! ## The mutex -/

/-- The call holds the mutex. -/
def holds : Call (AllPc V E) → Bool
  | .running (.body _) | .running .unlock => true
  | _ => false

/-- The call has taken the mutex. -/
def took : Call (AllPc V E) → Bool
  | .running (.body _) | .running .unlock | .returned => true
  | _ => false

/-- Who holds the mutex, and how the order of the callbacks compares with the bodies run so far. -/
inductive Mutex (results : List (Result V E)) (c : AllCombinator V E) (calls : Nat → Call (AllPc V E))
    (done : List Nat) : Prop where
  | free (unlocked : c.mutex_ = false) (order : c.order = done) (none : Nobody holds calls)
  | body (i : Nat) (r : Result V E) (locked : c.mutex_ = true) (order : c.order = done ++ [i])
      (holder : calls i = .running (.body r)) (result : results[i]? = some r) (only : Only holds calls i)
  | unlock (i : Nat) (locked : c.mutex_ = true) (order : c.order = done)
      (holder : calls i = .running .unlock) (only : Only holds calls i)

/-- The invariant of the members and the calls. -/
structure Inv (results : List (Result V E)) (c : AllCombinator V E) (calls : Nat → Call (AllPc V E)) :
    Prop where
  bodies : ∃ done, Progress results c done ∧ Mutex results c calls done
  nodup : c.order.Nodup
  took : ∀ i, i ∈ c.order ↔ took (calls i) = true
  lt : ∀ i ∈ c.order, i < results.length
  entered : ∀ i r, calls i = .running (.lock r) → results[i]? = some r

/-- Who is in the order, after a step of call `i` that does not take the mutex. -/
theorem Inv.took_update {results : List (Result V E)} {c : AllCombinator V E}
    {calls : Nat → Call (AllPc V E)} (h : Inv results c calls) {i : Nat} {x : Call (AllPc V E)}
    (hx : AllCombinator.took x = AllCombinator.took (calls i)) (j : Nat) :
    j ∈ c.order ↔ AllCombinator.took (Function.update calls i x j) = true := by
  rw [h.took j]
  by_cases hj : j = i
  · subst hj
    rw [Function.update_self, hx]
  · rw [Function.update_of_ne hj]

theorem Inv.entered_update {results : List (Result V E)} {c : AllCombinator V E}
    {calls : Nat → Call (AllPc V E)} (h : Inv results c calls) {i : Nat} {x : Call (AllPc V E)}
    (hx : ∀ r, x = .running (.lock r) → results[i]? = some r) (j : Nat) (r : Result V E)
    (hj : Function.update calls i x j = .running (.lock r)) : results[j]? = some r := by
  by_cases hji : j = i
  · subst hji
    rw [Function.update_self] at hj
    exact hx r hj
  · rw [Function.update_of_ne hji] at hj
    exact h.entered j r hj

/-- Each callback takes the mutex once. -/
theorem Inv.order_length_le {results : List (Result V E)} {c : AllCombinator V E}
    {calls : Nat → Call (AllPc V E)} (h : Inv results c calls) : c.order.length ≤ results.length := by
  have hsub : c.order ⊆ List.range results.length := fun i hi => List.mem_range.mpr (h.lt i hi)
  simpa using (List.subperm_of_subset h.nodup hsub).length_le

/-- When all have taken it, the order is one of all callbacks. -/
theorem Inv.order_perm {results : List (Result V E)} {c : AllCombinator V E}
    {calls : Nat → Call (AllPc V E)} (h : Inv results c calls) (hfull : c.order.length = results.length) :
    c.order.Perm (List.range results.length) := by
  have hsub : c.order ⊆ List.range results.length := fun i hi => List.mem_range.mpr (h.lt i hi)
  refine (List.subperm_of_subset h.nodup hsub).perm_of_length_le ?_
  rw [List.length_range, hfull]

/-- A call in its body is the one that holds the mutex. -/
theorem Inv.at_body {results : List (Result V E)} {c : AllCombinator V E}
    {calls : Nat → Call (AllPc V E)} (h : Inv results c calls) {i : Nat} {r : Result V E}
    (hi : calls i = .running (.body r)) :
    ∃ done, Progress results c done ∧ c.mutex_ = true ∧ c.order = done ++ [i] ∧
      results[i]? = some r ∧ done.length < results.length ∧ Only holds calls i := by
  obtain ⟨done, hprogress, hmutex⟩ := h.bodies
  have hholds : holds (calls i) = true := by rw [hi]; rfl
  cases hmutex with
  | free unlocked order none => exact (none.not hholds).elim
  | body j r' locked order holder result only =>
      obtain rfl := only.eq hholds
      rw [hi] at holder
      cases holder
      have hle := h.order_length_le
      rw [order, List.length_append] at hle
      exact ⟨done, hprogress, locked, order, result, hle, only⟩
  | unlock j locked order holder only =>
      obtain rfl := only.eq hholds
      rw [hi] at holder
      cases holder

theorem Inv.at_unlock {results : List (Result V E)} {c : AllCombinator V E}
    {calls : Nat → Call (AllPc V E)} (h : Inv results c calls) {i : Nat}
    (hi : calls i = .running .unlock) :
    Progress results c c.order ∧ Only holds calls i := by
  obtain ⟨done, hprogress, hmutex⟩ := h.bodies
  have hholds : holds (calls i) = true := by rw [hi]; rfl
  cases hmutex with
  | free unlocked order none => exact (none.not hholds).elim
  | body j r locked order holder result only =>
      obtain rfl := only.eq hholds
      rw [hi] at holder
      cases holder
  | unlock j locked order holder only =>
      obtain rfl := only.eq hholds
      exact ⟨order ▸ hprogress, only⟩

/-! ## Every step keeps the invariant -/

theorem inv_init [Inhabited V] {results : List (Result V E)} (h : results ≠ []) :
    Inv results { results_ := List.replicate results.length default } fun _ => .idle := by
  have hpos : 0 < results.length := List.length_pos_iff.mpr h
  refine ⟨⟨[], .collecting [] rfl hpos rfl rfl rfl (by simp) rfl rfl, .free rfl rfl fun _ => rfl⟩,
    List.nodup_nil, ?_, ?_, ?_⟩
  · intro i
    simp [AllCombinator.took]
  · intro i hi
    cases hi
  · intro i r hi
    cases hi

/-- A call that does not hold the mutex can change. -/
theorem Mutex.update {results : List (Result V E)} {c : AllCombinator V E}
    {calls : Nat → Call (AllPc V E)} {done : List Nat} (h : Mutex results c calls done) {i : Nat}
    {x : Call (AllPc V E)} (hi : holds (calls i) = false) (hx : holds x = false) :
    Mutex results c (Function.update calls i x) done := by
  have hsame : ∀ j, holds (calls j) = true → Function.update calls i x j = calls j := by
    intro j hj
    refine Function.update_of_ne ?_ _ _
    rintro rfl
    rw [hi] at hj
    cases hj
  cases h with
  | free unlocked order none => exact .free unlocked order (none.other hx)
  | body j r locked order holder result only =>
      exact .body j r locked order ((hsame j only.holder).trans holder) result (only.other hi hx)
  | unlock j locked order holder only =>
      exact .unlock j locked order ((hsame j only.holder).trans holder) (only.other hi hx)

theorem Inv.enter {results : List (Result V E)} {c : AllCombinator V E}
    {calls : Nat → Call (AllPc V E)} (h : Inv results c calls) {i : Nat} {r : Result V E}
    (hi : calls i = .idle) (hr : results[i]? = some r) :
    Inv results c (Function.update calls i (.running (.lock r))) := by
  obtain ⟨done, hprogress, hmutex⟩ := h.bodies
  refine ⟨⟨done, hprogress, hmutex.update (by rw [hi]; rfl) rfl⟩, h.nodup, ?_, h.lt, ?_⟩
  · exact h.took_update (by rw [hi]; rfl)
  · refine h.entered_update ?_
    intro r' hr'
    cases hr'
    exact hr

theorem Inv.lock {results : List (Result V E)} {c : AllCombinator V E}
    {calls : Nat → Call (AllPc V E)} (h : Inv results c calls) {i : Nat} {r : Result V E}
    (hi : calls i = .running (.lock r)) (hfree : c.mutex_ = false) :
    Inv results ({ c with mutex_ := true, order := c.order ++ [i] })
      (Function.update calls i (.running (.body r))) := by
  obtain ⟨done, hprogress, hmutex⟩ := h.bodies
  have hr := h.entered i r hi
  have hnew : i ∉ c.order := by
    rw [h.took i, hi]
    exact Bool.false_ne_true
  cases hmutex with
  | body j r' locked | unlock j locked => rw [hfree] at locked; cases locked
  | free unlocked order none =>
      refine ⟨⟨done, hprogress.with_lock _ _, .body i r rfl ?_ (Function.update_self ..) hr ?_⟩,
        ?_, ?_, ?_, ?_⟩
      · rw [order]
      · exact none.take rfl
      · exact List.nodup_append.mpr ⟨h.nodup, List.nodup_singleton i, by
          intro j hj k hk
          obtain rfl := List.mem_singleton.mp hk
          rintro rfl
          exact hnew hj⟩
      · intro j
        rw [List.mem_append, List.mem_singleton, h.took j]
        by_cases hj : j = i
        · subst hj
          rw [Function.update_self]
          simp [AllCombinator.took]
        · rw [Function.update_of_ne hj]
          simp [hj]
      · intro j hj
        rcases List.mem_append.mp hj with hj | hj
        · exact h.lt j hj
        · obtain rfl := List.mem_singleton.mp hj
          exact (List.getElem?_eq_some_iff.mp hr).1
      · exact h.entered_update (by simp)

theorem Inv.body {results : List (Result V E)} {c c' : AllCombinator V E}
    {calls : Nat → Call (AllPc V E)} (h : Inv results c calls) {i : Nat} {r : Result V E}
    (hi : calls i = .running (.body r)) (hbody : AllCombinator.body results.length i r c = .ok c') :
    Inv results c' (Function.update calls i (.running .unlock)) := by
  obtain ⟨done, hprogress, hlocked, horder, hr, hlt, honly⟩ := h.at_body hi
  rcases body_spec hprogress hr hlt with ⟨c'', hok, hprogress', hmutex_, horder'⟩ | ⟨hbad, -⟩
  · rw [hbody] at hok
    cases hok
    have htook := h.took_update (i := i) (x := .running .unlock) (by rw [hi]; rfl)
    have hentered := h.entered_update (i := i) (x := .running .unlock) (by simp)
    refine ⟨⟨done ++ [i], hprogress', .unlock i ?_ ?_ (Function.update_self ..) ?_⟩, ?_, ?_, ?_, ?_⟩
    · rw [hmutex_, hlocked]
    · rw [horder', horder]
    · exact honly.keep rfl
    · rw [horder']
      exact h.nodup
    · rw [horder']
      exact htook
    · rw [horder']
      exact h.lt
    · exact hentered
  · rw [hbody] at hbad
    cases hbad

theorem Inv.unlock {results : List (Result V E)} {c : AllCombinator V E}
    {calls : Nat → Call (AllPc V E)} (h : Inv results c calls) {i : Nat}
    (hi : calls i = .running .unlock) :
    Inv results ({ c with mutex_ := false }) (Function.update calls i .returned) := by
  obtain ⟨hprogress, honly⟩ := h.at_unlock hi
  refine ⟨⟨c.order, hprogress.with_lock false c.order, .free rfl rfl ?_⟩, h.nodup, ?_, h.lt, ?_⟩
  · exact honly.drop rfl
  · exact h.took_update (by rw [hi]; rfl)
  · exact h.entered_update (by simp)

/-! ## Runs -/

/-- The input of callback `i` ended with an error. -/
def failsAt (results : List (Result V E)) (i : Nat) : Bool :=
  match results[i]? with
  | some (.fail _) => true
  | _ => false

/-- The first failing callback in the order in which they took the mutex. -/
def firstFailing (results : List (Result V E)) (order : List Nat) : Option Nat :=
  order.find? (failsAt results)

/-- The first failing callback is the `n`-th, and last, to take the mutex. -/
def LastIsFirst (results : List (Result V E)) (order : List Nat) : Prop :=
  order.length = results.length ∧ firstFailing results order = order.getLast?

theorem failsAt_of_fail {results : List (Result V E)} {i : Nat} {e : E}
    (h : results[i]? = some (.fail e)) : failsAt results i = true := by
  rw [failsAt, h]

/-- A callback that brought a value does not fail. -/
theorem Brings.not_failsAt {results : List (Result V E)} {done : List Nat} {vs : List V}
    (h : Brings results done vs) {i : Nat} (hi : i ∈ done) : failsAt results i = false := by
  have hmem : results[i]? ∈ done.map (results[·]?) := List.mem_map_of_mem hi
  rw [h] at hmem
  obtain ⟨v, -, hv⟩ := List.mem_map.mp hmem
  rw [failsAt, ← hv]

theorem Brings.firstFailing_append {results : List (Result V E)} {pre : List Nat} {vs : List V}
    (h : Brings results pre vs) {i : Nat} {e : E} (hi : results[i]? = some (.fail e))
    (post : List Nat) : firstFailing results (pre ++ i :: post) = some i := by
  have hpre : pre.find? (failsAt results) = none := by
    rw [List.find?_eq_none]
    intro j hj
    rw [h.not_failsAt hj]
    exact Bool.false_ne_true
  rw [firstFailing, List.find?_append, hpre, List.find?_cons_of_pos (failsAt_of_fail hi)]
  rfl

/-- The steps a call has left. -/
def AllPc.rank : AllPc V E → Nat
  | .lock _ => 2
  | .body _ => 1
  | .unlock => 0

/-- A step that a call can take. -/
theorem exec_cases {n i : Nat} {c : AllCombinator V E} {pc : AllPc V E}
    {o : Except Violation (AllCombinator V E × Option (AllPc V E))} (h : exec n i c pc = some o) :
    (∃ r, pc = .lock r ∧ c.mutex_ = false ∧
        o = .ok ({ c with mutex_ := true, order := c.order ++ [i] }, some (.body r))) ∨
      (∃ r, pc = .body r ∧ o = (body n i r c).map fun c => (c, some .unlock)) ∨
      (pc = .unlock ∧ o = .ok ({ c with mutex_ := false }, none)) := by
  cases pc with
  | lock r =>
      simp only [exec] at h
      split at h
      · cases h
      · next hfree => exact .inl ⟨r, rfl, by simpa using hfree, (Option.some.inj h).symm⟩
  | body r => exact .inr (.inl ⟨r, rfl, (Option.some.inj h).symm⟩)
  | unlock => exact .inr (.inr ⟨rfl, (Option.some.inj h).symm⟩)

/-- A call that waits for the mutex waits for one that can go on. -/
theorem Inv.not_blocked {results : List (Result V E)} {c : AllCombinator V E} {calls : Nat → Call (AllPc V E)}
    (h : Inv results c calls) {i : Nat} {pc : AllPc V E} (hi : calls i = .running pc) :
    ∃ j pc', calls j = .running pc' ∧ exec results.length j c pc' ≠ none := by
  cases pc with
  | body r => exact ⟨i, _, hi, by simp [exec]⟩
  | unlock => exact ⟨i, _, hi, by simp [exec]⟩
  | lock r =>
      obtain ⟨done, -, hmutex⟩ := h.bodies
      cases hmutex with
      | free unlocked => exact ⟨i, _, hi, by simp [exec, unlocked]⟩
      | body j r' locked order holder => exact ⟨j, _, holder, by simp [exec]⟩
      | unlock j locked order holder => exact ⟨j, _, holder, by simp [exec]⟩

variable [Inhabited V] {results : List (Result V E)} {executor : Nat → Option ι}
  {s : Run (AllCombinator V E) (AllPc V E) ι}

/-- The invariant holds in every run; and the only check that fails is the one of a released promise, when
    the error of the `n`-th callback is the first. -/
theorem reachable_inv (hne : results ≠ []) (h : (allSystem results executor).Reachable s) :
    Inv results s.shared s.calls ∧ ∀ v, s.violated = some v →
      v = .noSharedState ∧ LastIsFirst results s.shared.order := by
  have hinv := (all results executor).invariant_shared (inv_init hne) ?_ ?_ ?_ h
  · refine ⟨hinv.1, ?_⟩
    intro v hv
    obtain ⟨i, pc, hrun, hexec⟩ := hinv.2 v hv
    rcases exec_cases hexec with ⟨r, rfl, -, ho⟩ | ⟨r, rfl, ho⟩ | ⟨rfl, ho⟩
    · cases ho
    · obtain ⟨done, hprogress, -, horder, hr, hlt, -⟩ := hinv.1.at_body hrun
      rcases body_spec hprogress hr hlt with ⟨c', hok, -⟩ | ⟨hbad, hlast, ⟨vs, hbrings⟩, e, he⟩
      · rw [hok] at ho
        cases ho
      · rw [hbad] at ho
        cases ho
        refine ⟨rfl, ?_, ?_⟩
        · rw [horder, List.length_append]
          exact hlast
        · rw [horder, hbrings.firstFailing_append he [], List.getLast?_concat]
    · cases ho
  · intro m calls i r hm hi hr
    exact hm.enter hi hr
  · intro m calls i pc m' pc' hm hi hexec
    rcases exec_cases hexec with ⟨r, rfl, hfree, ho⟩ | ⟨r, rfl, ho⟩ | ⟨rfl, ho⟩
    · cases ho
      exact hm.lock hi hfree
    · cases hbody : body results.length i r m with
      | error v =>
          rw [hbody] at ho
          cases ho
      | ok c' =>
          rw [hbody] at ho
          cases ho
          exact hm.body hi hbody
    · cases ho
  · intro m calls i pc m' hm hi hexec
    rcases exec_cases hexec with ⟨r, rfl, hfree, ho⟩ | ⟨r, rfl, ho⟩ | ⟨rfl, ho⟩
    · cases ho
    · cases hbody : body results.length i r m <;> rw [hbody] at ho <;> cases ho
    · cases ho
      exact hm.unlock hi

/-- Every run ends. -/
theorem allSystem_terminates (h : (allSystem results executor).Reachable s) :
    (allSystem results executor).Terminates s := by
  refine (all results executor).terminates AllPc.rank 2 (fun _ => Nat.le_refl 2) ?_ h
  intro i m pc m' pc' hexec
  rcases exec_cases hexec with ⟨r, rfl, -, ho⟩ | ⟨r, rfl, ho⟩ | ⟨rfl, ho⟩
  · cases ho
    exact Nat.lt_succ_self 1
  · cases hbody : body results.length i r m with
    | error v =>
        rw [hbody] at ho
        cases ho
    | ok c' =>
        rw [hbody] at ho
        cases ho
        exact Nat.lt_succ_self 0
  · cases ho

/-- **Where a run ends.** Unless a check has failed, all callbacks have run. -/
theorem at_end (hne : results ≠ []) (h : (allSystem results executor).Reachable s)
    (hq : (allSystem results executor).Quiescent s) (hv : s.violated = none) :
    (∀ i < results.length, s.calls i = .returned) ∧ s.shared.order.length = results.length ∧
      Progress results s.shared s.shared.order := by
  obtain ⟨hinv, -⟩ := reachable_inv hne h
  have hreturned : ∀ i < results.length, s.calls i = .returned := by
    intro i hi
    exact Setting.returned_of_quiescent h hq hv (fun i pc => hinv.not_blocked) hi
  refine ⟨hreturned, ?_, ?_⟩
  · refine Nat.le_antisymm hinv.order_length_le ?_
    have hsub : List.range results.length ⊆ s.shared.order := by
      intro i hi
      rw [hinv.took i, hreturned i (List.mem_range.mp hi)]
      rfl
    simpa using (List.subperm_of_subset List.nodup_range hsub).length_le
  · obtain ⟨done, hprogress, hmutex⟩ := hinv.bodies
    have hnone : ∀ i, holds (s.calls i) = false := by
      intro i
      by_cases hi : i < results.length
      · rw [hreturned i hi]
        rfl
      · have hidle : s.calls i = .idle := by
          by_contra hidle
          exact hi (Setting.lt_size h hidle)
        rw [hidle]
        rfl
    cases hmutex with
    | free unlocked order none => rwa [order]
    | body i r locked order holder =>
        have hi := hnone i
        rw [holder] at hi
        cases hi
    | unlock i locked order holder => rwa [order]

/-! ## All inputs succeed -/

/-- All values have been delivered, by callback `i`, the last to take the mutex, in the order in which the
    callbacks took it. -/
structure DeliveredAll (vs : List V) (c : AllCombinator V E) (i : Nat) (ws : List V) : Prop where
  output : c.output = [(i, .ok ws)]
  full : c.order.length = vs.length
  last : c.order.getLast? = some i
  values : ws.map some = c.order.map (vs[·]?)
  length : ws.length = vs.length
  perm : ws.Perm vs

omit [Inhabited V] in
theorem brings_ok {vs ws : List V} {done : List Nat}
    (h : Brings (vs.map (Result.ok (E := E))) done ws) : ws.map some = done.map (vs[·]?) := by
  have hok : Function.Injective (Option.map (Result.ok (V := V) (E := E))) :=
    Option.map_injective fun v w h => by injection h
  refine List.map_injective_iff.mpr hok ?_
  unfold Brings at h
  simp only [List.getElem?_map] at h
  simpa [List.map_map, Function.comp_def] using h.symm

omit [Inhabited V] in
/-- A list that reads `vs` at each index once is a permutation of `vs`. -/
theorem perm_of_reads {vs ws : List V} {order : List Nat} (h : ws.map some = order.map (vs[·]?))
    (hperm : order.Perm (List.range vs.length)) : ws.Perm vs := by
  have hreads : (List.range vs.length).map (vs[·]?) = vs.map some := by
    refine List.ext_getElem (by simp) ?_
    intro i hi _
    simp
  refine (List.map_perm_map_iff (Option.some_injective V)).mp ?_
  rw [h, ← hreads]
  exact hperm.map _

omit [Inhabited V] in
theorem ok_ne_fail {vs : List V} {i : Nat} {e : E} : (vs.map Result.ok)[i]? ≠ some (.fail e) := by
  intro hi
  rw [List.getElem?_map] at hi
  cases hv : vs[i]? <;> rw [hv] at hi <;> cases hi

omit [Inhabited V] in
theorem not_lastIsFirst_of_ok {vs : List V} (hne : vs ≠ []) (order : List Nat) :
    ¬ LastIsFirst (vs.map (Result.ok (E := E))) order := by
  rintro ⟨hfull, hfirst⟩
  have hnone : firstFailing (vs.map (Result.ok (E := E))) order = none := by
    refine List.find?_eq_none.mpr ?_
    intro i _
    unfold failsAt
    split
    · next e he => exact absurd he ok_ne_fail
    · exact Bool.false_ne_true
  rw [hnone] at hfirst
  rw [List.getLast?_eq_none_iff.mp hfirst.symm, List.length_map] at hfull
  exact hne (List.length_eq_zero_iff.mp hfull.symm)

omit [Inhabited V] in
/-- After all bodies, all values have been delivered. -/
theorem deliveredAll {vs : List V} {c : AllCombinator V E}
    (h : Progress (vs.map (Result.ok (E := E))) c c.order)
    (hperm : c.order.Perm (List.range vs.length)) : ∃ i ws, DeliveredAll vs c i ws := by
  have hfull : c.order.length = vs.length := by simpa using hperm.length_eq
  cases h with
  | collecting ws brings few =>
      rw [List.length_map] at few
      omega
  | failed pre i post ws e split brings fails => exact absurd fails ok_ne_fail
  | collected ws brings last end_ full output =>
      have hreads := brings_ok brings
      exact ⟨last, ws, output, hfull, end_, hreads, brings.length ▸ hfull,
        perm_of_reads hreads hperm⟩

/-! ## Some input fails -/

/-- The error of callback `i`, the first failing one, has been delivered, by that callback. -/
structure DeliveredError (results : List (Result V E)) (c : AllCombinator V E) (i : Nat) (e : E) :
    Prop where
  output : c.output = [(i, .fail e)]
  first : firstFailing results c.order = some i
  fails : results[i]? = some (.fail e)

omit [Inhabited V] in
/-- While values are collected, no failing callback is among those that have run. -/
theorem Brings.not_full {done : List Nat} {vs : List V} (h : Brings results done vs)
    (hfail : ∃ e, .fail e ∈ results) : ¬ done.Perm (List.range results.length) := by
  intro hperm
  obtain ⟨e, hmem⟩ := hfail
  obtain ⟨i, hi, he⟩ := List.mem_iff_getElem.mp hmem
  have hdone : i ∈ done := hperm.mem_iff.mpr (List.mem_range.mpr hi)
  have hfails := failsAt_of_fail (List.getElem?_eq_some_iff.mpr ⟨hi, he⟩)
  rw [h.not_failsAt hdone] at hfails
  cases hfails

omit [Inhabited V] in
/-- After all bodies, the first error has been delivered, and its callback was not the last. -/
theorem deliveredError {c : AllCombinator V E} (hfail : ∃ e, .fail e ∈ results)
    (h : Progress results c c.order) (hperm : c.order.Perm (List.range results.length)) :
    (∃ i e, DeliveredError results c i e) ∧ ¬ LastIsFirst results c.order := by
  have hfull : c.order.length = results.length := by simpa using hperm.length_eq
  cases h with
  | collecting vs brings few => exact absurd hfull (Nat.ne_of_lt few)
  | collected vs brings last end_ full output => exact absurd hperm (brings.not_full hfail)
  | failed pre i post vs e split brings fails early error_ output =>
      have hfirst : firstFailing results c.order = some i := by
        rw [split]
        exact brings.firstFailing_append fails post
      refine ⟨⟨i, e, output, hfirst, fails⟩, ?_⟩
      rintro ⟨-, hlast⟩
      -- the last callback comes after `i`, so it is another one
      have hnodup : c.order.Nodup := hperm.nodup_iff.mpr List.nodup_range
      rw [split] at hnodup
      have hnot : i ∉ post := (List.nodup_cons.mp (List.nodup_append.mp hnodup).2.1).1
      cases post with
      | nil =>
          rw [split, List.length_append, List.length_singleton] at hfull
          omega
      | cons j post =>
          rw [hfirst, split, List.getLast?_append_of_ne_nil _ (List.cons_ne_nil _ _),
            List.getLast?_cons_cons] at hlast
          exact hnot (List.mem_of_getLast? hlast.symm)

omit [Inhabited V] in
/-- The bodies run so far come first in the order. -/
theorem Mutex.order_eq {c : AllCombinator V E} {calls : Nat → Call (AllPc V E)} {done : List Nat}
    (h : Mutex results c calls done) :
    ∃ rest, c.order = done ++ rest ∧ ∀ i ∈ rest, calls i ≠ .returned := by
  cases h with
  | free unlocked order | unlock i locked order => exact ⟨[], by simp [order], by simp⟩
  | body i r locked order holder =>
      refine ⟨[i], order, ?_⟩
      intro j hj
      rw [List.mem_singleton.mp hj, holder]
      intro hret
      cases hret

end AllCombinator

open AllCombinator

variable [Inhabited V] {executor : Nat → Option ι} {s : Run (AllCombinator V E) (AllPc V E) ι}

/-- **Without failure, `All` delivers all values, once.** For every list of values, every order in which
    the callbacks take the mutex, and every state on the way: no check fails, the index into `results_`
    included; the output has not been set, or it has been set once, by the last callback, to the values in
    the order of the callbacks. Every run ends, and at its end the output has been set. -/
theorem all_delivers_values {vs : List V} (hne : vs ≠ [])
    (h : (allSystem (vs.map (Result.ok (E := E))) executor).Reachable s) :
    s.violated = none ∧
      (s.shared.output = [] ∨ ∃ i ws, DeliveredAll vs s.shared i ws) ∧
      (allSystem (vs.map (Result.ok (E := E))) executor).Terminates s ∧
      ((allSystem (vs.map (Result.ok (E := E))) executor).Quiescent s →
        (∀ i < vs.length, s.calls i = .returned) ∧ ∃ i ws, DeliveredAll vs s.shared i ws) := by
  have hne' : vs.map (Result.ok (E := E)) ≠ [] := by simpa using hne
  have hlen : (vs.map (Result.ok (E := E))).length = vs.length := List.length_map _
  obtain ⟨hinv, hviolated⟩ := reachable_inv hne' h
  have hv : s.violated = none := by
    rw [Option.eq_none_iff_forall_ne_some]
    intro v hv
    exact not_lastIsFirst_of_ok hne _ (hviolated v hv).2
  refine ⟨hv, ?_, allSystem_terminates h, ?_⟩
  · obtain ⟨done, hprogress, hmutex⟩ := hinv.bodies
    by_cases hout : s.shared.output = []
    · exact .inl hout
    · -- only the last body sets the output
      have hfull : done.length = (vs.map (Result.ok (E := E))).length := by
        cases hprogress with
        | collecting ws brings few error_ counter_ results_ size promise output => exact absurd output hout
        | failed pre i post ws e split brings fails => exact absurd fails ok_ne_fail
        | collected ws brings last end_ full output => exact full
      have horder : s.shared.order = done := by
        cases hmutex with
        | free unlocked order | unlock i locked order => exact order
        | body i r locked order =>
            have hle := hinv.order_length_le
            rw [order, List.length_append, List.length_singleton] at hle
            omega
      rw [← horder] at hprogress hfull
      exact .inr (deliveredAll hprogress (hlen ▸ hinv.order_perm hfull))
  · intro hq
    obtain ⟨hreturned, hfull, hprogress⟩ := at_end hne' h hq hv
    rw [hlen] at hreturned
    exact ⟨hreturned, deliveredAll hprogress (hlen ▸ hinv.order_perm hfull)⟩

/-- Two inputs, the second of which is ready before the loop and delivers first. -/
theorem all_delivers_values_second_first :
    ∃ s, (allSystem (V := Nat) (E := Unit) (ι := Unit) ([7, 8].map Result.ok) fun _ => none).Reachable s ∧
      s.shared.output = [(0, .ok [8, 7])] ∧
      ∃ i ws, DeliveredAll [7, 8] s.shared i ws := by
  have hrun : ∃ s, System.run (all (E := Unit) (ι := Unit) ([7, 8].map Result.ok) fun _ => none).next
      { shared := { results_ := [0, 0] } }
      [.fulfil 1, .subscribe, .subscribe, .enter 1, .exec 1, .exec 1, .exec 1, .fulfil 0, .enter 0,
        .exec 0, .exec 0, .exec 0] = some s ∧ s.shared.output = [(0, .ok [8, 7])] := ⟨_, rfl, rfl⟩
  obtain ⟨s, hs, hout⟩ := hrun
  have h : (allSystem (V := Nat) (E := Unit) (ι := Unit) ([7, 8].map Result.ok) fun _ => none).Reachable
      s := System.reachable_of_run _ hs
  refine ⟨s, h, hout, ?_⟩
  rcases (all_delivers_values (by simp) h).2.1 with hnone | hsome
  · rw [hout] at hnone
    cases hnone
  · exact hsome

variable {results : List (Result V E)}

/-- **With a failure, `All` delivers the first error once, unless the first failing callback is the last
    to take the mutex.** As long as that has not happened, no check has failed, and the output has not been
    set and no failing callback has returned, or the output has been set once, to the error of the first
    failing callback and by that callback. Every run ends, and at its end this is exactly the condition
    under which the first error has been delivered and no check has failed. -/
theorem all_delivers_first_error_iff (hfail : ∃ e, .fail e ∈ results)
    (h : (allSystem results executor).Reachable s) :
    (¬ LastIsFirst results s.shared.order → s.violated = none ∧
        ((s.shared.output = [] ∧ ∀ i, s.calls i = .returned → failsAt results i = false) ∨
          ∃ i e, DeliveredError results s.shared i e)) ∧
      (allSystem results executor).Terminates s ∧
      ((allSystem results executor).Quiescent s →
        ((s.violated = none ∧ ∃ i e, DeliveredError results s.shared i e) ↔
          ¬ LastIsFirst results s.shared.order)) := by
  have hne : results ≠ [] := by
    rintro rfl
    obtain ⟨e, he⟩ := hfail
    cases he
  obtain ⟨hinv, hviolated⟩ := reachable_inv hne h
  have hv : ¬ LastIsFirst results s.shared.order → s.violated = none := by
    intro hnot
    rw [Option.eq_none_iff_forall_ne_some]
    intro v hv
    exact hnot (hviolated v hv).2
  refine ⟨fun hnot => ⟨hv hnot, ?_⟩, allSystem_terminates h, ?_⟩
  · obtain ⟨done, hprogress, hmutex⟩ := hinv.bodies
    obtain ⟨rest, horder, hrest⟩ := hmutex.order_eq
    cases hprogress with
    | collecting vs brings few error_ counter_ results_ size promise output =>
        refine .inl ⟨output, ?_⟩
        intro i hi
        have hmem : i ∈ s.shared.order := by
          rw [hinv.took i, hi]
          rfl
        rw [horder, List.mem_append] at hmem
        exact brings.not_failsAt (hmem.resolve_right fun hmem => hrest i hmem hi)
    | collected vs brings last end_ full output =>
        have hle := hinv.order_length_le
        rw [horder, List.length_append, full] at hle
        obtain rfl : rest = [] := List.length_eq_zero_iff.mp (by omega)
        rw [List.append_nil] at horder
        exact absurd (horder ▸ hinv.order_perm (horder ▸ full)) (brings.not_full hfail)
    | failed pre i post vs e split brings fails early error_ output =>
        refine .inr ⟨i, e, output, ?_, fails⟩
        rw [horder, split, List.append_assoc]
        exact brings.firstFailing_append fails _
  · intro hq
    constructor
    · rintro ⟨hv, -⟩
      obtain ⟨-, hfull, hprogress⟩ := at_end hne h hq hv
      exact (deliveredError hfail hprogress (hinv.order_perm hfull)).2
    · intro hnot
      obtain ⟨-, hfull, hprogress⟩ := at_end hne h hq (hv hnot)
      exact ⟨hv hnot, (deliveredError hfail hprogress (hinv.order_perm hfull)).1⟩

/-- Two inputs, the first of which fails, in the order in which they are subscribed. -/
theorem all_delivers_first_error_of_first :
    ∃ s, (allSystem (V := Nat) (E := Nat) (ι := Unit) [.fail 5, .ok 7] fun _ => none).Reachable s ∧
      s.calls 1 = .returned ∧ s.violated = none ∧
      ∃ i e, DeliveredError [.fail 5, .ok 7] s.shared i e := by
  have hrun : ∃ s, System.run (all (V := Nat) (ι := Unit) [.fail 5, .ok 7] fun _ => none).next
      { shared := { results_ := [0, 0] } }
      [.fulfil 0, .subscribe, .enter 0, .exec 0, .exec 0, .exec 0, .subscribe, .fulfil 1, .enter 1,
        .exec 1, .exec 1, .exec 1] = some s ∧ s.calls 1 = .returned ∧ s.shared.order = [0, 1] ∧
          s.shared.output = [(0, .fail 5)] := ⟨_, rfl, rfl, rfl, rfl⟩
  obtain ⟨s, hs, hreturned, horder, hout⟩ := hrun
  have h : (allSystem (V := Nat) (E := Nat) (ι := Unit) [.fail 5, .ok 7] fun _ => none).Reachable s :=
    System.reachable_of_run _ hs
  have hnot : ¬ LastIsFirst [Result.fail (V := Nat) 5, .ok 7] s.shared.order := by
    rw [horder]
    rintro ⟨-, hfirst⟩
    exact absurd hfirst (by decide)
  obtain ⟨hv, hdelivered⟩ := (all_delivers_first_error_iff ⟨5, by simp⟩ h).1 hnot
  refine ⟨s, h, hreturned, hv, hdelivered.resolve_left ?_⟩
  rintro ⟨hnone, -⟩
  rw [hout] at hnone
  cases hnone

/-- The error of the last callback comes first: its body reaches `SetValue` on the released promise. -/
theorem all_not_delivers_last_error :
    ¬ ∀ s, (allSystem (V := Nat) (E := Nat) (ι := Unit) [.ok 7, .fail 5] fun _ => none).Reachable s →
      s.violated = none := by
  intro hclaim
  have hrun : ∃ s, System.run (all (V := Nat) (ι := Unit) [.ok 7, .fail 5] fun _ => none).next
      { shared := { results_ := [0, 0] } }
      [.fulfil 0, .subscribe, .enter 0, .exec 0, .exec 0, .exec 0, .subscribe, .fulfil 1, .enter 1,
        .exec 1, .exec 1] = some s ∧ s.violated = some .noSharedState := ⟨_, rfl, rfl⟩
  obtain ⟨s, hs, hv⟩ := hrun
  rw [hclaim s (System.reachable_of_run _ hs)] at hv
  cases hv

end Combine
end Tpcc
