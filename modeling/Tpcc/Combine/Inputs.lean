import Mathlib.Algebra.Order.BigOperators.Group.Finset
import Tpcc.Transition.Exclusive
import Tpcc.Futures.Rendezvous

/-!
# `Combine.Inputs` — the part that `All` and `FirstOf` share

Both combinators subscribe one lambda to each of their `n` inputs in a loop, and return. Meanwhile other
threads fulfil the inputs, and executors start the callbacks of those inputs that have one; an input
that is ready already runs its callback inside the loop. The lambdas run concurrently, one atomic
operation on the combinator's members at a time.

The two differ in the members and in the lambda (`Lambda`). What is common is proved here for any lambda:
`Reachable.invariant_shared` reduces an invariant of all runs to the steps of the lambda, and
`returned_of_quiescent` and `ranked` say that every run ends with all callbacks returned, provided the
lambda does not block for ever.
-/

namespace Tpcc
namespace Combine

open Transition Futures

/-- The lambda of a combinator: its members `σ`, and the next operation `π` of a call in progress. A call
    that is not blocked makes one step: it fails a check, goes on, or returns. -/
structure Lambda (σ π V E : Type) where
  enter : Result V E → π
  exec : Nat → σ → π → Option (Except Violation (σ × Option π))

/-- One call of the lambda. -/
inductive Call (π : Type) where
  | idle
  | running (pc : π)
  | returned

/-- The combinator's members, the shared states of the inputs, the index of the `Subscribe` loop, the
    callback it is inside of, and the calls of the lambda. -/
structure Run (σ π ι : Type) where
  shared : σ
  inputs : Nat → Phase ι := fun _ => .fresh
  loop : Nat := 0
  inside : Option Nat := none
  calls : Nat → Call π := fun _ => .idle
  violated : Option Violation := none

/-- Who takes the next step: the thread that fulfils input `i`, the loop, the executor of input `i`, and
    the thread that calls the lambda for input `i`. -/
inductive Action where
  | fulfil (i : Nat)
  | subscribe
  | start (i : Nat)
  | enter (i : Nat)
  | exec (i : Nat)

section

variable {σ π V E ι : Type}

/-- What combining these inputs means. -/
structure Setting (σ π V E ι : Type) where
  lambda : Lambda σ π V E
  results : List (Result V E)
  executor : Nat → Option ι

namespace Setting

variable (C : Setting σ π V E ι)

/-- `inputs.size()`. -/
def size : Nat := C.results.length

def next (s : Run σ π ι) (a : Action) : Option (Run σ π ι) :=
  if s.violated.isSome then none else
    match a with
    | .fulfil i =>
        if i < C.size ∧ (s.inputs i).isSet = false then
          some { s with inputs := Function.update s.inputs i ((s.inputs i).set (C.executor i)) }
        else none
    | .subscribe =>
        if s.loop < C.size ∧ s.inside = none then
          let p := (s.inputs s.loop).subscribe (C.executor s.loop)
          some { s with
            inputs := Function.update s.inputs s.loop p
            loop := s.loop + 1
            inside := match p with | .calling _ => some s.loop | _ => none }
        else none
    | .start i =>
        match s.inputs i with
        | .queued e => some { s with inputs := Function.update s.inputs i (.calling (some e)) }
        | _ => none
    | .enter i =>
        match s.inputs i, C.results[i]? with
        | .calling _, some r =>
            some { s with
              inputs := Function.update s.inputs i .past
              calls := Function.update s.calls i (.running (C.lambda.enter r)) }
        | _, _ => none
    | .exec i =>
        match s.calls i with
        | .running pc =>
            match C.lambda.exec i s.shared pc with
            | none => none
            | some (.error v) => some { s with violated := some v }
            | some (.ok (shared, some pc)) =>
                some { s with shared, calls := Function.update s.calls i (.running pc) }
            | some (.ok (shared, none)) =>
                some { s with
                  shared
                  calls := Function.update s.calls i .returned
                  inside := if s.inside = some i then none else s.inside }
        | _ => none

/-- All runs, from members `shared`. -/
def system (shared : σ) : System (Run σ π ι) := System.ofNext { shared } C.next

/-! ## What a step can do -/

/-- What the loop is inside of after subscribing input `i`. -/
def insideOf (i : Nat) : Phase ι → Option Nat
  | .calling _ => some i
  | _ => none

inductive Stepped (s : Run σ π ι) : Run σ π ι → Prop where
  | fulfil {i : Nat} (lt : i < C.size) (unset : (s.inputs i).isSet = false) :
      Stepped s ({ s with inputs := Function.update s.inputs i ((s.inputs i).set (C.executor i)) })
  | subscribe (lt : s.loop < C.size) (outside : s.inside = none) :
      Stepped s ({ s with
        inputs := Function.update s.inputs s.loop ((s.inputs s.loop).subscribe (C.executor s.loop))
        loop := s.loop + 1
        inside := insideOf s.loop ((s.inputs s.loop).subscribe (C.executor s.loop)) })
  | start {i : Nat} {e : ι} (queued : s.inputs i = .queued e) :
      Stepped s ({ s with inputs := Function.update s.inputs i (.calling (some e)) })
  | enter {i : Nat} {on : Option ι} {r : Result V E} (calling : s.inputs i = .calling on)
      (result : C.results[i]? = some r) :
      Stepped s ({ s with
        inputs := Function.update s.inputs i .past
        calls := Function.update s.calls i (.running (C.lambda.enter r)) })
  | violate {i : Nat} {pc : π} {v : Violation} (running : s.calls i = .running pc)
      (failed : C.lambda.exec i s.shared pc = some (.error v)) : Stepped s { s with violated := some v }
  | goOn {i : Nat} {pc pc' : π} {shared : σ} (running : s.calls i = .running pc)
      (done : C.lambda.exec i s.shared pc = some (.ok (shared, some pc'))) :
      Stepped s ({ s with shared, calls := Function.update s.calls i (.running pc') })
  | return {i : Nat} {pc : π} {shared : σ} (running : s.calls i = .running pc)
      (done : C.lambda.exec i s.shared pc = some (.ok (shared, none))) :
      Stepped s ({ s with
        shared
        calls := Function.update s.calls i .returned
        inside := if s.inside = some i then none else s.inside })

variable {C}

theorem next_stepped {s s' : Run σ π ι} {a : Action} (h : C.next s a = some s') :
    s.violated = none ∧ C.Stepped s s' := by
  unfold next at h
  split at h
  · cases h
  · next hv =>
      refine ⟨by simpa using hv, ?_⟩
      cases a with
      | fulfil i =>
          simp only at h
          split at h
          · next hi => obtain rfl := Option.some.inj h; exact .fulfil hi.1 hi.2
          · cases h
      | subscribe =>
          simp only at h
          split at h
          · next hi => obtain rfl := Option.some.inj h; exact .subscribe hi.1 hi.2
          · cases h
      | start i =>
          simp only at h
          split at h
          · next e he => obtain rfl := Option.some.inj h; exact .start he
          · cases h
      | enter i =>
          simp only at h
          split at h
          · next on r hon hr => obtain rfl := Option.some.inj h; exact .enter hon hr
          · cases h
      | exec i =>
          simp only at h
          split at h
          · next pc hpc =>
              split at h
              · cases h
              · next v hexec => obtain rfl := Option.some.inj h; exact .violate hpc hexec
              · next shared pc' hexec => obtain rfl := Option.some.inj h; exact .goOn hpc hexec
              · next shared hexec => obtain rfl := Option.some.inj h; exact .return hpc hexec
          · cases h

theorem step_of_stepped {shared₀ : σ} {s s' : Run σ π ι} (hv : s.violated = none)
    (h : C.Stepped s s') : (C.system shared₀).step s s' := by
  cases h with
  | @fulfil i lt unset => exact ⟨.fulfil i, by simp [next, hv, lt, unset]⟩
  | subscribe lt outside => exact ⟨.subscribe, by simp [next, hv, lt, outside, insideOf]⟩
  | @start i e queued => exact ⟨.start i, by simp [next, hv, queued]⟩
  | @enter i on r calling result => exact ⟨.enter i, by simp [next, hv, calling, result]⟩
  | @violate i pc v running failed => exact ⟨.exec i, by simp [next, hv, running, failed]⟩
  | @goOn i pc pc' shared running done => exact ⟨.exec i, by simp [next, hv, running, done]⟩
  | @«return» i pc shared running done => exact ⟨.exec i, by simp [next, hv, running, done]⟩

/-! ## The inputs -/

/-- Input `i`: its shared state and its call agree with each other and with the loop. -/
structure Agrees (loop : Nat) (inside : Option Nat) (i : Nat) (p : Phase ι) (c : Call π) : Prop where
  idle : p.isPast = false ↔ c = .idle
  subscribed : p.isSubscribed = true ↔ i < loop
  inside : inside = some i → p.isSet = true ∧ i < loop ∧ (∀ e, p ≠ .queued e) ∧ c ≠ .returned

/-- A property of all inputs is kept by a step at one input, if that input and the others keep it. -/
theorem forall_update {P : Nat → Phase ι → Call π → Prop} {inputs : Nat → Phase ι}
    {calls : Nat → Call π} {i : Nat} {p : Phase ι} {c : Call π}
    (hothers : ∀ j, j ≠ i → P j (inputs j) (calls j)) (hi : P i p c) (j : Nat) :
    P j (Function.update inputs i p j) (Function.update calls i c j) := by
  by_cases hj : j = i
  · subst hj
    rw [Function.update_self, Function.update_self]
    exact hi
  · rw [Function.update_of_ne hj, Function.update_of_ne hj]
    exact hothers j hj

theorem forall_update_input {P : Nat → Phase ι → Call π → Prop} {inputs : Nat → Phase ι}
    {calls : Nat → Call π} {i : Nat} {p : Phase ι} (hothers : ∀ j, j ≠ i → P j (inputs j) (calls j))
    (hi : P i p (calls i)) (j : Nat) : P j (Function.update inputs i p j) (calls j) := by
  have h := forall_update (p := p) hothers hi j
  rwa [Function.update_eq_self] at h

theorem forall_update_call {P : Nat → Phase ι → Call π → Prop} {inputs : Nat → Phase ι}
    {calls : Nat → Call π} {i : Nat} {c : Call π} (hothers : ∀ j, j ≠ i → P j (inputs j) (calls j))
    (hi : P i (inputs i) c) (j : Nat) : P j (inputs j) (Function.update calls i c j) := by
  have h := forall_update (c := c) hothers hi j
  rwa [Function.update_eq_self] at h

/-- The inputs agree with the loop and the calls. -/
def AllAgree (C : Setting σ π V E ι) (s : Run σ π ι) : Prop :=
  s.loop ≤ C.size ∧ ∀ i, Agrees s.loop s.inside i (s.inputs i) (s.calls i)

theorem allAgree_init (shared₀ : σ) : C.AllAgree ({ shared := shared₀ } : Run σ π ι) := by
  refine ⟨Nat.zero_le _, fun i => ⟨⟨fun _ => rfl, fun _ => rfl⟩, ?_, by simp⟩⟩
  simp [Phase.isSubscribed]

/-- A call goes on, whatever else it does to the members. -/
theorem AllAgree.goOn {s : Run σ π ι} (h : C.AllAgree s) {i : Nat} {pc : π} (running : s.calls i = .running pc)
    (pc' : π) (shared : σ) :
    C.AllAgree { s with shared, calls := Function.update s.calls i (.running pc') } := by
  obtain ⟨hloop, hagrees⟩ := h
  refine ⟨hloop, forall_update_call (fun j _ => hagrees j) ?_⟩
  have hi := hagrees i
  rw [running] at hi
  refine ⟨?_, hi.subscribed, fun hin => ?_⟩
  · rw [hi.idle]
    simp
  · obtain ⟨hset, hlt, hqueued, -⟩ := hi.inside hin
    exact ⟨hset, hlt, hqueued, by simp⟩

theorem AllAgree.step {s s' : Run σ π ι} (h : C.AllAgree s) (hstep : C.Stepped s s') : C.AllAgree s' := by
  obtain ⟨hloop, hagrees⟩ := h
  cases hstep with
  | @fulfil i lt unset =>
      refine ⟨hloop, forall_update_input (fun j _ => hagrees j) ?_⟩
      have hi := hagrees i
      refine ⟨?_, ?_, ?_⟩
      · rw [Phase.set_isPast]
        exact hi.idle
      · rw [Phase.set_isSubscribed]
        exact hi.subscribed
      · intro hin
        have hset := (hi.inside hin).1
        rw [unset] at hset
        cases hset
  | subscribe lt outside =>
      have hnsub : (s.inputs s.loop).isSubscribed = false := by
        rw [← Bool.not_eq_true, (hagrees s.loop).subscribed]
        exact Nat.lt_irrefl _
      refine ⟨lt, forall_update_input (fun j hj => ?_) ?_⟩
      · have hagree := hagrees j
        refine ⟨hagree.idle, ?_, ?_⟩
        · rw [hagree.subscribed]
          show j < s.loop ↔ j < s.loop + 1
          omega
        · intro hin
          have hjloop : j = s.loop := by
            unfold insideOf at hin
            split at hin
            · exact (Option.some.inj hin).symm
            · cases hin
          exact absurd hjloop hj
      · refine ⟨?_, ?_, ?_⟩
        · rw [Phase.subscribe_isPast]
          exact (hagrees s.loop).idle
        · rw [Phase.subscribe_isSubscribed]
          exact ⟨fun _ => Nat.lt_succ_self _, fun _ => rfl⟩
        · intro hin
          have hidle : s.calls s.loop = .idle := by
            rw [← (hagrees s.loop).idle]
            cases hp : s.inputs s.loop <;> rw [hp] at hnsub <;> first | rfl | cases hnsub
          unfold insideOf at hin
          split at hin
          · next hp => exact ⟨by rw [hp]; rfl, Nat.lt_succ_self _, by simp [hp], by simp [hidle]⟩
          · cases hin
  | @start i e queued =>
      refine ⟨hloop, forall_update_input (fun j _ => hagrees j) ?_⟩
      have hi := hagrees i
      rw [queued] at hi
      exact ⟨hi.idle, hi.subscribed, fun hin => absurd rfl ((hi.inside hin).2.2.1 e)⟩
  | @enter i on r calling result =>
      refine ⟨hloop, forall_update (fun j _ => hagrees j) ?_⟩
      have hi := hagrees i
      rw [calling] at hi
      refine ⟨by simp, hi.subscribed, fun hin => ⟨rfl, (hi.inside hin).2.1, by simp, by simp⟩⟩
  | violate running failed => exact ⟨hloop, hagrees⟩
  | goOn running done => exact AllAgree.goOn ⟨hloop, hagrees⟩ running _ _
  | @«return» i pc shared running done =>
      refine ⟨hloop, forall_update_call (fun j hj => ?_) ?_⟩
      · have hagree := hagrees j
        refine ⟨hagree.idle, hagree.subscribed, fun hin => hagree.inside ?_⟩
        simp only at hin
        split at hin
        · cases hin
        · exact hin
      · have hi := hagrees i
        rw [running] at hi
        refine ⟨?_, hi.subscribed, fun hin => ?_⟩
        · rw [hi.idle]
          simp
        · simp only at hin
          split at hin
          · cases hin
          · next hne => exact absurd hin hne

theorem reachable_agrees {shared₀ : σ} {s : Run σ π ι} (h : (C.system shared₀).Reachable s) :
    s.loop ≤ C.size ∧ ∀ i, Agrees s.loop s.inside i (s.inputs i) (s.calls i) :=
  h.invariant_next (P := C.AllAgree) (allAgree_init shared₀) fun _ _ _ hs hnext => hs.step (next_stepped hnext).2

/-! ## Invariants of the members -/

/-- **The invariant rule for the members.** An invariant of the members and the calls need only be kept by
    the start of a call and by the steps of the lambda; and a check that fails is one of the lambda. -/
theorem invariant_shared {shared₀ : σ} {Inv : σ → (Nat → Call π) → Prop}
    (hinit : Inv shared₀ fun _ => .idle)
    (henter : ∀ m calls i r, Inv m calls → calls i = .idle → C.results[i]? = some r →
      Inv m (Function.update calls i (.running (C.lambda.enter r))))
    (hgoOn : ∀ m calls i pc m' pc', Inv m calls → calls i = .running pc →
      C.lambda.exec i m pc = some (.ok (m', some pc')) →
      Inv m' (Function.update calls i (.running pc')))
    (hreturn : ∀ m calls i pc m', Inv m calls → calls i = .running pc →
      C.lambda.exec i m pc = some (.ok (m', none)) → Inv m' (Function.update calls i .returned))
    {s : Run σ π ι} (h : (C.system shared₀).Reachable s) :
    Inv s.shared s.calls ∧ ∀ v, s.violated = some v →
      ∃ i pc, s.calls i = .running pc ∧ C.lambda.exec i s.shared pc = some (.error v) := by
  refine h.invariant_reachable (P := fun s => Inv s.shared s.calls ∧ ∀ v, s.violated = some v →
    ∃ i pc, s.calls i = .running pc ∧ C.lambda.exec i s.shared pc = some (.error v)) ?_ ?_
  · rintro s rfl
    exact ⟨hinit, by simp⟩
  · rintro s s' hs ⟨hinv, -⟩ ⟨a, hnext⟩
    obtain ⟨hv, hstep⟩ := next_stepped hnext
    cases hstep with
    | fulfil | subscribe | start => exact ⟨hinv, by simp [hv]⟩
    | @enter i on r calling result =>
        have hidle : s.calls i = .idle := by
          rw [← ((reachable_agrees hs).2 i).idle, calling]
          rfl
        exact ⟨henter _ _ _ _ hinv hidle result, by simp [hv]⟩
    | @violate i pc v running failed =>
        refine ⟨hinv, fun v' hv' => ?_⟩
        obtain rfl := Option.some.inj hv'
        exact ⟨i, pc, running, failed⟩
    | goOn running done => exact ⟨hgoOn _ _ _ _ _ _ hinv running done, by simp [hv]⟩
    | «return» running done => exact ⟨hreturn _ _ _ _ _ hinv running done, by simp [hv]⟩

/-! ## Where runs end -/

theorem AllAgree.lt_size {s : Run σ π ι} (h : C.AllAgree s) {i : Nat} (hi : s.calls i ≠ .idle) :
    i < C.size := by
  obtain ⟨hloop, hagrees⟩ := h
  have hpast : (s.inputs i).isPast = true := by
    rw [← Bool.not_eq_false]
    exact fun hp => hi ((hagrees i).idle.mp hp)
  exact Nat.lt_of_lt_of_le ((hagrees i).subscribed.mp (Phase.isSubscribed_of_isPast hpast)) hloop

theorem lt_size {shared₀ : σ} {s : Run σ π ι} (h : (C.system shared₀).Reachable s) {i : Nat}
    (hi : s.calls i ≠ .idle) : i < C.size :=
  AllAgree.lt_size (reachable_agrees h) hi

/-- A call that is not blocked can take its step. -/
theorem exists_step_of_running {shared₀ : σ} {s : Run σ π ι} (hv : s.violated = none) {i : Nat} {pc : π}
    (hrun : s.calls i = .running pc) (hfree : C.lambda.exec i s.shared pc ≠ none) :
    ∃ s', (C.system shared₀).step s s' := by
  cases hexec : C.lambda.exec i s.shared pc with
  | none => exact absurd hexec hfree
  | some o =>
      cases o with
      | error v => exact ⟨_, step_of_stepped hv (.violate hrun hexec)⟩
      | ok p =>
          obtain ⟨m, o⟩ := p
          cases o with
          | none => exact ⟨_, step_of_stepped hv (.return hrun hexec)⟩
          | some pc' => exact ⟨_, step_of_stepped hv (.goOn hrun hexec)⟩

/-- Where no step is left and no call is in progress, all callbacks have returned. -/
theorem AllAgree.returned {s : Run σ π ι} (h : C.AllAgree s) (hstuck : ∀ s', ¬ C.Stepped s s')
    (hnrun : ∀ j pc, s.calls j ≠ .running pc) {i : Nat} (hi : i < C.size) : s.calls i = .returned := by
  obtain ⟨hloop, hagrees⟩ := h
  -- what has been called has returned
  have hpast : ∀ j, s.inputs j = .past → s.calls j = .returned := by
    intro j hj
    have hidle := (hagrees j).idle
    rw [hj] at hidle
    cases hc : s.calls j with
    | idle => cases hidle.mpr hc
    | running pc => exact absurd hc (hnrun j pc)
    | returned => rfl
  have hcalling : ∀ j on, j < C.size → s.inputs j ≠ .calling on := by
    intro j on hj hcall
    exact hstuck _ (.enter hcall (List.getElem?_eq_getElem hj))
  have hset : ∀ j, j < C.size → (s.inputs j).isSet = true := by
    intro j hj
    rw [← Bool.not_eq_false]
    exact fun hunset => hstuck _ (.fulfil hj hunset)
  have hinside : s.inside = none := by
    cases hin : s.inside with
    | none => rfl
    | some j =>
        obtain ⟨hjset, hlt, hqueued, hret⟩ := (hagrees j).inside hin
        have hsub := (hagrees j).subscribed.mpr hlt
        have hj : j < C.size := Nat.lt_of_lt_of_le hlt hloop
        cases hp : s.inputs j with
        | calling on => exact absurd hp (hcalling j on hj)
        | queued e => exact absurd hp (hqueued e)
        | past => exact absurd (hpast j hp) hret
        | fresh | stored => rw [hp] at hsub; cases hsub
        | waiting => rw [hp] at hjset; cases hjset
  have hend : s.loop = C.size := by
    rcases Nat.lt_or_eq_of_le hloop with hlt | heq
    · exact absurd (.subscribe hlt hinside) (hstuck _)
    · exact heq
  have hsub := (hagrees i).subscribed.mpr (hend ▸ hi)
  have hiset := hset i hi
  cases hp : s.inputs i with
  | calling on => exact absurd hp (hcalling i on hi)
  | queued e => exact absurd (.start hp) (hstuck _)
  | past => exact hpast i hp
  | fresh | stored => rw [hp] at hsub; cases hsub
  | waiting => rw [hp] at hiset; cases hiset

/-- **A run ends with all callbacks returned**, if no check has failed and the calls in progress never
    block one another. -/
theorem returned_of_quiescent {shared₀ : σ} {s : Run σ π ι} (h : (C.system shared₀).Reachable s)
    (hq : (C.system shared₀).Quiescent s) (hv : s.violated = none)
    (hfree : ∀ i pc, s.calls i = .running pc →
      ∃ j pc', s.calls j = .running pc' ∧ C.lambda.exec j s.shared pc' ≠ none) {i : Nat}
    (hi : i < C.size) : s.calls i = .returned := by
  refine AllAgree.returned (reachable_agrees h) (fun s' hs' => hq s' (step_of_stepped hv hs')) ?_ hi
  intro j pc hrun
  obtain ⟨k, pc', hrun', hexec⟩ := hfree j pc hrun
  have hstep : ∃ s', (C.system shared₀).step s s' := exists_step_of_running hv hrun' hexec
  obtain ⟨s', hs'⟩ := hstep
  exact hq s' hs'

/-- The number of steps left of a call, if the lambda starts with at most `bound`. -/
def callRank (rank : π → Nat) (bound : Nat) : Call π → Nat
  | .idle => bound + 2
  | .running pc => rank pc + 1
  | .returned => 0

/-- The number of steps left of a run. -/
def runRank (C : Setting σ π V E ι) (rank : π → Nat) (bound : Nat) (s : Run σ π ι) : Nat :=
  (∑ i ∈ Finset.range C.size, ((s.inputs i).rank + callRank rank bound (s.calls i))) +
    if s.violated = none then 1 else 0

theorem sum_lt {n i : Nat} {f g : Nat → Nat} (hi : i < n) (hlt : g i < f i)
    (hothers : ∀ j, j ≠ i → g j = f j) : ∑ j ∈ Finset.range n, g j < ∑ j ∈ Finset.range n, f j := by
  refine Finset.sum_lt_sum ?_ ⟨i, Finset.mem_range.mpr hi, hlt⟩
  intro j _
  by_cases hj : j = i
  · subst hj
    exact Nat.le_of_lt hlt
  · exact Nat.le_of_eq (hothers j hj)

/-- A call that changes without getting closer to its end. -/
theorem runRank_calls_eq {rank : π → Nat} {bound : Nat} {s : Run σ π ι} {i : Nat} {x : Call π}
    (hx : callRank rank bound x = callRank rank bound (s.calls i)) :
    runRank C rank bound { s with calls := Function.update s.calls i x } = runRank C rank bound s := by
  unfold runRank
  congr 1
  refine Finset.sum_congr rfl fun j _ => ?_
  rw [update_same (q := callRank rank bound) hx]

/-- A call that gets closer to its end. -/
theorem runRank_calls_lt {rank : π → Nat} {bound : Nat} {s : Run σ π ι} {i : Nat} {x : Call π} (hi : i < C.size)
    (hx : callRank rank bound x < callRank rank bound (s.calls i)) :
    runRank C rank bound { s with calls := Function.update s.calls i x } < runRank C rank bound s := by
  unfold runRank
  refine Nat.add_lt_add_right (sum_lt hi ?_ ?_) _
  · dsimp only
    rw [Function.update_self]
    omega
  · intro j hj
    dsimp only
    rw [Function.update_of_ne hj]

/-- Every step lowers the rank, if every step of the lambda does. -/
theorem AllAgree.runRank_lt {rank : π → Nat} {bound : Nat} (henter : ∀ r, rank (C.lambda.enter r) ≤ bound)
    (hexec : ∀ i m pc m' pc', C.lambda.exec i m pc = some (.ok (m', some pc')) → rank pc' < rank pc)
    {s s' : Run σ π ι} (h : C.AllAgree s) (hv : s.violated = none) (hstep : C.Stepped s s') :
    runRank C rank bound s' < runRank C rank bound s := by
  have hagrees := h.2
  have hrunning : ∀ {i pc}, s.calls i = .running pc → i < C.size := by
    intro i pc hrun
    exact h.lt_size (by simp [hrun])
  unfold runRank
  cases hstep with
  | @fulfil i lt unset =>
      refine Nat.add_lt_add_right (sum_lt lt ?_ ?_) _
      · have hp := Phase.set_rank (C.executor i) unset
        dsimp only
        rw [Function.update_self]
        omega
      · intro j hj
        dsimp only
        rw [Function.update_of_ne hj]
  | subscribe lt outside =>
      have hnsub : (s.inputs s.loop).isSubscribed = false := by
        rw [← Bool.not_eq_true, (hagrees s.loop).subscribed]
        exact Nat.lt_irrefl _
      refine Nat.add_lt_add_right (sum_lt lt ?_ ?_) _
      · have hp := Phase.subscribe_rank (C.executor s.loop) hnsub
        dsimp only
        rw [Function.update_self]
        omega
      · intro j hj
        dsimp only
        rw [Function.update_of_ne hj]
  | @start i e queued =>
      have hi : i < C.size := by
        have hsub := (hagrees i).subscribed
        rw [queued] at hsub
        exact Nat.lt_of_lt_of_le (hsub.mp rfl) (h).1
      refine Nat.add_lt_add_right (sum_lt hi ?_ ?_) _
      · dsimp only
        rw [Function.update_self, queued]
        simp [Phase.rank]
      · intro j hj
        dsimp only
        rw [Function.update_of_ne hj]
  | @enter i on r calling result =>
      have hidle : s.calls i = .idle := by
        rw [← (hagrees i).idle, calling]
        rfl
      refine Nat.add_lt_add_right (sum_lt (List.getElem?_eq_some_iff.mp result).1 ?_ ?_) _
      · have hle := henter r
        dsimp only
        rw [Function.update_self, Function.update_self, calling, hidle]
        simp only [Phase.rank_past, Phase.rank_calling, callRank]
        omega
      · intro j hj
        dsimp only
        rw [Function.update_of_ne hj, Function.update_of_ne hj]
  | violate running failed =>
      rw [hv, if_pos rfl, if_neg (by simp)]
      exact Nat.lt_succ_self _
  | @goOn i pc pc' shared running done =>
      refine Nat.add_lt_add_right (sum_lt (hrunning running) ?_ ?_) _
      · have hlt := hexec _ _ _ _ _ done
        dsimp only
        rw [Function.update_self, running]
        simp only [callRank]
        omega
      · intro j hj
        dsimp only
        rw [Function.update_of_ne hj]
  | @«return» i pc shared running done =>
      refine Nat.add_lt_add_right (sum_lt (hrunning running) ?_ ?_) _
      · dsimp only
        rw [Function.update_self, running]
        simp only [callRank]
        omega
      · intro j hj
        dsimp only
        rw [Function.update_of_ne hj]

/-- **No run goes on for ever**, if the lambda does not. -/
theorem terminates {shared₀ : σ} (rank : π → Nat) (bound : Nat)
    (henter : ∀ r, rank (C.lambda.enter r) ≤ bound)
    (hexec : ∀ i m pc m' pc', C.lambda.exec i m pc = some (.ok (m', some pc')) → rank pc' < rank pc)
    {s : Run σ π ι} (h : (C.system shared₀).Reachable s) : (C.system shared₀).Terminates s := by
  have hranked : (C.system shared₀).Ranked
      fun s n => (C.system shared₀).Reachable s ∧ runRank C rank bound s = n := by
    rintro s s' n ⟨hs, rfl⟩ hstep
    refine ⟨_, ?_, hs.step hstep, rfl⟩
    obtain ⟨a, hnext⟩ := hstep
    obtain ⟨hv, hstep⟩ := next_stepped hnext
    exact AllAgree.runRank_lt henter hexec (reachable_agrees hs) hv hstep
  exact hranked.terminates ⟨h, rfl⟩

end Setting

end

end Combine
end Tpcc
