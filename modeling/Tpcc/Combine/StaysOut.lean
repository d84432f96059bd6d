import Tpcc.Combine.Reentry

/-!
# `Combine.StaysOut` — a subscriber that stays out of the callbacks

If a subscriber called under `mutex_` goes into no callback, the thread that holds the mutex can always go
on, and every run ends with all callbacks returned. The invariant `Sound` has three parts: the members
(`Inv`), the inputs and who is inside of what (`Tidy`), and that no check has failed. `neverStuck` puts
them together.
-/

namespace Tpcc
namespace Combine

open Transition Futures

variable {V E ι : Type}

namespace Reentry

/-! ## What a step can do -/

inductive Stepped (c : Reentry V E ι) (s : Nested V E ι) : Nested V E ι → Prop where
  | run {r : Run (AllState V E) (NestedPc V E) ι} (step : c.setting.Stepped s.toRun r) :
      Stepped c s { s with toRun := r }
  | consume (loop : s.loop = c.results.length) (inside : s.inside = none) (output : s.shared.output = .start) :
      Stepped c s { s with shared := { s.shared with output := .onlyCallback }, consumer := .returned }
  | take {r : Result (List V) E} (loop : s.loop = c.results.length) (inside : s.inside = none)
      (output : s.shared.output = .onlyResult r) :
      Stepped c s { s with shared := { s.shared with output := .done }, consumer := .running (r, none) }
  | reenter {caller : Option Nat} {r : Result (List V) E} {inside : Option Nat} {j : Nat}
      (sub : s.subscriberOf caller = some (r, inside)) (back : s.back inside = true) (reaches : c.reaches r j = true)
      (lt : j < c.results.length) (unset : (s.inputs j).isSet = false) :
      Stepped c s (({ s with inputs := Function.update s.inputs j ((s.inputs j).set (c.executor j)) } :
        Nested V E ι).setSubscriber r (Setting.insideOf j ((s.inputs j).set (c.executor j))) caller)
  | resume {caller : Option Nat} {r : Result (List V) E} {inside : Option Nat}
      (sub : s.subscriberOf caller = some (r, inside)) (back : s.back inside = true) :
      Stepped c s (s.endSubscriber r caller)

section Steps

variable {c : Reentry V E ι} {s s' : Nested V E ι}

theorem next_stepped {a : NestedAction} (h : c.next s a = some s') : s.violated = none ∧ c.Stepped s s' := by
  cases a with
  | run a =>
      obtain ⟨r, hr, rfl⟩ := Option.map_eq_some_iff.mp h
      obtain ⟨hv, hstep⟩ := Setting.next_stepped hr
      exact ⟨hv, .run hstep⟩
  | consume =>
      simp only [next] at h
      split at h
      · next hready =>
          obtain ⟨hv, hloop, hinside⟩ := hready
          refine ⟨hv, ?_⟩
          split at h
          · next hout =>
              obtain rfl := Option.some.inj h
              exact .consume hloop hinside hout
          · next r hout =>
              obtain rfl := Option.some.inj h
              exact .take hloop hinside hout
          · cases h
      · cases h
  | reenter caller j =>
      simp only [next] at h
      split at h
      · next r inside hsub =>
          split at h
          · next hready =>
              obtain ⟨hv, hback, hreaches, hlt, hunset⟩ := hready
              obtain rfl := Option.some.inj h
              exact ⟨hv, .reenter hsub hback hreaches hlt hunset⟩
          · cases h
      · cases h
  | resume caller =>
      simp only [next] at h
      split at h
      · next r inside hsub =>
          split at h
          · next hready =>
              obtain rfl := Option.some.inj h
              exact ⟨hready.1, .resume hsub hready.2⟩
          · cases h
      · cases h

/-- The promise is fulfilled: the lambda goes on, or calls the subscriber that is there. -/
theorem fulfil_cases {i : Nat} {m m' : AllState V E} {r : Result (List V) E} {x : Option (NestedPc V E)}
    (h : AllState.fulfil i r m = .ok (m', x)) :
    m'.output.consumed = m.output.consumed ∧
      (x = some (.after r) ∨ x = some (.subscriber r none) ∧ m'.output.consumed = true) := by
  unfold AllState.fulfil at h
  cases hc : AllCombinator.fulfil i r m.combinator with
  | error v =>
      rw [hc] at h
      cases h
  | ok c =>
      rw [hc] at h
      simp only [Except.bind, AllState.setResult] at h
      split at h
      · next hout =>
          cases h
          exact ⟨by rw [hout]; rfl, .inl rfl⟩
      · next hout =>
          cases h
          exact ⟨by rw [hout]; rfl, .inr ⟨rfl, rfl⟩⟩
      · cases h

/-- The output keeps its subscriber, and a subscriber is called where it is there. -/
theorem exec_output {n i : Nat} {m m' : AllState V E} {pc : NestedPc V E} {x : Option (NestedPc V E)}
    (h : AllState.exec n i m pc = some (.ok (m', x))) :
    m'.output.consumed = m.output.consumed ∧
      ∀ r inside, x = some (.subscriber r inside) → inside = none ∧ m'.output.consumed = true := by
  have hfulfil : ∀ {m : AllState V E} {r : Result (List V) E}, AllState.fulfil i r m = .ok (m', x) →
      m'.output.consumed = m.output.consumed ∧
        ∀ r inside, x = some (.subscriber r inside) → inside = none ∧ m'.output.consumed = true := by
    intro m r h
    obtain ⟨hsame, rfl | ⟨rfl, hcons⟩⟩ := fulfil_cases h
    · refine ⟨hsame, fun r' inside hx => ?_⟩
      cases r <;> cases hx
    · refine ⟨hsame, ?_⟩
      rintro r' inside ⟨⟩
      exact ⟨rfl, hcons⟩
  cases pc with
  | lock r =>
      simp only [AllState.exec] at h
      split at h <;> cases h
      exact ⟨rfl, fun r inside hx => by cases hx⟩
  | body r =>
      simp only [AllState.exec] at h
      split at h
      · cases h
        exact ⟨rfl, fun r inside hx => by cases hx⟩
      · cases r with
        | fail e =>
            cases h
            exact ⟨rfl, fun r inside hx => by cases hx⟩
        | ok v =>
            obtain ⟨c', -, hc'⟩ := Except.exists_of_map (Option.some.inj h)
            cases hc'
            exact ⟨rfl, fun r inside hx => by cases hx⟩
  | setError e => exact hfulfil (Option.some.inj h)
  | count =>
      cases h
      refine ⟨rfl, fun r inside hx => ?_⟩
      split at hx <;> cases hx
  | setValue =>
      exact hfulfil (m := { m with combinator := { m.combinator with results_ := [] } }) (Option.some.inj h)
  | subscriber r inside => cases h
  | unlock =>
      cases h
      exact ⟨rfl, fun r inside hx => by cases hx⟩

end Steps

/-! ## The inputs and the subscriber -/

/-- The callback is being called, or has been. -/
def Begun (p : Phase ι) : Prop := (∃ on, p = .calling on) ∨ p = .past

/-- The inputs agree with the calls; a subscriber runs only when the loop is over, and is inside of nothing
    but callbacks that have begun. -/
structure Tidy (c : Reentry V E ι) (s : Nested V E ι) : Prop where
  agree : c.setting.AllAgree s.toRun
  built : s.shared.output.consumed = true → s.loop = c.results.length ∧ s.inside = none
  called : ∀ caller r inside, s.subscriberOf caller = some (r, inside) → s.shared.output.consumed = true
  begun : ∀ caller r j, s.subscriberOf caller = some (r, some j) → Begun (s.inputs j)

section Tidy

variable {c : Reentry V E ι} {s s' : Nested V E ι}

theorem Begun.isSet {p : Phase ι} (h : Begun p) : p.isSet = true := by
  rcases h with ⟨on, rfl⟩ | rfl
  · rfl
  · rfl

/-- A step of callback `i` changes no other caller of the subscriber. -/
theorem subscriberOf_update {i : Nat} {x : Call (NestedPc V E)} {caller : Option Nat}
    {p : Result (List V) E × Option Nat} (h : s'.subscriberOf caller = some p)
    (hcalls : s'.calls = Function.update s.calls i x) (hconsumer : s'.consumer = s.consumer) :
    s.subscriberOf caller = some p ∨ calledWith x = some p := by
  cases caller with
  | none =>
      simp only [Nested.subscriberOf, hconsumer] at h
      exact .inl h
  | some k =>
      simp only [Nested.subscriberOf, hcalls] at h
      by_cases hk : k = i
      · subst hk
        rw [Function.update_self] at h
        exact .inr h
      · rw [Function.update_of_ne hk] at h
        exact .inl h

/-- Nobody has called the subscriber before the output has it. -/
theorem Tidy.no_subscriber (h : c.Tidy s) (houtput : s.shared.output.consumed = false) (caller : Option Nat)
    (p : Result (List V) E × Option Nat) : s.subscriberOf caller ≠ some p := by
  intro hsub
  have hcons := h.called caller p.1 p.2 hsub
  rw [houtput] at hcons
  cases hcons

theorem Tidy.run {r : Run (AllState V E) (NestedPc V E) ι} (h : c.Tidy s) (hstep : c.setting.Stepped s.toRun r) :
    c.Tidy { s with toRun := r } := by
  have hagree := h.agree.step hstep
  cases hstep with
  | @fulfil i lt unset =>
      refine ⟨hagree, h.built, h.called, fun caller r j hsub => ?_⟩
      have hbegun := h.begun caller r j hsub
      have hj : j ≠ i := by
        rintro rfl
        rw [hbegun.isSet] at unset
        cases unset
      show Begun (Function.update s.inputs i _ j)
      rwa [Function.update_of_ne hj]
  | subscribe lt outside =>
      -- the output has not been returned yet
      have hnot : s.shared.output.consumed = false := by
        rw [← Bool.not_eq_true]
        intro hcons
        exact absurd (h.built hcons).1 (Nat.ne_of_lt lt)
      refine ⟨hagree, fun hcons => ?_, h.called, fun caller r j hsub => ?_⟩
      · rw [hnot] at hcons
        cases hcons
      · exact absurd hsub (h.no_subscriber hnot caller _)
  | @start i e queued =>
      refine ⟨hagree, h.built, h.called, fun caller r j hsub => ?_⟩
      show Begun (Function.update s.inputs i _ j)
      by_cases hj : j = i
      · subst hj
        rw [Function.update_self]
        exact .inl ⟨_, rfl⟩
      · rw [Function.update_of_ne hj]
        exact h.begun caller r j hsub
  | @enter i on r calling result =>
      refine ⟨hagree, h.built, fun caller r' inside hsub => ?_, fun caller r' j hsub => ?_⟩
      · rcases subscriberOf_update (s := s) hsub rfl rfl with hsub | hsub
        · exact h.called caller r' inside hsub
        · cases hsub
      · show Begun (Function.update s.inputs i _ j)
        by_cases hj : j = i
        · subst hj
          rw [Function.update_self]
          exact .inr rfl
        · rw [Function.update_of_ne hj]
          rcases subscriberOf_update (s := s) hsub rfl rfl with hsub | hsub
          · exact h.begun caller r' j hsub
          · cases hsub
  | violate running failed => exact ⟨hagree, h.built, h.called, h.begun⟩
  | @goOn i pc pc' shared running done =>
      obtain ⟨hsame, hnew⟩ := exec_output done
      have hcalled : ∀ {r inside}, calledWith (.running pc' : Call (NestedPc V E)) = some (r, inside) →
          inside = none ∧ shared.output.consumed = true := by
        intro r inside hpc
        cases pc' with
        | subscriber r' inside' =>
            cases hpc
            exact hnew r inside rfl
        | lock | body | setError | count | setValue | unlock => cases hpc
      refine ⟨hagree, fun hcons => h.built (hsame ▸ hcons), fun caller r inside hsub => ?_, fun caller r j hsub => ?_⟩
      · rcases subscriberOf_update (s := s) hsub rfl rfl with hsub | hsub
        · exact hsame.trans (h.called caller r inside hsub)
        · exact (hcalled hsub).2
      · rcases subscriberOf_update (s := s) hsub rfl rfl with hsub | hsub
        · exact h.begun caller r j hsub
        · cases (hcalled hsub).1
  | @«return» i pc shared running done =>
      obtain ⟨hsame, -⟩ := exec_output done
      refine ⟨hagree, fun hcons => ?_, fun caller r inside hsub => ?_, fun caller r j hsub => ?_⟩
      · obtain ⟨hloop, hinside⟩ := h.built (hsame ▸ hcons)
        refine ⟨hloop, ?_⟩
        show (if s.inside = some i then none else s.inside) = none
        rw [hinside, if_neg nofun]
      · rcases subscriberOf_update (s := s) hsub rfl rfl with hsub | hsub
        · exact hsame.trans (h.called caller r inside hsub)
        · cases hsub
      · rcases subscriberOf_update (s := s) hsub rfl rfl with hsub | hsub
        · exact h.begun caller r j hsub
        · cases hsub

theorem calls_of_subscriberOf {i : Nat} {r : Result (List V) E} {inside : Option Nat}
    (h : s.subscriberOf (some i) = some (r, inside)) : s.calls i = .running (.subscriber r inside) := by
  simp only [Nested.subscriberOf] at h
  unfold calledWith at h
  split at h
  · next hi =>
      cases h
      exact hi
  · cases h

theorem subscriberOf_setSubscriber (r : Result (List V) E) (inside : Option Nat) (caller caller' : Option Nat) :
    (s.setSubscriber r inside caller).subscriberOf caller' =
      if caller' = caller then some (r, inside) else s.subscriberOf caller' := by
  cases caller with
  | none => cases caller' <;> rfl
  | some i =>
      cases caller' with
      | none => rfl
      | some k =>
          simp only [Nested.setSubscriber, Nested.subscriberOf, Option.some.injEq]
          by_cases hk : k = i
          · rw [if_pos hk, hk, Function.update_self]
            rfl
          · rw [if_neg hk, Function.update_of_ne hk]

theorem subscriberOf_endSubscriber (r : Result (List V) E) (caller caller' : Option Nat) :
    (s.endSubscriber r caller).subscriberOf caller' =
      if caller' = caller then none else s.subscriberOf caller' := by
  cases caller with
  | none => cases caller' <;> rfl
  | some i =>
      cases caller' with
      | none => rfl
      | some k =>
          simp only [Nested.endSubscriber, Nested.subscriberOf, Option.some.injEq]
          by_cases hk : k = i
          · rw [if_pos hk, hk, Function.update_self]
            cases r <;> rfl
          · rw [if_neg hk, Function.update_of_ne hk]

/-- A step that only moves the subscribers on: the inputs, the members and the loop stay as they are. -/
theorem Tidy.of_subscribers (h : c.Tidy s) (hagree : c.setting.AllAgree s'.toRun)
    (hsame : s'.inputs = s.inputs ∧ s'.shared = s.shared ∧ s'.loop = s.loop ∧ s'.inside = s.inside)
    (hcalled : ∀ caller r inside, s'.subscriberOf caller = some (r, inside) → ∃ p, s.subscriberOf caller = some p)
    (hbegun : ∀ caller r j, s'.subscriberOf caller = some (r, some j) → Begun (s.inputs j)) : c.Tidy s' := by
  obtain ⟨hinputs, hshared, hloop, hinside⟩ := hsame
  refine ⟨hagree, ?_, fun caller r inside hsub => ?_, fun caller r j hsub => ?_⟩
  · rw [hshared, hloop, hinside]
    exact h.built
  · obtain ⟨⟨r', inside'⟩, hsub'⟩ := hcalled caller r inside hsub
    rw [hshared]
    exact h.called caller r' inside' hsub'
  · rw [hinputs]
    exact hbegun caller r j hsub

theorem Tidy.setSubscriber {caller : Option Nat} {r : Result (List V) E} {inside inside' : Option Nat}
    (h : c.Tidy s) (hsub : s.subscriberOf caller = some (r, inside))
    (hbegun : ∀ j, inside' = some j → Begun (s.inputs j)) : c.Tidy (s.setSubscriber r inside' caller) := by
  refine h.of_subscribers ?_ ?_ (fun caller' r' inside'' hsub' => ?_) fun caller' r' j hsub' => ?_
  · cases caller with
    | none => exact h.agree
    | some i => exact h.agree.goOn (calls_of_subscriberOf hsub) _ _
  · cases caller <;> exact ⟨rfl, rfl, rfl, rfl⟩
  · rw [subscriberOf_setSubscriber] at hsub'
    split at hsub'
    · next heq => exact ⟨_, heq ▸ hsub⟩
    · exact ⟨_, hsub'⟩
  · rw [subscriberOf_setSubscriber] at hsub'
    split at hsub'
    · cases hsub'
      exact hbegun j rfl
    · exact h.begun caller' r' j hsub'

theorem Tidy.endSubscriber {caller : Option Nat} {r : Result (List V) E} {inside : Option Nat}
    (h : c.Tidy s) (hsub : s.subscriberOf caller = some (r, inside)) : c.Tidy (s.endSubscriber r caller) := by
  have hleft : ∀ {caller' p}, (s.endSubscriber r caller).subscriberOf caller' = some p →
      s.subscriberOf caller' = some p := by
    intro caller' p hsub'
    rw [subscriberOf_endSubscriber] at hsub'
    split at hsub'
    · cases hsub'
    · exact hsub'
  refine h.of_subscribers ?_ ?_ (fun _ _ _ hsub' => ⟨_, hleft hsub'⟩) fun caller' r' j hsub' => ?_
  · cases caller with
    | none => exact h.agree
    | some i => exact h.agree.goOn (calls_of_subscriberOf hsub) _ _
  · cases caller <;> exact ⟨rfl, rfl, rfl, rfl⟩
  · exact h.begun caller' r' j (hleft hsub')

/-- **Every step keeps it.** -/
theorem Tidy.step (h : c.Tidy s) (hstep : c.Stepped s s') : c.Tidy s' := by
  cases hstep with
  | run step => exact h.run step
  | consume loop inside output =>
      refine ⟨h.agree, fun _ => ⟨loop, inside⟩, fun _ _ _ _ => rfl, fun caller r j hsub => ?_⟩
      cases caller with
      | none => cases hsub
      | some i => exact absurd hsub (h.no_subscriber (by rw [output]; rfl) (some i) _)
  | @take r loop inside output =>
      refine ⟨h.agree, fun _ => ⟨loop, inside⟩, fun _ _ _ _ => rfl, fun caller r j hsub => ?_⟩
      cases caller with
      | none => cases hsub
      | some i => exact absurd hsub (h.no_subscriber (by rw [output]; rfl) (some i) _)
  | @reenter caller r inside j sub back reaches lt unset =>
      have htidy := h.run (.fulfil lt unset)
      refine htidy.setSubscriber sub fun k hk => ?_
      unfold Setting.insideOf at hk
      split at hk
      · next on hp =>
          cases hk
          show Begun (Function.update s.inputs j _ j)
          rw [Function.update_self]
          exact .inl ⟨on, hp⟩
      · cases hk
  | resume sub back => exact h.endSubscriber sub

end Tidy

/-! ## Every run ends -/

/-- The steps a call has left. -/
def rank : NestedPc V E → Nat
  | .lock _ => 7
  | .body _ => 6
  | .setError _ => 5
  | .subscriber (.fail _) _ => 4
  | .count => 3
  | .setValue => 2
  | .subscriber (.ok _) _ => 1
  | .unlock => 0

/-- The steps the consumer has left. -/
def consumerRank (s : Nested V E ι) : Nat :=
  (if s.shared.output.consumed then 0 else 2) + match s.consumer with | .running _ => 1 | _ => 0

def nestedRank (c : Reentry V E ι) (s : Nested V E ι) : Nat :=
  Setting.runRank c.setting rank 7 s.toRun + consumerRank s

theorem rank_subscriber (r : Result (List V) E) (inside inside' : Option Nat) :
    rank (.subscriber r inside : NestedPc V E) = rank (.subscriber r inside') := by
  cases r <;> rfl

theorem rank_after_lt (r : Result (List V) E) (inside : Option Nat) :
    rank (.after r : NestedPc V E) < rank (.subscriber r inside) := by
  cases r with
  | ok vs => exact Nat.zero_lt_one
  | fail e => exact Nat.lt_succ_self 3

theorem fulfil_rank {i : Nat} {r : Result (List V) E} {m m' : AllState V E} {pc : NestedPc V E}
    (h : AllState.fulfil i r m = .ok (m', some pc)) : rank pc ≤ rank (.subscriber r none : NestedPc V E) := by
  obtain ⟨-, hpc | ⟨hpc, -⟩⟩ := fulfil_cases h
  · cases hpc
    exact Nat.le_of_lt (rank_after_lt r none)
  · cases hpc
    exact Nat.le_refl _

/-- Every step of the lambda lowers the rank. -/
theorem exec_rank {n i : Nat} {m m' : AllState V E} {pc pc' : NestedPc V E}
    (h : AllState.exec n i m pc = some (.ok (m', some pc'))) : rank pc' < rank pc := by
  cases pc with
  | lock r =>
      simp only [AllState.exec] at h
      split at h <;> cases h
      exact Nat.lt_succ_self 6
  | body r =>
      simp only [AllState.exec] at h
      split at h
      · cases h
        exact Nat.zero_lt_succ 5
      · cases r with
        | fail e =>
            cases h
            exact Nat.lt_succ_self 5
        | ok v =>
            obtain ⟨c', -, hc'⟩ := Except.exists_of_map (Option.some.inj h)
            cases hc'
            exact Nat.lt_of_succ_le (Nat.le_add_left 4 2)
  | setError e => exact Nat.lt_of_le_of_lt (fulfil_rank (Option.some.inj h)) (Nat.lt_succ_self 4)
  | count =>
      cases h
      show rank (if _ then _ else _) < 3
      split
      · exact Nat.lt_succ_self 2
      · exact Nat.zero_lt_succ 2
  | setValue => exact Nat.lt_of_le_of_lt (fulfil_rank (Option.some.inj h)) (Nat.lt_succ_self 1)
  | subscriber r inside => cases h
  | unlock => cases h

section Ends

variable {c : Reentry V E ι} {s s' : Nested V E ι}

theorem two_le_consumerRank (h : s.shared.output.consumed = false) : 2 ≤ consumerRank s := by
  rw [consumerRank, h]
  exact Nat.le_add_right _ _

theorem consumerRank_run {r : Run (AllState V E) (NestedPc V E) ι} (hstep : c.setting.Stepped s.toRun r) :
    consumerRank { s with toRun := r } = consumerRank s := by
  have hsame : r.shared.output.consumed = s.shared.output.consumed := by
    cases hstep with
    | fulfil | subscribe | start | enter | violate => rfl
    | goOn running done => exact (exec_output done).1
    | «return» running done => exact (exec_output done).1
  simp only [consumerRank, hsame]

/-- **Every step lowers the rank.** -/
theorem Tidy.nestedRank_lt (h : c.Tidy s) (hv : s.violated = none) (hstep : c.Stepped s s') :
    c.nestedRank s' < c.nestedRank s := by
  have hrun : ∀ {r}, c.setting.Stepped s.toRun r →
      Setting.runRank c.setting rank 7 r < Setting.runRank c.setting rank 7 s.toRun := fun hr =>
    h.agree.runRank_lt (fun _ => Nat.le_refl 7) (fun _ _ _ _ _ hexec => exec_rank hexec) hv hr
  cases hstep with
  | run step =>
      unfold nestedRank
      rw [consumerRank_run step]
      exact Nat.add_lt_add_right (hrun step) _
  | consume loop inside output =>
      refine Nat.add_lt_add_left ?_ _
      show 0 < consumerRank s
      exact Nat.lt_of_lt_of_le Nat.two_pos (two_le_consumerRank (by rw [output]; rfl))
  | take loop inside output =>
      refine Nat.add_lt_add_left ?_ _
      show 1 < consumerRank s
      exact two_le_consumerRank (by rw [output]; rfl)
  | @reenter caller r inside j sub back reaches lt unset =>
      have hlt := hrun (.fulfil lt unset)
      cases caller with
      | none =>
          have hconsumer : consumerRank s = consumerRank { s with consumer := .running (r, none) } := by
            simp only [Nested.subscriberOf] at sub
            split at sub
            · next p hp => simp only [consumerRank, hp]
            · cases sub
          unfold nestedRank
          rw [hconsumer]
          exact Nat.add_lt_add_right hlt _
      | some i =>
          have hi := calls_of_subscriberOf sub
          refine Nat.add_lt_add_right (Nat.lt_of_le_of_lt (Nat.le_of_eq ?_) hlt) _
          apply Setting.runRank_calls_eq
          show rank _ + 1 = Setting.callRank rank 7 (s.calls i)
          rw [hi, rank_subscriber r _ inside]
          rfl
  | @resume caller r inside sub back =>
      cases caller with
      | none =>
          refine Nat.add_lt_add_left ?_ _
          simp only [Nested.subscriberOf] at sub
          split at sub
          · next p hp =>
              simp only [consumerRank, Nested.endSubscriber, hp]
              exact Nat.lt_succ_self _
          · cases sub
      | some i =>
          have hi := calls_of_subscriberOf sub
          refine Nat.add_lt_add_right ?_ _
          apply Setting.runRank_calls_lt
          · exact h.agree.lt_size (by rw [hi]; exact nofun)
          · show rank _ + 1 < Setting.callRank rank 7 (s.calls i)
            rw [hi]
            exact Nat.succ_lt_succ (rank_after_lt r inside)

end Ends

/-! ## Under the conditions -/

/-- The whole invariant: no check has failed, and the mutex, the members and the inputs are in order. -/
structure Sound (c : Reentry V E ι) (s : Nested V E ι) : Prop where
  tidy : c.Tidy s
  inv : c.Inv s.shared s.calls
  violated : s.violated = none

section Sound

variable {c : Reentry V E ι} {s s' : Nested V E ι}

/-- The subscriber comes, or takes the result that is there. -/
theorem Inv.output {m : AllState V E} {calls : Nat → Call (NestedPc V E)} (h : c.Inv m calls)
    {output : OutputState V E} (hout : OutputState.Unset m.output → OutputState.Unset output) :
    c.Inv { m with output } calls := by
  obtain ⟨st, hat, hfits⟩ := h.stage
  refine ⟨h.mutex, st, ?_, hfits⟩
  cases hat with
  | collecting done nodup done_iff lt counter_ error_ size promise output =>
      exact .collecting done nodup done_iff lt counter_ error_ size promise (hout output)
  | failing i e holder counter_ error_ promise output =>
      exact .failing i e holder counter_ error_ promise (hout output)
  | failed error_ => exact .failed error_
  | collected all => exact .collected all

/-- A callback that is called has its input behind it. -/
theorem isSet_of_calls (h : c.Tidy s) {i : Nat} (hi : s.calls i ≠ .idle) : (s.inputs i).isSet = true := by
  cases hp : s.inputs i with
  | past => rfl
  | fresh | stored | waiting | queued | calling =>
      exact absurd ((h.agree.2 i).idle.mp (by rw [hp]; rfl)) hi

/-- **Where the subscriber stays out.** Called under the mutex, it goes into no callback. -/
theorem Sound.insideOf_eq_none (hout : c.StaysOut) (h : c.Sound s) {i j : Nat} {r : Result (List V) E}
    {inside : Option Nat} (hi : s.calls i = .running (.subscriber r inside)) (hreaches : c.reaches r j = true)
    (hlt : j < c.results.length) (hunset : (s.inputs j).isSet = false) :
    inside = none ∧ Setting.insideOf j ((s.inputs j).set (c.executor j)) = none := by
  obtain ⟨st, hat, -, hinside, hcase⟩ := h.inv.stage_at hi
  refine ⟨hinside, ?_⟩
  rcases hcase with ⟨-, -, e, rfl, he⟩ | ⟨rfl, -⟩
  · have hji : j ≠ i := by
      rintro rfl
      rw [isSet_of_calls h.tidy (by rw [hi]; exact nofun)] at hunset
      cases hunset
    have hsub : s.subscriberOf (some i) = some (.fail e, inside) := by
      rw [Nested.subscriberOf, hi]
      rfl
    have hloop := (h.tidy.built (h.tidy.called _ _ _ hsub)).1
    have hsubscribed := (h.tidy.agree.2 j).subscribed.mpr (hloop ▸ hlt)
    obtain ⟨e', he'⟩ := Option.ne_none_iff_exists'.mp (hout i e he j hlt hji hreaches)
    cases hp : s.inputs j with
    | waiting =>
        rw [he']
        rfl
    | fresh => rw [hp] at hsubscribed; cases hsubscribed
    | stored | queued | calling | past => rw [hp] at hunset; cases hunset
  · cases hat with
    | collected all =>
        -- all callbacks have counted, so no input is pending
        have hpassed := all j hlt
        rw [isSet_of_calls h.tidy (fun hidle => by rw [hidle] at hpassed; cases hpassed)] at hunset
        cases hunset

theorem Sound.run (hsole : ¬ c.SoleFailure) (h : c.Sound s) {r : Run (AllState V E) (NestedPc V E) ι}
    (hstep : c.setting.Stepped s.toRun r) : c.Sound { s with toRun := r } := by
  have htidy := h.tidy.run hstep
  have hkept : ∀ {i pc o}, s.calls i = .running pc → c.setting.lambda.exec i s.shared pc = some o →
      c.Kept s.calls i o := fun hi hexec =>
    h.inv.exec hsole hi (h.tidy.agree.lt_size (by rw [hi]; exact nofun)) hexec
  cases hstep with
  | fulfil | subscribe | start => exact ⟨htidy, h.inv, h.violated⟩
  | @enter i on r calling result =>
      have hidle : s.calls i = .idle := (h.tidy.agree.2 i).idle.mp (by rw [calling]; rfl)
      exact ⟨htidy, h.inv.enter hidle result, h.violated⟩
  | violate running failed =>
      obtain ⟨m', x, hok, -⟩ := hkept running failed
      cases hok
  | goOn running done =>
      obtain ⟨m', x, hok, hinv⟩ := hkept running done
      cases hok
      exact ⟨htidy, hinv, h.violated⟩
  | «return» running done =>
      obtain ⟨m', x, hok, hinv⟩ := hkept running done
      cases hok
      exact ⟨htidy, hinv, h.violated⟩

/-- **Every step keeps it.** -/
theorem Sound.step (hout : c.StaysOut) (hsole : ¬ c.SoleFailure) (h : c.Sound s) (hstep : c.Stepped s s') :
    c.Sound s' := by
  have htidy := h.tidy.step hstep
  cases hstep with
  | run step => exact h.run hsole step
  | consume loop inside output => exact ⟨htidy, h.inv.output fun _ => .inr rfl, h.violated⟩
  | take loop inside output =>
      refine ⟨htidy, h.inv.output fun hunset => ?_, h.violated⟩
      rw [output] at hunset
      rcases hunset with hunset | hunset <;> cases hunset
  | @reenter caller r inside j sub back reaches lt unset =>
      cases caller with
      | none => exact ⟨htidy, h.inv, h.violated⟩
      | some i =>
          have hi := calls_of_subscriberOf sub
          obtain ⟨hinside, hnone⟩ := h.insideOf_eq_none hout hi reaches lt unset
          refine ⟨htidy, ?_, h.violated⟩
          show c.Inv s.shared (Function.update s.calls i (.running (.subscriber r (Setting.insideOf j _))))
          rw [hnone, ← hinside, ← hi, Function.update_eq_self]
          exact h.inv
  | @resume caller r inside sub back =>
      cases caller with
      | none => exact ⟨htidy, h.inv, h.violated⟩
      | some i => exact ⟨htidy, h.inv.resume (calls_of_subscriberOf sub), h.violated⟩

/-- No callback runs on top of another. -/
theorem Sound.not_relocks (h : c.Sound s) : ¬ s.Relocks := by
  rintro ⟨i, j, r, htop, -⟩
  have hnot : ∀ j i, ¬ s.OnTop j i := by
    rintro j i ⟨r, hi, -⟩
    obtain ⟨st, -, -, hinside, -⟩ := h.inv.stage_at hi
    cases hinside
  cases htop with
  | single htop => exact hnot _ _ htop
  | tail _ htop => exact hnot _ _ htop

/-- A call that holds the mutex has a step left, unless it waits for its subscriber. -/
theorem exec_ne_none {n i : Nat} {m : AllState V E} {pc : NestedPc V E} (hpc : Nested.holds (.running pc) = true)
    (hsub : ∀ r inside, pc ≠ .subscriber r inside) : AllState.exec n i m pc ≠ none := by
  cases pc with
  | lock r => cases hpc
  | subscriber r inside => exact absurd rfl (hsub r inside)
  | body r =>
      simp only [AllState.exec]
      split
      · exact Option.some_ne_none _
      · cases r <;> exact Option.some_ne_none _
  | setError | count | setValue | unlock => exact Option.some_ne_none _

/-- **Where a run ends, all callbacks have returned.** The holder of the mutex can always go on. -/
theorem Sound.returned [Inhabited V] (h : c.Sound s) (hq : c.system.Quiescent s) {i : Nat}
    (hi : i < c.results.length) : s.calls i = .returned := by
  have hbase : ∀ r, ¬ (c.setting.system s.shared).step s.toRun r := by
    rintro r ⟨a, ha⟩
    exact hq { s with toRun := r } ⟨.run a, by simp only [next, ha, Option.map_some]⟩
  have hblocked : ∀ j pc, s.calls j = .running pc → AllState.exec c.results.length j s.shared pc = none := by
    intro j pc hrun
    by_contra hexec
    have hstep : ∃ r, (c.setting.system s.shared).step s.toRun r :=
      Setting.exists_step_of_running h.violated hrun hexec
    obtain ⟨r, hr⟩ := hstep
    exact hbase r hr
  have hnrun : ∀ j pc, s.calls j ≠ .running pc := by
    intro j pc hrun
    rcases h.inv.mutex with ⟨hfree, hnobody⟩ | ⟨-, k, honly⟩
    · -- the mutex is free: whoever waits for it can take it
      have hj := hnobody j
      rw [hrun] at hj
      cases pc with
      | lock r =>
          have hexec := hblocked j _ hrun
          simp only [AllState.exec, hfree, Bool.false_eq_true, if_false] at hexec
          cases hexec
      | body | setError | count | setValue | subscriber | unlock => cases hj
    · obtain ⟨pc', hk⟩ : ∃ pc', s.calls k = .running pc' := by
        have hholds := honly.holder
        cases hk : s.calls k with
        | running pc' => exact ⟨pc', rfl⟩
        | idle | returned => rw [hk] at hholds; cases hholds
      by_cases hsub : ∃ r inside, pc' = .subscriber r inside
      · obtain ⟨r, inside, rfl⟩ := hsub
        obtain ⟨st, -, -, rfl, -⟩ := h.inv.stage_at hk
        refine hq (s.endSubscriber r (some k)) ⟨.resume (some k), ?_⟩
        have hcalled : s.subscriberOf (some k) = some (r, none) := by
          rw [Nested.subscriberOf, hk]
          rfl
        simp only [next, hcalled, h.violated, Nested.back, and_self, if_true]
      · push Not at hsub
        refine absurd (hblocked k _ hk) (exec_ne_none ?_ hsub)
        rw [← hk]
        exact honly.holder
  exact h.tidy.agree.returned (fun r hr => hbase r (Setting.step_of_stepped h.violated hr)) hnrun hi

end Sound

/-! ## All runs -/

section Runs

variable [Inhabited V] {c : Reentry V E ι} {s : Nested V E ι}

omit [Inhabited V] in
theorem tidy_init (m : AllState V E) (hm : m.output = .start) : c.Tidy { shared := m } := by
  refine ⟨Setting.allAgree_init _, fun hcons => ?_, fun caller r inside hsub => ?_, fun caller r j hsub => ?_⟩
  · rw [hm] at hcons
    cases hcons
  · cases caller <;> cases hsub
  · cases caller <;> cases hsub

theorem sound_init (c : Reentry V E ι) :
    c.Sound { shared := ⟨{ results_ := List.replicate c.results.length default }, .start⟩ } := by
  refine ⟨tidy_init _ rfl, ⟨.inl ⟨rfl, fun _ => rfl⟩, .collecting, ?_, fun _ => trivial⟩, rfl⟩
  refine .collecting [] List.nodup_nil (fun i => ?_) nofun rfl rfl List.length_replicate rfl (.inl rfl)
  exact ⟨nofun, nofun⟩

theorem reachable_tidy (h : c.system.Reachable s) : c.Tidy s :=
  h.invariant_next (P := c.Tidy) (tidy_init _ rfl) fun _ _ _ hs hnext => hs.step (next_stepped hnext).2

/-- **No run goes on for ever.** -/
theorem terminates (h : c.system.Reachable s) : c.system.Terminates s := by
  have hranked : c.system.Ranked fun s n => c.system.Reachable s ∧ c.nestedRank s = n := by
    rintro s s' n ⟨hs, rfl⟩ hstep
    refine ⟨_, ?_, hs.step hstep, rfl⟩
    obtain ⟨a, hnext⟩ := hstep
    obtain ⟨hv, hstep⟩ := next_stepped hnext
    exact (reachable_tidy hs).nestedRank_lt hv hstep
  exact hranked.terminates ⟨h, rfl⟩

theorem neverStuck (hout : c.StaysOut) (hsole : ¬ c.SoleFailure) : c.NeverStuck := by
  intro s h
  have hsound : c.Sound s := h.invariant_next (P := c.Sound) (sound_init c)
    fun _ _ _ hs hnext => hs.step hout hsole (next_stepped hnext).2
  exact ⟨hsound.not_relocks, terminates h, fun hq i hi => hsound.returned hq hi⟩

end Runs

end Reentry

end Combine
end Tpcc
