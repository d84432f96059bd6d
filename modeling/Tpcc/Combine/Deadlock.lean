import Tpcc.Combine.StaysOut

/-!
# `Combine.Deadlock` — the runs of `All` that get stuck

The conditions of `StaysOut` are needed. Where the subscriber may fulfil another input, the run in which
the first error arrives when all is subscribed and nothing else has happened ends with a thread that waits
for itself; where just one input fails, the run in which it is the last ends in a failed check.

The runs are built from pieces that leave the other callbacks alone (`Quiet`): a callback runs up to its
body, and the lambda goes on.
-/

namespace Tpcc
namespace Combine

open Transition Futures

variable {V E ι : Type}

namespace Reentry

variable [Inhabited V] {c : Reentry V E ι} {s s' : Nested V E ι}

/-! ## Pieces of runs -/

/-- The loop is over, and the callbacks outside `begun` wait for their inputs. -/
structure Quiet (c : Reentry V E ι) (begun : List Nat) (s : Nested V E ι) : Prop where
  reachable : c.system.Reachable s
  violated : s.violated = none
  loop : s.loop = c.results.length
  inside : s.inside = none
  waiting : ∀ k < c.results.length, k ∉ begun → s.inputs k = .waiting ∧ s.calls k = .idle

theorem reachable_run {r : Run (AllState V E) (NestedPc V E) ι} (h : c.system.Reachable s)
    (hv : s.violated = none) (hstep : c.setting.Stepped s.toRun r) : c.system.Reachable { s with toRun := r } := by
  have hbase : (c.setting.system s.shared).step s.toRun r := Setting.step_of_stepped hv hstep
  obtain ⟨a, ha⟩ := hbase
  exact h.step ⟨.run a, by simp only [next, ha, Option.map_some]⟩

/-- The members at the start. -/
def start (c : Reentry V E ι) : AllState V E :=
  ⟨{ results_ := List.replicate c.results.length default }, .start⟩

/-- The loop runs before anything else happens. -/
theorem exists_loop (c : Reentry V E ι) {k : Nat} (hk : k ≤ c.results.length) :
    ∃ s : Nested V E ι, c.system.Reachable s ∧ s.violated = none ∧ s.loop = k ∧ s.inside = none ∧
      s.shared = c.start ∧ (∀ i, s.calls i = .idle) ∧ ∀ i, s.inputs i = if i < k then .waiting else .fresh := by
  induction k with
  | zero => exact ⟨_, .of_init rfl, rfl, rfl, rfl, rfl, fun _ => rfl, fun _ => rfl⟩
  | succ k ih =>
      obtain ⟨s, hs, hv, hloop, hinside, hshared, hcalls, hinputs⟩ := ih (Nat.le_of_succ_le hk)
      have hfresh : s.inputs s.loop = .fresh := by rw [hinputs, hloop, if_neg (Nat.lt_irrefl k)]
      refine ⟨_, reachable_run hs hv (.subscribe (by rw [hloop]; exact hk) hinside), hv, ?_, ?_, hshared, hcalls, ?_⟩
      · exact congrArg (· + 1) hloop
      · show Setting.insideOf s.loop ((s.inputs s.loop).subscribe _) = none
        rw [hfresh]
        rfl
      · intro i
        show Function.update s.inputs s.loop ((s.inputs s.loop).subscribe _) i = _
        rw [hfresh, hloop]
        by_cases hi : i = k
        · subst hi
          rw [Function.update_self, if_pos (Nat.lt_succ_self i)]
          rfl
        · rw [Function.update_of_ne hi, hinputs]
          by_cases hlt : i < k
          · rw [if_pos hlt, if_pos (Nat.lt_succ_of_lt hlt)]
          · rw [if_neg hlt, if_neg (by omega)]

theorem exists_quiet (c : Reentry V E ι) : ∃ s, c.Quiet [] s ∧ s.shared = c.start := by
  obtain ⟨s, hs, hv, hloop, hinside, hshared, hcalls, hinputs⟩ := exists_loop c (Nat.le_refl _)
  refine ⟨s, ⟨hs, hv, hloop, hinside, fun k hk _ => ⟨?_, hcalls k⟩⟩, hshared⟩
  rw [hinputs, if_pos hk]

/-- A callback runs up to its body. -/
theorem Quiet.enter {begun : List Nat} {k : Nat} {r : Result V E} (h : c.Quiet begun s) (hk : k ∉ begun)
    (hr : c.results[k]? = some r) (hfree : s.shared.combinator.mutex_ = false) :
    ∃ s', c.Quiet (begun ++ [k]) s' ∧ s'.calls k = .running (.body r) ∧
      s'.shared = { s.shared with combinator :=
        { s.shared.combinator with mutex_ := true, order := s.shared.combinator.order ++ [k] } } := by
  have hlt := (List.getElem?_eq_some_iff.mp hr).1
  obtain ⟨hwait, hidle⟩ := h.waiting k hlt hk
  have hset := reachable_run h.reachable h.violated (.fulfil (C := c.setting) hlt (by rw [hwait]; rfl))
  -- an executor has to start the callback first
  have hcalling : ∃ on, c.system.Reachable { s with inputs := Function.update s.inputs k (.calling on) } := by
    rw [hwait] at hset
    cases hex : c.executor k with
    | none =>
        have hfired : (Phase.waiting : Phase ι).set (c.setting.executor k) = .calling none := by
          show Phase.fired (c.executor k) = _
          rw [hex]
          rfl
        rw [hfired] at hset
        exact ⟨none, hset⟩
    | some e =>
        have hfired : (Phase.waiting : Phase ι).set (c.setting.executor k) = .queued e := by
          show Phase.fired (c.executor k) = _
          rw [hex]
          rfl
        rw [hfired] at hset
        have hstart := reachable_run hset h.violated (.start (i := k) (e := e) (Function.update_self ..))
        simp only [Function.update_idem] at hstart
        exact ⟨some e, hstart⟩
  obtain ⟨on, hcalling⟩ := hcalling
  have henter := reachable_run hcalling h.violated (.enter (i := k) (r := r) (Function.update_self ..) hr)
  simp only [Function.update_idem] at henter
  have hexec : AllState.exec c.results.length k s.shared (.lock r) = some (.ok ({ s.shared with
      combinator := { s.shared.combinator with mutex_ := true, order := s.shared.combinator.order ++ [k] } },
      some (.body r))) := by
    simp only [AllState.exec, hfree, Bool.false_eq_true, if_false]
  have hlock := reachable_run henter h.violated (.goOn (i := k) (Function.update_self ..) hexec)
  simp only [Function.update_idem] at hlock
  refine ⟨_, ⟨hlock, h.violated, h.loop, h.inside, fun j hj hnot => ?_⟩, Function.update_self .., rfl⟩
  obtain ⟨hnot, hne⟩ := not_or.mp (fun hmem => hnot (List.mem_append.mpr hmem))
  have hne : j ≠ k := fun h => hne (List.mem_singleton.mpr h)
  refine ⟨?_, ?_⟩
  · show Function.update s.inputs k _ j = .waiting
    rw [Function.update_of_ne hne]
    exact (h.waiting j hj hnot).1
  · show Function.update s.calls k _ j = .idle
    rw [Function.update_of_ne hne]
    exact (h.waiting j hj hnot).2

/-- A lambda in progress goes on. -/
theorem Quiet.goOn {begun : List Nat} {k : Nat} {pc pc' : NestedPc V E} {m' : AllState V E} (h : c.Quiet begun s)
    (hk : k ∈ begun) (hrun : s.calls k = .running pc)
    (hexec : AllState.exec c.results.length k s.shared pc = some (.ok (m', some pc'))) :
    ∃ s', c.Quiet begun s' ∧ s'.calls k = .running pc' ∧ s'.shared = m' := by
  refine ⟨_, ⟨reachable_run h.reachable h.violated (.goOn hrun hexec), h.violated, h.loop, h.inside, fun j hj hnot => ?_⟩,
    Function.update_self .., rfl⟩
  obtain ⟨hwait, hidle⟩ := h.waiting j hj hnot
  refine ⟨hwait, ?_⟩
  show Function.update s.calls k _ j = .idle
  rw [Function.update_of_ne (ne_of_mem_of_not_mem hk hnot).symm]
  exact hidle

/-- A lambda unlocks the mutex and returns. -/
theorem Quiet.unlock {begun : List Nat} {k : Nat} (h : c.Quiet begun s) (hk : k ∈ begun)
    (hrun : s.calls k = .running .unlock) :
    ∃ s', c.Quiet begun s' ∧
      s'.shared = { s.shared with combinator := { s.shared.combinator with mutex_ := false } } := by
  refine ⟨_, ⟨reachable_run h.reachable h.violated (.return hrun rfl), h.violated, h.loop, ?_, fun j hj hnot => ?_⟩, rfl⟩
  · show (if s.inside = some k then none else s.inside) = none
    rw [h.inside, if_neg nofun]
  · obtain ⟨hwait, hidle⟩ := h.waiting j hj hnot
    refine ⟨hwait, ?_⟩
    show Function.update s.calls k _ j = .idle
    rw [Function.update_of_ne (ne_of_mem_of_not_mem hk hnot).symm]
    exact hidle

/-- The subscriber comes before the output is set. -/
theorem Quiet.consume {begun : List Nat} (h : c.Quiet begun s) (hout : s.shared.output = .start) :
    ∃ s', c.Quiet begun s' ∧ s'.shared = { s.shared with output := .onlyCallback } := by
  refine ⟨{ s with shared := { s.shared with output := .onlyCallback }, consumer := .returned },
    ⟨h.reachable.step ⟨.consume, ?_⟩, h.violated, h.loop, h.inside, h.waiting⟩, rfl⟩
  simp only [next, h.violated, h.loop, h.inside, hout, and_self, if_true]

/-! ## The subscriber goes into a callback -/

/-- **A thread waits for itself.** Everything is subscribed when the error arrives, and the subscriber
    fulfils a pending input whose callback runs in place. -/
theorem exists_relocks {i j : Nat} {e : E} (he : c.results[i]? = some (.fail e)) (hj : j < c.results.length)
    (hji : j ≠ i) (hreaches : c.reaches (.fail e) j = true) (hex : c.executor j = none) :
    ∃ s, c.system.Reachable s ∧ s.Relocks := by
  obtain ⟨s₀, hquiet, hshared⟩ := exists_quiet c
  obtain ⟨s₁, hquiet, hshared₁⟩ := hquiet.consume (by rw [hshared]; rfl)
  rw [hshared] at hshared₁
  obtain ⟨s₂, hquiet, hrun, hshared₂⟩ := hquiet.enter List.not_mem_nil he (by rw [hshared₁]; rfl)
  rw [hshared₁] at hshared₂
  have hmem : i ∈ [] ++ [i] := List.mem_singleton_self i
  obtain ⟨s₃, hquiet, hrun, hshared₃⟩ := hquiet.goOn hmem hrun (by rw [hshared₂]; rfl)
  obtain ⟨s₄, hquiet, hrun, -⟩ := hquiet.goOn hmem hrun (by rw [hshared₃]; rfl)
  -- callback `i` is inside of the subscriber, and `j` is pending
  obtain ⟨hwait, hidle⟩ := hquiet.waiting j hj (fun hmem => hji (List.mem_singleton.mp hmem))
  have hsub : s₄.subscriberOf (some i) = some (.fail e, none) := by
    rw [Nested.subscriberOf, hrun]
    rfl
  have hfired : (s₄.inputs j).set (c.executor j) = .calling none := by
    rw [hwait, hex]
    rfl
  have hreenter : c.system.Reachable ({ s₄ with
      inputs := Function.update s₄.inputs j (.calling none)
      calls := Function.update s₄.calls i (.running (.subscriber (.fail e) (some j))) }) := by
    refine hquiet.reachable.step ⟨.reenter (some i) j, ?_⟩
    have hunset : (s₄.inputs j).isSet = false := by rw [hwait]; rfl
    simp only [next, hsub, hquiet.violated, Nested.back, hreaches, hj, hunset, hfired, and_self, if_true]
    rfl
  have henter := reachable_run hreenter hquiet.violated
    (.enter (C := c.setting) (i := j) (Function.update_self ..) (List.getElem?_eq_getElem hj))
  refine ⟨_, henter, i, j, _, .single ⟨.fail e, ?_, ?_⟩, ?_, Function.update_self ..⟩
  · show Function.update (Function.update s₄.calls i _) j _ i = _
    rw [Function.update_of_ne hji.symm, Function.update_self]
  · show Function.update (Function.update s₄.calls i _) j _ j ≠ _
    rw [Function.update_self]
    intro hcall
    cases hcall
  · show Nested.holds (Function.update (Function.update s₄.calls i _) j _ i) = true
    rw [Function.update_of_ne hji.symm, Function.update_self]
    rfl

/-! ## The only error comes last -/

/-- The members, when `k` values have been counted. -/
structure Values (c : Reentry V E ι) (m : AllState V E) (k : Nat) : Prop where
  output : m.output = .start
  mutex_ : m.combinator.mutex_ = false
  error_ : m.combinator.error_ = false
  promise : m.combinator.v_promise_ = true
  counter_ : m.combinator.counter_ = k
  size : m.combinator.results_.length = c.results.length

omit [Inhabited V] in
theorem exec_body_ok {n i : Nat} {m : AllState V E} {v : V} (herror : m.combinator.error_ = false)
    (hroom : m.combinator.counter_ < m.combinator.results_.length) :
    AllState.exec n i m (.body (.ok v)) = some (.ok ({ m with combinator := { m.combinator with
      results_ := m.combinator.results_.set m.combinator.counter_ v } }, some .count)) := by
  simp only [AllState.exec, herror, Bool.false_eq_true, if_false, AllCombinator.store, hroom, if_true, Except.map]

omit [Inhabited V] in
theorem exec_body_fail {n i : Nat} {m : AllState V E} {e : E} (herror : m.combinator.error_ = false) :
    AllState.exec n i m (.body (.fail e)) = some (.ok ({ m with combinator := { m.combinator with
      error_ := true } }, some (.setError e))) := by
  simp only [AllState.exec, herror, Bool.false_eq_true, if_false]

omit [Inhabited V] in
theorem exec_count {n i : Nat} (m : AllState V E) :
    AllState.exec n i m .count = some (.ok ({ m with combinator := { m.combinator with
      counter_ := m.combinator.counter_ + 1 } },
      some (if m.combinator.counter_ + 1 = n then .setValue else .unlock))) := rfl

omit [Inhabited V] in
theorem exec_setError_start {n i : Nat} {m : AllState V E} {e : E} (hpromise : m.combinator.v_promise_ = true)
    (hout : m.output = .start) :
    AllState.exec n i m (.setError e) = some (.ok ({ combinator := { m.combinator with
      v_promise_ := false, output := m.combinator.output ++ [(i, .fail e)] }, output := .onlyResult (.fail e) },
      some .count)) := by
  simp only [AllState.exec, AllState.fulfil, AllCombinator.fulfil, hpromise, if_true, Except.bind,
    AllState.setResult, hout, NestedPc.after]

/-- A value is counted, and is not the last. -/
theorem Quiet.value {begun : List Nat} {k i : Nat} {v : V} (h : c.Quiet begun s) (hm : c.Values s.shared k)
    (hi : i ∉ begun) (hv : c.results[i]? = some (.ok v)) (hfew : k + 1 < c.results.length) :
    ∃ s', c.Quiet (begun ++ [i]) s' ∧ c.Values s'.shared (k + 1) := by
  have hmem : i ∈ begun ++ [i] := List.mem_append_right _ (List.mem_singleton_self i)
  obtain ⟨s₁, h₁, hrun, hshared₁⟩ := h.enter hi hv hm.mutex_
  have hroom : s₁.shared.combinator.counter_ < s₁.shared.combinator.results_.length := by
    rw [hshared₁]
    show s.shared.combinator.counter_ < s.shared.combinator.results_.length
    rw [hm.counter_, hm.size]
    omega
  obtain ⟨s₂, h₂, hrun, hshared₂⟩ := h₁.goOn hmem hrun (exec_body_ok (by rw [hshared₁]; exact hm.error_) hroom)
  have hcount : s₂.shared.combinator.counter_ = k := by
    rw [hshared₂, hshared₁]
    exact hm.counter_
  obtain ⟨s₃, h₃, hrun, hshared₃⟩ := h₂.goOn hmem hrun (exec_count s₂.shared)
  rw [hcount, if_neg (Nat.ne_of_lt hfew)] at hrun
  obtain ⟨s₄, h₄, hshared₄⟩ := h₃.unlock hmem hrun
  refine ⟨s₄, h₄, ?_⟩
  rw [hshared₄, hshared₃, hcount, hshared₂, hshared₁]
  exact ⟨hm.output, rfl, hm.error_, hm.promise, rfl, (List.length_set ..).trans hm.size⟩

/-- Any callbacks that bring values can come first, if they are not all. -/
theorem exists_values (ks : List Nat) (hnodup : ks.Nodup) (hok : ∀ k ∈ ks, c.Succeeds k)
    (hfew : ks.length < c.results.length) : ∃ s, c.Quiet ks s ∧ c.Values s.shared ks.length := by
  induction ks using List.reverseRecOn with
  | nil =>
      obtain ⟨s, hquiet, hshared⟩ := exists_quiet c
      refine ⟨s, hquiet, ?_⟩
      rw [hshared]
      exact ⟨rfl, rfl, rfl, rfl, rfl, List.length_replicate⟩
  | append_singleton ks i ih =>
      rw [List.length_append, List.length_singleton] at hfew ⊢
      obtain ⟨s, hquiet, hvalues⟩ := ih (List.nodup_append.mp hnodup).1
        (fun k hk => hok k (List.mem_append_left _ hk)) (Nat.lt_of_succ_lt hfew)
      obtain ⟨v, hv⟩ := hok i (List.mem_append_right _ (List.mem_singleton_self i))
      have hnew : i ∉ ks := fun hi =>
        (List.nodup_append.mp hnodup).2.2 i hi i (List.mem_singleton_self i) rfl
      exact hquiet.value hvalues hnew hv hfew

/-- **A check fails.** The only error comes last, and `SetValue` finds the promise released. -/
theorem exists_violated (hsole : c.SoleFailure) :
    ∃ s, c.system.Reachable s ∧ s.violated ≠ none ∧ ∃ i < c.results.length, s.calls i ≠ .returned := by
  obtain ⟨i, e, he, honly⟩ := hsole
  have hi := (List.getElem?_eq_some_iff.mp he).1
  have hlength : ((List.range c.results.length).erase i).length + 1 = c.results.length := by
    rw [List.length_erase_of_mem (List.mem_range.mpr hi), List.length_range]
    omega
  have hok : ∀ k ∈ (List.range c.results.length).erase i, c.Succeeds k := by
    intro k hk
    obtain ⟨hne, hk⟩ := (List.nodup_range.mem_erase_iff).mp hk
    have hlt : k < c.results.length := List.mem_range.mp hk
    have hget : c.results[k]? = some c.results[k] := List.getElem?_eq_getElem hlt
    cases hr : c.results[k] with
    | ok v => exact ⟨v, by rw [hget, hr]⟩
    | fail e' => exact absurd (honly k e' (by rw [hget, hr])) hne
  obtain ⟨s, hquiet, hvalues⟩ := exists_values _ (List.nodup_range.erase i) hok (by omega)
  have hmem : i ∈ (List.range c.results.length).erase i ++ [i] :=
    List.mem_append_right _ (List.mem_singleton_self i)
  obtain ⟨s₁, h₁, hrun, hshared₁⟩ := hquiet.enter List.nodup_range.not_mem_erase he hvalues.mutex_
  obtain ⟨s₂, h₂, hrun, hshared₂⟩ :=
    h₁.goOn hmem hrun (exec_body_fail (by rw [hshared₁]; exact hvalues.error_))
  obtain ⟨s₃, h₃, hrun, hshared₃⟩ := h₂.goOn hmem hrun (exec_setError_start
    (by rw [hshared₂, hshared₁]; exact hvalues.promise) (by rw [hshared₂, hshared₁]; exact hvalues.output))
  obtain ⟨s₄, h₄, hrun, hshared₄⟩ := h₃.goOn hmem hrun (exec_count s₃.shared)
  have hlast : s₃.shared.combinator.counter_ + 1 = c.results.length := by
    rw [hshared₃, hshared₂, hshared₁]
    show s.shared.combinator.counter_ + 1 = _
    rw [hvalues.counter_, hlength]
  rw [if_pos hlast] at hrun
  have hfailed : AllState.exec c.results.length i s₄.shared .setValue = some (.error .noSharedState) := by
    rw [hshared₄, hshared₃]
    rfl
  refine ⟨_, reachable_run h₄.reachable h₄.violated (.violate hrun hfailed), nofun, i, hi, ?_⟩
  show s₄.calls i ≠ .returned
  rw [hrun]
  exact nofun

/-! ## Exactly when `All` never gets stuck -/

/-- **`All` never gets stuck exactly if the subscriber stays out, and the inputs do not have just one
    error.** For all results of the inputs, all executors they have, and every subscriber. -/
theorem neverStuck_iff (c : Reentry V E ι) : c.NeverStuck ↔ c.StaysOut ∧ ¬ c.SoleFailure := by
  constructor
  · intro hnever
    constructor
    · intro i e he j hj hji hreaches hex
      obtain ⟨s, hs, hrelocks⟩ := exists_relocks he hj hji hreaches hex
      exact (hnever s hs).1 hrelocks
    · intro hsole
      obtain ⟨s, hs, hv, i, hi, hcalls⟩ := exists_violated hsole
      have hq : c.system.Quiescent s := by
        rintro s' ⟨a, hnext⟩
        exact hv (next_stepped hnext).1
      exact hcalls ((hnever s hs).2.2 hq i hi)
  · rintro ⟨hout, hsole⟩
    exact neverStuck hout hsole

/-- Two inputs without executors, and a subscriber that fulfils the second. -/
def second : Reentry Nat Nat Unit where
  results := [.fail 5, .ok 7]
  executor _ := none
  reaches _ j := j == 1

/-- The first fails when both are subscribed, and the output is: its thread locks `mutex_` twice. -/
theorem second_relocks : ¬ ∀ s, second.system.Reachable s → ¬ s.Relocks := by
  intro hclaim
  have hrun : ∃ s, System.run second.next { shared := second.start }
      [.run .subscribe, .run .subscribe, .consume, .run (.fulfil 0), .run (.enter 0), .run (.exec 0),
        .run (.exec 0), .run (.exec 0), .reenter (some 0) 1, .run (.enter 1)] = some s ∧
      s.calls 0 = .running (.subscriber (.fail 5) (some 1)) ∧ s.calls 1 = .running (.lock (.ok 7)) :=
    ⟨_, rfl, rfl, rfl⟩
  obtain ⟨s, hs, hzero, hone⟩ := hrun
  refine hclaim s (System.reachable_of_run _ hs) ⟨0, 1, .ok 7, .single ⟨.fail 5, hzero, ?_⟩, ?_, hone⟩
  · rw [hone]
    exact nofun
  · rw [hzero]
    rfl

end Reentry

end Combine
end Tpcc
