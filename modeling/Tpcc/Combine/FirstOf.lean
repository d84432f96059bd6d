import Tpcc.Combine.Inputs

/-!
# `Combine.FirstOf` — the first value

`FirstOfCombinator::Combine` on `n ≥ 1` inputs. No lock protects the members: a callback checks its
result, exchanges `released_`, and sets the promise, in three steps between which others run. A value
reaches the promise by winning the exchange, so `Fits` can say where each callback is in terms of who was
first (`exchanges`).

An error does nothing at all (`if (result.HasError()) return;`). Where every input fails, the promise is
never touched, although the result is documented as the first value or the last error.
-/

namespace Tpcc
namespace Combine

open Transition Futures

variable {V E X ι : Type}

/-- The members of `detail::FirstOfCombinator`. The last three fields record the callbacks in the order in
    which they checked their results, those that exchanged `released_` in the order of the exchanges, and
    the calls of `SetValue` with the callback that made them. -/
structure FirstOfCombinator (V E : Type) where
  released_ : Bool := false
  v_promise_ : Bool := true
  order : List Nat := []
  exchanges : List Nat := []
  output : List (Nat × Result V E) := []

/-- The operations of the lambda. -/
inductive FirstOfPc (V E : Type) where
  | hasError (result : Result V E)
  | exchange (result : Result V E)
  | setValue (result : Result V E)

namespace FirstOfCombinator

def exec (W : Wheels V E X) (i : Nat) (c : FirstOfCombinator V E) :
    FirstOfPc V E → Option (Except Violation (FirstOfCombinator V E × Option (FirstOfPc V E)))
  | .hasError r =>
      some (.ok ({ c with order := c.order ++ [i] }, if r.isOk then some (.exchange r) else none))
  | .exchange r =>
      some (.ok ({ c with released_ := true, exchanges := c.exchanges ++ [i] },
        if c.released_ then none else some (.setValue r)))
  | .setValue r =>
      match W.unwrap r with
      -- the conversion to the argument throws, and the exception leaves the callback
      | .error _ => some (.ok (c, none))
      | .ok v =>
          if c.v_promise_ then
            some (.ok ({ c with v_promise_ := false, output := c.output ++ [(i, .ok v)] }, none))
          else some (.error .noSharedState)

end FirstOfCombinator

/-- `FirstOf` on these inputs. -/
def firstOf (W : Wheels V E X) (results : List (Result V E)) (executor : Nat → Option ι) :
    Setting (FirstOfCombinator V E) (FirstOfPc V E) V E ι where
  lambda := { enter := .hasError, exec := FirstOfCombinator.exec W }
  results := results
  executor := executor

/-- All runs of `FirstOf` on these inputs. -/
def firstOfSystem (W : Wheels V E X) (results : List (Result V E)) (executor : Nat → Option ι) :
    System (Run (FirstOfCombinator V E) (FirstOfPc V E) ι) :=
  (firstOf W results executor).system {}

namespace FirstOfCombinator

/-! ## The race -/

/-- What is known of callback `i` by where it is. -/
def Fits (results : List (Result V E)) (c : FirstOfCombinator V E) (i : Nat) :
    Call (FirstOfPc V E) → Prop
  | .idle => True
  | .running (.hasError r) => results[i]? = some r
  | .running (.exchange r) => ∃ v, r = .ok v ∧ results[i]? = some (.ok v)
  | .running (.setValue r) =>
      c.exchanges.head? = some i ∧ c.v_promise_ = true ∧ c.output = [] ∧
        ∃ v, r = .ok v ∧ results[i]? = some (.ok v)
  | .returned => ∀ v, results[i]? = some (.ok v) → c.exchanges ≠ []

/-- The first to exchange sets the promise, or has set it. -/
structure Inv (results : List (Result V E)) (c : FirstOfCombinator V E)
    (calls : Nat → Call (FirstOfPc V E)) : Prop where
  fits : ∀ i, Fits results c i (calls i)
  released : c.released_ = true ↔ c.exchanges ≠ []
  pending : c.exchanges = [] → c.v_promise_ = true ∧ c.output = []
  first : ∀ i, c.exchanges.head? = some i →
    (c.output = [] ∧ ∃ r, calls i = .running (.setValue r)) ∨
      ∃ v, c.output = [(i, .ok v)] ∧ results[i]? = some (.ok v)

/-- A step of the other callbacks that exchanges nothing and does not touch the promise. -/
theorem Fits.congr {results : List (Result V E)} {c c' : FirstOfCombinator V E} {i : Nat}
    {x : Call (FirstOfPc V E)} (h : Fits results c i x) (hexchanges : c'.exchanges = c.exchanges)
    (hpromise : c'.v_promise_ = c.v_promise_) (houtput : c'.output = c.output) :
    Fits results c' i x := by
  unfold Fits at h ⊢
  rw [hexchanges, hpromise, houtput]
  exact h

theorem inv_init {results : List (Result V E)} : Inv results {} fun _ => .idle := by
  refine ⟨fun _ => trivial, by simp, fun _ => ⟨rfl, rfl⟩, ?_⟩
  intro i hi
  cases hi

/-- A callback that is not about to set the promise makes a step that leaves the winner where it is. -/
theorem Inv.first_update {results : List (Result V E)} {c : FirstOfCombinator V E}
    {calls : Nat → Call (FirstOfPc V E)} (h : Inv results c calls) {i : Nat} {x : Call (FirstOfPc V E)}
    (hi : ∀ r, calls i ≠ .running (.setValue r)) (j : Nat) (hj : c.exchanges.head? = some j) :
    (c.output = [] ∧ ∃ r, Function.update calls i x j = .running (.setValue r)) ∨
      ∃ v, c.output = [(j, .ok v)] ∧ results[j]? = some (.ok v) := by
  refine (h.first j hj).imp_left ?_
  rintro ⟨hout, r, hset⟩
  refine ⟨hout, r, ?_⟩
  rw [Function.update_of_ne, hset]
  rintro rfl
  exact hi r hset

theorem Inv.enter {results : List (Result V E)} {c : FirstOfCombinator V E}
    {calls : Nat → Call (FirstOfPc V E)} (h : Inv results c calls) {i : Nat} {r : Result V E}
    (hi : calls i = .idle) (hr : results[i]? = some r) :
    Inv results c (Function.update calls i (.running (.hasError r))) := by
  refine ⟨?_, h.released, h.pending, h.first_update (by simp [hi])⟩
  exact (Function.forall_update_iff calls _).mpr ⟨hr, fun j _ => h.fits j⟩

/-- A value goes on to the exchange. -/
theorem Inv.passes {results : List (Result V E)} {c : FirstOfCombinator V E}
    {calls : Nat → Call (FirstOfPc V E)} (h : Inv results c calls) {i : Nat} {v : V}
    (hi : calls i = .running (.hasError (.ok v))) :
    Inv results ({ c with order := c.order ++ [i] })
      (Function.update calls i (.running (.exchange (.ok v)))) := by
  have hfits := h.fits i
  rw [hi] at hfits
  refine ⟨?_, h.released, h.pending, h.first_update (by simp [hi])⟩
  refine (Function.forall_update_iff calls _).mpr ⟨⟨v, rfl, hfits⟩, ?_⟩
  intro j _
  exact (h.fits j).congr rfl rfl rfl

/-- An error returns. -/
theorem Inv.ignores {results : List (Result V E)} {c : FirstOfCombinator V E}
    {calls : Nat → Call (FirstOfPc V E)} (h : Inv results c calls) {i : Nat} {e : E}
    (hi : calls i = .running (.hasError (.fail e))) :
    Inv results ({ c with order := c.order ++ [i] }) (Function.update calls i .returned) := by
  have hfits := h.fits i
  rw [hi] at hfits
  refine ⟨?_, h.released, h.pending, h.first_update (by simp [hi])⟩
  refine (Function.forall_update_iff calls _).mpr ⟨?_, ?_⟩
  · intro v hv
    rw [show results[i]? = some (.fail e) from hfits] at hv
    cases hv
  · intro j _
    exact (h.fits j).congr rfl rfl rfl

/-- The first exchange wins. -/
theorem Inv.wins {results : List (Result V E)} {c : FirstOfCombinator V E}
    {calls : Nat → Call (FirstOfPc V E)} (h : Inv results c calls) {i : Nat} {r : Result V E}
    (hi : calls i = .running (.exchange r)) (hfirst : c.released_ = false) :
    Inv results ({ c with released_ := true, exchanges := c.exchanges ++ [i] })
      (Function.update calls i (.running (.setValue r))) := by
  have hnil : c.exchanges = [] := by
    by_contra hne
    rw [h.released.mpr hne] at hfirst
    cases hfirst
  obtain ⟨hpromise, hout⟩ := h.pending hnil
  have hfits := h.fits i
  rw [hi] at hfits
  refine ⟨?_, by simp, by simp, ?_⟩
  · refine (Function.forall_update_iff calls _).mpr ⟨⟨by simp [hnil], hpromise, hout, hfits⟩, ?_⟩
    intro j _
    have hj := h.fits j
    unfold Fits at hj ⊢
    split at hj
    · trivial
    · exact hj
    · exact hj
    · rw [hnil] at hj
      cases hj.1
    · intro v hv
      simp
  · intro j hj
    rw [hnil, List.nil_append, List.head?_cons, Option.some.injEq] at hj
    subst hj
    exact .inl ⟨hout, r, Function.update_self ..⟩

/-- A later exchange loses. -/
theorem Inv.loses {results : List (Result V E)} {c : FirstOfCombinator V E}
    {calls : Nat → Call (FirstOfPc V E)} (h : Inv results c calls) {i : Nat} {r : Result V E}
    (hi : calls i = .running (.exchange r)) (hlater : c.released_ = true) :
    Inv results ({ c with released_ := true, exchanges := c.exchanges ++ [i] })
      (Function.update calls i .returned) := by
  have hne := h.released.mp hlater
  have hhead : (c.exchanges ++ [i]).head? = c.exchanges.head? := List.head?_append_of_ne_nil _ hne
  refine ⟨?_, by simp, by simp, ?_⟩
  · refine (Function.forall_update_iff calls _).mpr ⟨fun v _ => by simp, ?_⟩
    intro j _
    have hj := h.fits j
    unfold Fits at hj ⊢
    rw [hhead]
    split at hj
    · trivial
    · exact hj
    · exact hj
    · exact hj
    · intro v hv
      simp
  · intro j hj
    rw [hhead] at hj
    exact h.first_update (by simp [hi]) j hj

/-- The winner sets the promise. -/
theorem Inv.sets {results : List (Result V E)} {c : FirstOfCombinator V E}
    {calls : Nat → Call (FirstOfPc V E)} (h : Inv results c calls) {i : Nat} {v : V}
    (hi : calls i = .running (.setValue (.ok v))) :
    Inv results ({ c with v_promise_ := false, output := c.output ++ [(i, .ok v)] })
      (Function.update calls i .returned) := by
  have hfits := h.fits i
  rw [hi] at hfits
  obtain ⟨hhead, hpromise, hout, v', hv', hbrings⟩ := hfits
  cases hv'
  have hne : c.exchanges ≠ [] := by
    intro hnil
    rw [hnil] at hhead
    cases hhead
  refine ⟨?_, h.released, fun hnil => absurd hnil hne, ?_⟩
  · refine (Function.forall_update_iff calls _).mpr ⟨fun w _ => hne, ?_⟩
    intro j hji
    have hj := h.fits j
    unfold Fits at hj ⊢
    split at hj
    · trivial
    · exact hj
    · exact hj
    · -- only the first exchange gets here
      rw [hhead, Option.some.injEq] at hj
      exact absurd hj.1.symm hji
    · exact hj
  · intro j hj
    rw [hhead, Option.some.injEq] at hj
    subst hj
    exact .inr ⟨v, by rw [hout]; rfl, hbrings⟩

/-! ## Runs -/

/-- The steps a callback has left. -/
def FirstOfPc.rank : FirstOfPc V E → Nat
  | .hasError _ => 2
  | .exchange _ => 1
  | .setValue _ => 0

/-- What one step of a callback does. -/
inductive Executed (W : Wheels V E X) (i : Nat) (c : FirstOfCombinator V E) :
    FirstOfPc V E → Except Violation (FirstOfCombinator V E × Option (FirstOfPc V E)) → Prop where
  | passes (v : V) : Executed W i c (.hasError (.ok v))
      (.ok ({ c with order := c.order ++ [i] }, some (.exchange (.ok v))))
  | ignores (e : E) : Executed W i c (.hasError (.fail e))
      (.ok ({ c with order := c.order ++ [i] }, none))
  | wins (r : Result V E) (unreleased : c.released_ = false) : Executed W i c (.exchange r)
      (.ok ({ c with released_ := true, exchanges := c.exchanges ++ [i] }, some (.setValue r)))
  | loses (r : Result V E) (released : c.released_ = true) : Executed W i c (.exchange r)
      (.ok ({ c with released_ := true, exchanges := c.exchanges ++ [i] }, none))
  | throws (r : Result V E) (x : X) (threw : W.unwrap r = .error x) : Executed W i c (.setValue r)
      (.ok (c, none))
  | sets (r : Result V E) (v : V) (value : W.unwrap r = .ok v) (promise : c.v_promise_ = true) :
      Executed W i c (.setValue r)
        (.ok ({ c with v_promise_ := false, output := c.output ++ [(i, .ok v)] }, none))
  | violates (r : Result V E) (v : V) (value : W.unwrap r = .ok v) (promise : c.v_promise_ = false) :
      Executed W i c (.setValue r) (.error .noSharedState)

/-- No callback waits for another, and these are all its steps. -/
theorem exists_executed (W : Wheels V E X) (i : Nat) (c : FirstOfCombinator V E) (pc : FirstOfPc V E) :
    ∃ o, exec W i c pc = some o ∧ Executed W i c pc o := by
  cases pc with
  | hasError r =>
      cases r with
      | ok v => exact ⟨_, rfl, .passes v⟩
      | fail e => exact ⟨_, rfl, .ignores e⟩
  | exchange r =>
      by_cases hreleased : c.released_ = true
      · exact ⟨_, by rw [exec, if_pos hreleased], .loses r hreleased⟩
      · exact ⟨_, by rw [exec, if_neg hreleased], .wins r (by simpa using hreleased)⟩
  | setValue r =>
      cases hunwrap : W.unwrap r with
      | error x => exact ⟨_, by rw [exec, hunwrap], .throws r x hunwrap⟩
      | ok v =>
          by_cases hpromise : c.v_promise_ = true
          · exact ⟨_, by simp [exec, hunwrap, hpromise], .sets r v hunwrap hpromise⟩
          · exact ⟨_, by simp [exec, hunwrap, hpromise], .violates r v hunwrap (by simpa using hpromise)⟩

theorem executed {W : Wheels V E X} {i : Nat} {c : FirstOfCombinator V E} {pc : FirstOfPc V E}
    {o : Except Violation (FirstOfCombinator V E × Option (FirstOfPc V E))}
    (h : exec W i c pc = some o) : Executed W i c pc o := by
  obtain ⟨o', ho', hexecuted⟩ := exists_executed W i c pc
  rw [h] at ho'
  cases ho'
  exact hexecuted

variable {W : Wheels V E X} {results : List (Result V E)} {executor : Nat → Option ι}
  {s : Run (FirstOfCombinator V E) (FirstOfPc V E) ι}

/-- Every run ends. -/
theorem firstOfSystem_terminates (h : (firstOfSystem W results executor).Reachable s) :
    (firstOfSystem W results executor).Terminates s := by
  refine (firstOf W results executor).terminates FirstOfPc.rank 2 (fun _ => Nat.le_refl 2) ?_ h
  intro i m pc m' pc' hexec
  cases executed hexec with
  | passes v => exact Nat.lt_succ_self 1
  | wins r unreleased => exact Nat.lt_succ_self 0

/-- At the end of a run all callbacks have returned. -/
theorem returned_of_quiescent (h : (firstOfSystem W results executor).Reachable s)
    (hq : (firstOfSystem W results executor).Quiescent s) (hv : s.violated = none) :
    ∀ i < results.length, s.calls i = .returned := by
  intro i hi
  refine Setting.returned_of_quiescent h hq hv ?_ hi
  intro j pc hj
  refine ⟨j, pc, hj, ?_⟩
  obtain ⟨o, ho, -⟩ := exists_executed W j s.shared pc
  show exec W j s.shared pc ≠ none
  rw [ho]
  exact Option.some_ne_none o

/-- The invariant holds in every run, and no check fails. -/
theorem reachable_inv (hW : W.Documented) (h : (firstOfSystem W results executor).Reachable s) :
    Inv results s.shared s.calls ∧ s.violated = none := by
  have hinv : Inv results s.shared s.calls ∧ _ :=
    (firstOf W results executor).invariant_shared inv_init ?_ ?_ ?_ h
  · refine ⟨hinv.1, ?_⟩
    rw [Option.eq_none_iff_forall_ne_some]
    intro v hv
    obtain ⟨i, pc, hrun, hexec⟩ := hinv.2 v hv
    cases executed hexec with
    | violates r v value promise =>
        have hfits := hinv.1.fits i
        rw [hrun] at hfits
        rw [hfits.2.1] at promise
        cases promise
  · intro m calls i r hm hi hr
    exact hm.enter hi hr
  · intro m calls i pc m' pc' hm hi hexec
    cases executed hexec with
    | passes v => exact hm.passes hi
    | wins r unreleased => exact hm.wins hi unreleased
  · intro m calls i pc m' hm hi hexec
    cases executed hexec with
    | ignores e => exact hm.ignores hi
    | loses r released => exact hm.loses hi released
    | throws r x threw =>
        have hfits := hm.fits i
        rw [hi] at hfits
        obtain ⟨-, -, -, v, rfl, -⟩ := hfits
        rw [hW.unwrap_ok] at threw
        cases threw
    | sets r v value promise =>
        have hfits := hm.fits i
        rw [hi] at hfits
        obtain ⟨-, -, -, w, rfl, -⟩ := hfits
        rw [hW.unwrap_ok] at value
        cases value
        exact hm.sets hi

/-! ## Some input succeeds -/

/-- The value of callback `i`, the first to exchange `released_`, has been delivered, by that callback. -/
structure DeliveredFirst (results : List (Result V E)) (c : FirstOfCombinator V E) (i : Nat) (v : V) :
    Prop where
  output : c.output = [(i, .ok v)]
  first : c.exchanges.head? = some i
  brings : results[i]? = some (.ok v)

/-- Once a callback has exchanged, and none is about to set the promise, it has been set. -/
theorem Inv.delivered {c : FirstOfCombinator V E} {calls : Nat → Call (FirstOfPc V E)}
    (h : Inv results c calls) (hne : c.exchanges ≠ [])
    (hset : c.output ≠ [] ∨ ∀ i r, calls i ≠ .running (.setValue r)) :
    ∃ i v, DeliveredFirst results c i v := by
  obtain ⟨i, hi⟩ := Option.ne_none_iff_exists'.mp (mt List.head?_eq_none_iff.mp hne)
  rcases h.first i hi with ⟨hout, r, hr⟩ | ⟨v, hout, hbrings⟩
  · rcases hset with hne | hnone
    · exact absurd hout hne
    · exact absurd hr (hnone i r)
  · exact ⟨i, v, hout, hi, hbrings⟩

end FirstOfCombinator

open FirstOfCombinator

variable {W : Wheels V E X} {results : List (Result V E)} {executor : Nat → Option ι}
  {s : Run (FirstOfCombinator V E) (FirstOfPc V E) ι}

/-- **With a success, `FirstOf` delivers the value of the first callback to exchange `released_`, once.**
    In every state of every run no check fails, and the output has not been set, or it has been set once,
    to that value and by that callback. Every run ends, and at its end the output has been set. -/
theorem firstOf_delivers_first (hW : W.Documented) (hvalue : ∃ v, .ok v ∈ results)
    (h : (firstOfSystem W results executor).Reachable s) :
    s.violated = none ∧
      (s.shared.output = [] ∨ ∃ i v, DeliveredFirst results s.shared i v) ∧
      (firstOfSystem W results executor).Terminates s ∧
      ((firstOfSystem W results executor).Quiescent s →
        (∀ i < results.length, s.calls i = .returned) ∧ ∃ i v, DeliveredFirst results s.shared i v) := by
  obtain ⟨hinv, hv⟩ := reachable_inv hW h
  refine ⟨hv, ?_, firstOfSystem_terminates h, ?_⟩
  · by_cases hout : s.shared.output = []
    · exact .inl hout
    · refine .inr (hinv.delivered ?_ (.inl hout))
      intro hnil
      exact hout (hinv.pending hnil).2
  · intro hq
    have hreturned := returned_of_quiescent h hq hv
    refine ⟨hreturned, hinv.delivered ?_ (.inr ?_)⟩
    · -- some callback had a value, and it has returned
      obtain ⟨v, hmem⟩ := hvalue
      obtain ⟨i, hi, hbrings⟩ := List.mem_iff_getElem.mp hmem
      have hfits := hinv.fits i
      rw [hreturned i hi] at hfits
      exact hfits v (List.getElem?_eq_some_iff.mpr ⟨hi, hbrings⟩)
    · intro i r hrun
      have hi : i < results.length := Setting.lt_size h (by simp [hrun])
      rw [hreturned i hi] at hrun
      cases hrun

/-- Three inputs, of which the second fails and the third exchanges before the first. -/
theorem firstOf_delivers_first_of_third :
    ∃ s, (firstOfSystem (ι := Unit) (Wheels.exceptionPtr Nat Nat) [.ok 7, .fail 5, .ok 8]
        fun _ => none).Reachable s ∧
      s.shared.output = [(2, .ok 8)] ∧ s.violated = none ∧
      ∃ i v, DeliveredFirst [.ok 7, .fail 5, .ok 8] s.shared i v := by
  have hrun : ∃ s, System.run (firstOf (ι := Unit) (Wheels.exceptionPtr Nat Nat)
      [.ok 7, .fail 5, .ok 8] fun _ => none).next { shared := {} }
      [.subscribe, .subscribe, .subscribe, .fulfil 1, .enter 1, .exec 1, .fulfil 0, .enter 0, .exec 0,
        .fulfil 2, .enter 2, .exec 2, .exec 2, .exec 0, .exec 2] = some s ∧
      s.shared.output = [(2, .ok 8)] := ⟨_, rfl, rfl⟩
  obtain ⟨s, hs, hout⟩ := hrun
  have h : (firstOfSystem (ι := Unit) (Wheels.exceptionPtr Nat Nat) [.ok 7, .fail 5, .ok 8]
      fun _ => none).Reachable s := System.reachable_of_run _ hs
  obtain ⟨hv, hdelivered, -⟩ :=
    firstOf_delivers_first (Wheels.exceptionPtr_documented Nat Nat) ⟨7, by simp⟩ h
  refine ⟨s, h, hout, hv, hdelivered.resolve_left ?_⟩
  rw [hout]
  exact List.cons_ne_nil _ _

/-! ## Every input fails -/

namespace FirstOfCombinator

/-- A callback of a failed input checks its result, and returns. -/
def Fails : Call (FirstOfPc V E) → Prop
  | .idle => True
  | .running (.hasError r) => ∃ e, r = .fail e
  | .running _ => False
  | .returned => True

/-- Nothing has reached the promise, and nothing is on its way there. -/
def Untouched (c : FirstOfCombinator V E) (calls : Nat → Call (FirstOfPc V E)) : Prop :=
  c.output = [] ∧ ∀ i, Fails (calls i)

/-- Errors never reach the promise. -/
theorem output_nil {es : List E}
    (h : (firstOfSystem W (es.map (Result.fail (V := V))) executor).Reachable s) :
    s.shared.output = [] ∧ s.violated = none := by
  have hinv : Untouched s.shared s.calls ∧ _ :=
    Setting.invariant_shared ⟨rfl, fun _ => trivial⟩ ?_ ?_ ?_ h
  · refine ⟨hinv.1.1, ?_⟩
    rw [Option.eq_none_iff_forall_ne_some]
    intro v hv
    obtain ⟨i, pc, hrun, hexec⟩ := hinv.2 v hv
    have hi := hinv.1.2 i
    rw [hrun] at hi
    cases executed hexec with
    | violates r v value promise => exact hi
  · rintro m calls i r ⟨hout, hfails⟩ - hr
    refine ⟨hout, (Function.forall_update_iff calls _).mpr ⟨?_, fun j _ => hfails j⟩⟩
    obtain ⟨e, -, he⟩ := List.mem_map.mp (List.mem_of_getElem? hr)
    exact ⟨e, he.symm⟩
  · rintro m calls i pc m' pc' ⟨-, hfails⟩ hi hexec
    have hfail := hfails i
    rw [hi] at hfail
    cases executed hexec with
    | passes v =>
        obtain ⟨e, he⟩ := hfail
        cases he
    | wins r unreleased => exact hfail.elim
  · rintro m calls i pc m' ⟨hout, hfails⟩ hi hexec
    have hfail := hfails i
    rw [hi] at hfail
    cases executed hexec with
    | ignores e =>
        exact ⟨hout, (Function.forall_update_iff calls _).mpr ⟨trivial, fun j _ => hfails j⟩⟩
    | loses | throws | sets => exact hfail.elim

/-- The output has been fulfilled once, with the error of the last callback. -/
def FulfilledByLast (results : List (Result V E)) (c : FirstOfCombinator V E) : Prop :=
  ∃ i e, c.output = [(i, .fail e)] ∧ c.order.getLast? = some i ∧ results[i]? = some (.fail e)

end FirstOfCombinator

/-- **Where every input fails, `FirstOf` never fulfils its output.** For any errors there is a run in which
    all callbacks have returned; and after no such run has the output been fulfilled, so that its consumer
    waits for ever. -/
theorem firstOf_never_fulfilled (W : Wheels V E X) (e : E) (es : List E) (executor : Nat → Option ι) :
    (∃ s, (firstOfSystem W ((e :: es).map .fail) executor).Reachable s ∧
        ∀ i < (e :: es).length, s.calls i = .returned) ∧
      ∀ s, (firstOfSystem W ((e :: es).map .fail) executor).Reachable s →
        (∀ i < (e :: es).length, s.calls i = .returned) →
        s.shared.output = [] ∧ ¬ FulfilledByLast ((e :: es).map .fail) s.shared := by
  constructor
  · have h₀ : (firstOfSystem W ((e :: es).map .fail) executor).Reachable { shared := {} } := .of_init rfl
    obtain ⟨s, hsteps, hq⟩ := (firstOfSystem_terminates h₀).exists_quiescent
    have h := h₀.steps hsteps
    refine ⟨s, h, ?_⟩
    simpa using returned_of_quiescent h hq (output_nil h).2
  · intro s h hreturned
    have hout := (output_nil h).1
    refine ⟨hout, ?_⟩
    rintro ⟨i, e', hout', -⟩
    rw [hout] at hout'
    cases hout'

/-- One input, which fails: its callback returns, and the output has not been fulfilled. -/
theorem firstOf_not_fulfilled_one :
    ¬ ∀ s, (firstOfSystem (ι := Unit) (Wheels.exceptionPtr Nat Nat) [.fail 5] fun _ => none).Reachable s →
      s.calls 0 = .returned → FulfilledByLast [.fail 5] s.shared := by
  intro hclaim
  have hrun : ∃ s, System.run (firstOf (ι := Unit) (Wheels.exceptionPtr Nat Nat) [.fail 5]
      fun _ => none).next { shared := {} } [.subscribe, .fulfil 0, .enter 0, .exec 0] = some s ∧
      s.calls 0 = .returned ∧ s.shared.output = [] := ⟨_, rfl, rfl, rfl⟩
  obtain ⟨s, hs, hreturned, hout⟩ := hrun
  obtain ⟨i, e, hout', -⟩ := hclaim s (System.reachable_of_run _ hs) hreturned
  rw [hout] at hout'
  cases hout'

end Combine
end Tpcc
