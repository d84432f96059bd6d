import Mathlib.Algebra.GroupWithZero.Nat
import Mathlib.Logic.Relation

/-!
# `Transition.System` — transition systems, reachability and the invariant rules

A concurrent program is modelled as a set of states, the states it can start in, and the relation of
its atomic steps; an interleaving is a path of that relation. This module is the generic part: it
names no program.

## Contents
- **Runs.** `System`, `Steps`, `Reachable`, and runs in which every step meets a condition (`restrict`).
  `Path` is a run with its states numbered, for what happens between two moments of it.
- **Invariants.** `Reachable.invariant`: what the initial states have and one step preserves, every
  reachable state has. `Reachable.invariant_reachable` lets the step use an invariant proved before.
- **Termination.** `Ranked`: an invariant indexed by a number that every step makes smaller. It holds of
  every reachable state (`Reachable.ranked`), and it leaves no infinite run (`Ranked.terminates`).
- **Executable systems.** `ofNext`, and `reachable_of_run`: a list of actions that evaluates is a run.
-/

namespace Tpcc
namespace Transition

/-- A transition system: the initial states and the atomic steps. -/
structure System (σ : Type*) where
  init : σ → Prop
  step : σ → σ → Prop

namespace System

variable {σ τ : Type*} {S : System σ}

/-- A finite run: zero or more steps. -/
def Steps (S : System σ) : σ → σ → Prop := Relation.ReflTransGen S.step

/-- A state some run from an initial state ends in. -/
def Reachable (S : System σ) (s : σ) : Prop := ∃ s₀, S.init s₀ ∧ S.Steps s₀ s

/-- No step leaves `s`. -/
def Quiescent (S : System σ) (s : σ) : Prop := ∀ s', ¬ S.step s s'

/-! ## Runs -/

theorem Steps.refl {s : σ} : S.Steps s s := Relation.ReflTransGen.refl

theorem Steps.tail {a b c : σ} (h : S.Steps a b) (hs : S.step b c) : S.Steps a c :=
  Relation.ReflTransGen.tail h hs

theorem Steps.head {a b c : σ} (hs : S.step a b) (h : S.Steps b c) : S.Steps a c :=
  Relation.ReflTransGen.head hs h

theorem Steps.trans {a b c : σ} (h : S.Steps a b) (h' : S.Steps b c) : S.Steps a c :=
  Relation.ReflTransGen.trans h h'

theorem Reachable.of_init {s : σ} (h : S.init s) : S.Reachable s := ⟨s, h, Steps.refl⟩

theorem Reachable.step {s s' : σ} (h : S.Reachable s) (hs : S.step s s') : S.Reachable s' :=
  let ⟨s₀, h₀, hr⟩ := h; ⟨s₀, h₀, hr.tail hs⟩

theorem Reachable.steps {s s' : σ} (h : S.Reachable s) (hs : S.Steps s s') : S.Reachable s' :=
  let ⟨s₀, h₀, hr⟩ := h; ⟨s₀, h₀, hr.trans hs⟩

/-! ## Invariants -/

/-- **The invariant rule.** -/
theorem Reachable.invariant {P : σ → Prop} (hinit : ∀ s, S.init s → P s)
    (hstep : ∀ s s', P s → S.step s s' → P s') {s : σ} (h : S.Reachable s) : P s := by
  obtain ⟨s₀, h₀, hr⟩ := h
  induction hr with
  | refl => exact hinit s₀ h₀
  | tail _ hs ih => exact hstep _ _ ih hs

/-- The invariant rule, where the step may use what is known of reachable states already. -/
theorem Reachable.invariant_reachable {P : σ → Prop} (hinit : ∀ s, S.init s → P s)
    (hstep : ∀ s s', S.Reachable s → P s → S.step s s' → P s') {s : σ} (h : S.Reachable s) :
    P s := by
  refine (h.invariant (P := fun s => S.Reachable s ∧ P s) ?_ ?_).2
  · intro s h₀
    exact ⟨.of_init h₀, hinit s h₀⟩
  · rintro s s' ⟨hs, hinv⟩ hs'
    exact ⟨hs.step hs', hstep s s' hs hinv hs'⟩

/-! ## Numbered runs -/

/-- `r 0`, …, `r n` is a run. -/
def Path (S : System σ) (r : Nat → σ) (n : Nat) : Prop := ∀ k < n, S.step (r k) (r (k + 1))

/-- The invariant rule along a path, where the step may use that both its states are on the path. -/
theorem Path.invariant {r : Nat → σ} {n : Nat} (h : S.Path r n) {P : Nat → Prop} (hzero : P 0)
    (hstep : ∀ k < n, P k → S.step (r k) (r (k + 1)) → P (k + 1)) {k : Nat} (hk : k ≤ n) : P k := by
  induction k with
  | zero => exact hzero
  | succ k ih => exact hstep k hk (ih (Nat.le_of_succ_le hk)) (h k hk)

theorem Path.reachable {r : Nat → σ} {n : Nat} (h : S.Path r n) (h₀ : S.Reachable (r 0)) {k : Nat}
    (hk : k ≤ n) : S.Reachable (r k) :=
  h.invariant (P := fun k => S.Reachable (r k)) h₀ (fun _ _ hr hs => hr.step hs) hk

/-! ## Conditions on the steps -/

/-- The runs all of whose steps meet `P`. -/
def restrict (S : System σ) (P : σ → σ → Prop) : System σ where
  init := S.init
  step s s' := P s s' ∧ S.step s s'

theorem Reachable.of_restrict {P : σ → σ → Prop} {s : σ} (h : (S.restrict P).Reachable s) :
    S.Reachable s := by
  refine h.invariant (fun _ h₀ => .of_init h₀) ?_
  intro s s' hs hstep
  exact hs.step hstep.2

/-- The invariant rule for such runs, where the step may use what is known of all reachable states. -/
theorem Reachable.invariant_restrict {C : σ → σ → Prop} {P : σ → Prop} (hinit : ∀ s, S.init s → P s)
    (hstep : ∀ s s', S.Reachable s → P s → C s s' → S.step s s' → P s') {s : σ}
    (h : (S.restrict C).Reachable s) : P s := by
  refine Reachable.invariant_reachable (S := S.restrict C) hinit ?_ h
  rintro s s' hs hinv ⟨hC, hs'⟩
  exact hstep s s' hs.of_restrict hinv hC hs'

/-! ## Termination -/

/-- No infinite run starts in `s`. -/
def Terminates (S : System σ) (s : σ) : Prop := Acc (fun s' s => S.step s s') s

/-- Every step from a state with `R s n` leads to one with a smaller number. -/
def Ranked (S : System σ) (R : σ → Nat → Prop) : Prop :=
  ∀ s s' n, R s n → S.step s s' → ∃ n' < n, R s' n'

/-- **The invariant rule for a ranked invariant.** -/
theorem Reachable.ranked {R : σ → Nat → Prop} (hR : S.Ranked R) (hinit : ∀ s, S.init s → ∃ n, R s n)
    {s : σ} (h : S.Reachable s) : ∃ n, R s n := by
  refine h.invariant hinit ?_
  rintro s s' ⟨n, hs⟩ hstep
  obtain ⟨n', -, hs'⟩ := hR s s' n hs hstep
  exact ⟨n', hs'⟩

theorem Ranked.terminates {R : σ → Nat → Prop} (hR : S.Ranked R) {s : σ} {n : Nat} (h : R s n) :
    S.Terminates s := by
  induction n using Nat.strongRecOn generalizing s with
  | ind n ih =>
      constructor
      intro s' hstep
      obtain ⟨n', hlt, hs'⟩ := hR s s' n h hstep
      exact ih n' hlt hs'

/-- **The rule for a goal that can be reached**: wherever it has not been, some steps make a number smaller. -/
theorem exists_steps {I G : σ → Prop} (rank : σ → Nat)
    (hstep : ∀ s, I s → G s ∨ ∃ s', S.Steps s s' ∧ I s' ∧ rank s' < rank s) {s : σ} (h : I s) :
    ∃ s', S.Steps s s' ∧ I s' ∧ G s' := by
  induction hn : rank s using Nat.strongRecOn generalizing s with
  | ind n ih =>
      rcases hstep s h with hgoal | ⟨s₁, hsteps, hs₁, hlt⟩
      · exact ⟨s, Steps.refl, h, hgoal⟩
      · obtain ⟨s₂, hsteps', hs₂, hgoal⟩ := ih (rank s₁) (hn ▸ hlt) hs₁ rfl
        exact ⟨s₂, hsteps.trans hsteps', hs₂, hgoal⟩

/-- A run that cannot go on for ever can be run to its end. -/
theorem Terminates.exists_quiescent {s : σ} (h : S.Terminates s) :
    ∃ s', S.Steps s s' ∧ S.Quiescent s' := by
  induction h with
  | intro s _ ih =>
      by_cases hstep : ∃ s', S.step s s'
      · obtain ⟨s', hs⟩ := hstep
        obtain ⟨s'', hsteps, hq⟩ := ih s' hs
        exact ⟨s'', Steps.head hs hsteps, hq⟩
      · exact ⟨s, Steps.refl, not_exists.mp hstep⟩

/-! ## Systems given by a next-state function

Where the next state is a function of the state and of who acts, the system is executable, and a list of
actions that evaluates to a state is a run. -/

/-- The system that starts in `s₀` and steps by `next`, whoever acts. -/
def ofNext {α : Type*} (s₀ : σ) (next : σ → α → Option σ) : System σ where
  init s := s = s₀
  step s s' := ∃ a, next s a = some s'

/-- Runs of two threads name them by `Fin 2`. -/
instance neZero_two : NeZero 2 := ⟨Nat.succ_ne_zero 1⟩

/-- Run a list of actions. -/
def run {α : Type*} (next : σ → α → Option σ) : σ → List α → Option σ
  | s, [] => some s
  | s, a :: as => (next s a).bind (run next · as)

theorem steps_of_run {α : Type*} {s₀ : σ} {next : σ → α → Option σ} {as : List α} :
    ∀ {s s' : σ}, run next s as = some s' → (ofNext s₀ next).Steps s s' := by
  induction as with
  | nil =>
      intro s s' h
      obtain rfl := Option.some.inj h
      exact Steps.refl
  | cons a as ih =>
      intro s s' h
      obtain ⟨s₁, hs, h⟩ := Option.bind_eq_some_iff.mp h
      exact Steps.head ⟨a, hs⟩ (ih h)

theorem reachable_of_run {α : Type*} {s₀ s : σ} {next : σ → α → Option σ} (as : List α)
    (h : run next s₀ as = some s) : (ofNext s₀ next).Reachable s :=
  ⟨s₀, rfl, steps_of_run h⟩

/-- Run a list of actions, as long as the steps pass a check. -/
def runIf {α : Type*} (ok : σ → σ → Bool) (next : σ → α → Option σ) : σ → List α → Option σ
  | s, [] => some s
  | s, a :: as => (next s a).bind fun s' => if ok s s' then runIf ok next s' as else none

theorem restrict_steps_of_runIf {α : Type*} {next : σ → α → Option σ} {ok : σ → σ → Bool} {P : σ → σ → Prop}
    (hS : ∀ s a s', next s a = some s' → ok s s' = true → P s s' ∧ S.step s s') {as : List α} :
    ∀ {s s' : σ}, runIf ok next s as = some s' → (S.restrict P).Steps s s' := by
  induction as with
  | nil =>
      intro s s' h
      obtain rfl := Option.some.inj h
      exact Steps.refl
  | cons a as ih =>
      intro s s' h
      obtain ⟨s₁, hs, h⟩ := Option.bind_eq_some_iff.mp h
      split at h
      · next hok => exact Steps.head (hS s a s₁ hs hok) (ih h)
      · cases h

theorem steps_of_runIf {α : Type*} {s₀ : σ} {next : σ → α → Option σ} {ok : σ → σ → Bool}
    {P : σ → σ → Prop} (hP : ∀ s s', ok s s' = true → P s s') {as : List α} {s s' : σ}
    (h : runIf ok next s as = some s') : ((ofNext s₀ next).restrict P).Steps s s' :=
  restrict_steps_of_runIf (S := ofNext s₀ next) (fun s a s' hs hok => ⟨hP s s' hok, a, hs⟩) h

/-- The system that starts in `s₀` and steps by `next`, by actions that meet `D`. -/
def ofNextIf {α : Type*} (s₀ : σ) (next : σ → α → Option σ) (D : σ → α → Prop) : System σ where
  init s := s = s₀
  step s s' := ∃ a, D s a ∧ next s a = some s'

/-- Run a list of actions, as long as they pass a check. -/
def runWhile {α : Type*} (ok : σ → α → Bool) (next : σ → α → Option σ) : σ → List α → Option σ
  | s, [] => some s
  | s, a :: as => if ok s a then (next s a).bind (runWhile ok next · as) else none

theorem steps_of_runWhile {α : Type*} {s₀ : σ} {next : σ → α → Option σ} {ok : σ → α → Bool}
    {D : σ → α → Prop} (hD : ∀ s a, ok s a = true → D s a) {as : List α} :
    ∀ {s s' : σ}, runWhile ok next s as = some s' → (ofNextIf s₀ next D).Steps s s' := by
  induction as with
  | nil =>
      intro s s' h
      obtain rfl := Option.some.inj h
      exact Steps.refl
  | cons a as ih =>
      intro s s' h
      unfold runWhile at h
      split at h
      · next hok =>
          obtain ⟨s₁, hs, h⟩ := Option.bind_eq_some_iff.mp h
          exact Steps.head ⟨a, hD s a hok, hs⟩ (ih h)
      · cases h

theorem reachable_of_runWhile {α : Type*} {s₀ s : σ} {next : σ → α → Option σ} {ok : σ → α → Bool} {D : σ → α → Prop}
    (hD : ∀ s a, ok s a = true → D s a) (as : List α) (h : runWhile ok next s₀ as = some s) :
    (ofNextIf s₀ next D).Reachable s :=
  ⟨s₀, rfl, steps_of_runWhile hD h⟩

/-- The invariant rule for `ofNextIf`. -/
theorem Reachable.invariant_nextIf {α : Type*} {s₀ : σ} {next : σ → α → Option σ} {D : σ → α → Prop} {P : σ → Prop}
    (hinit : P s₀) (hstep : ∀ s a s', P s → D s a → next s a = some s' → P s') {s : σ}
    (h : (ofNextIf s₀ next D).Reachable s) : P s :=
  h.invariant (fun _ h₀ => h₀ ▸ hinit) (fun _ _ hi ⟨a, ha, hs⟩ => hstep _ a _ hi ha hs)

/-- The invariant rule for `ofNext`. -/
theorem Reachable.invariant_next {α : Type*} {s₀ : σ} {next : σ → α → Option σ} {P : σ → Prop}
    (hinit : P s₀) (hstep : ∀ s a s', P s → next s a = some s' → P s') {s : σ}
    (h : (ofNext s₀ next).Reachable s) : P s :=
  h.invariant (fun _ h₀ => h₀ ▸ hinit) (fun _ _ hi ⟨a, hs⟩ => hstep _ a _ hi hs)

end System
end Transition
end Tpcc
