import Tpcc.Transition.System

/-!
# `Transition.Trace` — what an observer notes along a run

A run is a list of actions that evaluates. At each step an observer may note something, by the state in front
of the step and the action: `observe` is what has been noted after the run, oldest first. What a step does to
a state and a log, a whole run does. Nothing here names a program.
-/

namespace Tpcc
namespace Transition
namespace System

variable {σ α ε : Type*}

/-- What is noted along a list of actions, for as long as they evaluate. -/
def observe (next : σ → α → Option σ) (note : σ → α → List ε) : σ → List α → List ε
  | _, [] => []
  | s, a :: as => note s a ++ ((next s a).map (observe next note · as)).getD []

variable {next : σ → α → Option σ} {note : σ → α → List ε} {ok : σ → α → Bool} {P : σ → List ε → Prop}

theorem observe_cons {s s' : σ} {a : α} (h : next s a = some s') (as : List α) :
    observe next note s (a :: as) = note s a ++ observe next note s' as := by
  rw [observe, h, Option.map_some, Option.getD_some]

/-- **The invariant rule for a state and its log**, from any moment of a run. -/
theorem observe_invariant (hstep : ∀ s log a s', P s log → ok s a = true → next s a = some s' →
    P s' (log ++ note s a)) {as : List α} {s s' : σ} {log : List ε} (hs : P s log)
    (hrun : runWhile ok next s as = some s') : P s' (log ++ observe next note s as) := by
  induction as generalizing s log with
  | nil =>
      obtain rfl := Option.some.inj hrun
      rwa [observe, List.append_nil]
  | cons a as ih =>
      unfold runWhile at hrun
      split at hrun
      · next hok =>
          obtain ⟨s₁, hs₁, hrun⟩ := Option.bind_eq_some_iff.mp hrun
          rw [observe_cons hs₁, ← List.append_assoc]
          exact ih (hstep s log a s₁ hs hok hs₁) hrun
      · cases hrun

end System
end Transition
end Tpcc
