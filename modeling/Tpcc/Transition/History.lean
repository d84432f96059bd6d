import Mathlib.Data.List.Basic

/-!
# `Transition.History` — what happened, and why it could

A history lists the events of a run, oldest first. `Explained P log` says that each event of `log` is one
that `P` allows after the events before it; a step that appends one event only has to explain that one.
-/

namespace Tpcc
namespace Transition

variable {ε : Type*}

/-- Each event is allowed by those before it. -/
def Explained (P : List ε → ε → Prop) (log : List ε) : Prop :=
  ∀ pre e post, log = pre ++ e :: post → P pre e

theorem explained_nil {P : List ε → ε → Prop} : Explained P [] := by
  intro pre e post h
  cases pre <;> cases h

/-- The last event of a history, or one before it. -/
theorem append_singleton_eq {log pre post : List ε} {x e : ε} (h : log ++ [x] = pre ++ e :: post) :
    (log = pre ∧ x = e) ∨ ∃ post', log = pre ++ e :: post' := by
  rcases List.eq_nil_or_concat' post with rfl | ⟨post', y, rfl⟩
  · obtain ⟨rfl, hx⟩ := List.append_inj' h rfl
    exact .inl ⟨rfl, (List.cons.inj hx).1⟩
  · rw [← List.cons_append, ← List.append_assoc] at h
    exact .inr ⟨post', (List.append_inj' h rfl).1⟩

/-- **One more event.** -/
theorem Explained.snoc {P : List ε → ε → Prop} {log : List ε} {x : ε} (h : Explained P log)
    (hx : P log x) : Explained P (log ++ [x]) := by
  intro pre e post hsplit
  rcases append_singleton_eq hsplit with ⟨rfl, rfl⟩ | ⟨post', hlog⟩
  · exact hx
  · exact h pre e post' hlog

end Transition
end Tpcc
