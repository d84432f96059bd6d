import Mathlib.Logic.Basic

/-!
# `Transition.Loop` — `while (true)`, and why it returns

A loop is given by its body: from a state, one turn either goes on with the next state or returns. `loop`
runs at most `fuel` turns; a loop that returns does so for all fuel that is enough. Nothing here names a
program.

## Contents
- **Loops.** `Turn`, `loop`, `loop_mono`.
- **Total correctness.** `loop_total`: an invariant, what a return says under it, and a number that every
  other turn makes smaller.
-/

namespace Tpcc
namespace Transition

variable {σ ρ : Type*}

/-- How a turn of a loop ends. -/
inductive Turn (σ ρ : Type*) where
  | again (s : σ)
  | done (r : ρ)

/-- At most `fuel` turns. -/
def loop (body : σ → Turn σ ρ) : Nat → σ → Option ρ
  | 0, _ => none
  | fuel + 1, s =>
      match body s with
      | .again s' => loop body fuel s'
      | .done r => some r

variable {body : σ → Turn σ ρ}

theorem loop_again {s s' : σ} (h : body s = .again s') (fuel : Nat) :
    loop body (fuel + 1) s = loop body fuel s' := by
  simp only [loop, h]

theorem loop_done {s : σ} {r : ρ} (h : body s = .done r) (fuel : Nat) : loop body (fuel + 1) s = some r := by
  simp only [loop, h]

/-- More fuel changes nothing. -/
theorem loop_mono {s : σ} {r : ρ} {fuel fuel' : Nat} (h : loop body fuel s = some r) (hle : fuel ≤ fuel') :
    loop body fuel' s = some r := by
  induction fuel generalizing s fuel' with
  | zero => cases h
  | succ fuel ih =>
      obtain ⟨fuel', rfl⟩ := Nat.exists_eq_add_of_le' (Nat.one_le_of_lt hle)
      cases hturn : body s with
      | again s' =>
          rw [loop_again hturn] at h ⊢
          exact ih h (Nat.le_of_succ_le_succ hle)
      | done r' =>
          rw [loop_done hturn] at h ⊢
          exact h

/-- **Total correctness of a loop.** `I` holds in front of every turn, `Q` of what is returned, and `m` bounds
    the turns that are left. -/
theorem loop_total {I : σ → Prop} {Q : ρ → Prop} (m : σ → Nat)
    (hagain : ∀ s s', I s → body s = .again s' → I s' ∧ m s' < m s)
    (hdone : ∀ s r, I s → body s = .done r → Q r) {s : σ} (hs : I s) :
    ∃ r, Q r ∧ ∀ fuel, m s < fuel → loop body fuel s = some r := by
  induction hm : m s using Nat.strongRecOn generalizing s with
  | ind n ih =>
      cases hturn : body s with
      | done r =>
          refine ⟨r, hdone s r hs hturn, ?_⟩
          intro fuel hfuel
          obtain ⟨fuel, rfl⟩ := Nat.exists_eq_add_of_le' (Nat.one_le_of_lt hfuel)
          exact loop_done hturn fuel
      | again s' =>
          obtain ⟨hs', hlt⟩ := hagain s s' hs hturn
          obtain ⟨r, hr, hloop⟩ := ih (m s') (hm ▸ hlt) hs' rfl
          refine ⟨r, hr, ?_⟩
          intro fuel hfuel
          obtain ⟨fuel, rfl⟩ := Nat.exists_eq_add_of_le' (Nat.one_le_of_lt hfuel)
          rw [loop_again hturn]
          apply hloop
          omega

end Transition
end Tpcc
