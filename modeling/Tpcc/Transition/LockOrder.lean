import Mathlib.Logic.Basic

/-!
# `Transition.LockOrder` — why ordered acquisition cannot deadlock

Parties hold resources and want others. Where whoever holds one resource and wants another wants one of a
higher rank, a chain of waiting parties climbs, and so it ends: with a holder that does not wait. Nothing here
names a program.
-/

namespace Tpcc
namespace Transition

variable {ι ρ : Type*} {holds wants : ι → ρ → Prop}

/-- Party `i` wants something that is held. -/
def Waits (holds wants : ι → ρ → Prop) (i : ι) : Prop := ∃ r j, wants i r ∧ holds j r

/-- **Ordered acquisition.** Behind whoever waits, some holder does not. -/
theorem exists_not_waits (rank : ρ → Nat) {bound : Nat} (hbound : ∀ r, rank r ≤ bound)
    (hordered : ∀ i r r', holds i r → wants i r' → rank r < rank r') {j : ι} {r : ρ} (hholds : holds j r) :
    ∃ k r', holds k r' ∧ ¬ Waits holds wants k := by
  induction hn : bound - rank r using Nat.strongRecOn generalizing j r with
  | ind n ih =>
      by_cases hwaits : Waits holds wants j
      · obtain ⟨r', k, hwants, hk⟩ := hwaits
        have hrank := hordered j r r' hholds hwants
        have hle := hbound r'
        exact ih (bound - rank r') (by omega) hk rfl
      · exact ⟨j, r, hholds, hwaits⟩

end Transition
end Tpcc
