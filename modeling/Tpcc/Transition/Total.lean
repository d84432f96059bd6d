import Mathlib.Algebra.BigOperators.Group.Finset.Basic
import Mathlib.Algebra.Order.BigOperators.Group.Finset
import Mathlib.Data.Fintype.BigOperators
import Mathlib.Tactic.Abel

/-!
# `Transition.Total` — sums over the parties of a system

The parties of a system are a finite family `f`, and `w` weighs a party's own state: 1 if it is counted,
the elements it holds, the permits it has. `total w f` is the sum. A step of one party changes one
summand, which `total_update` states without subtraction, so it also serves weights in multisets.
-/

namespace Tpcc
namespace Transition

variable {ι α M : Type*} [Fintype ι]

/-- The sum of the weights of all parties. -/
def total [AddCommMonoid M] (w : α → M) (f : ι → α) : M := ∑ i, w (f i)

section

variable [AddCommMonoid M] {w : α → M} {f : ι → α}

/-- **A step of party `i`** takes the weight of its old state out and puts that of its new state in. -/
theorem total_update [DecidableEq ι] (w : α → M) (f : ι → α) (i : ι) (x : α) :
    total w (Function.update f i x) + w (f i) = total w f + w x := by
  have hothers : ∑ j ∈ Finset.univ.erase i, w (Function.update f i x j) =
      ∑ j ∈ Finset.univ.erase i, w (f j) := by
    apply Finset.sum_congr rfl
    intro j hj
    rw [Function.update_of_ne (Finset.ne_of_mem_erase hj)]
  unfold total
  rw [← Finset.add_sum_erase Finset.univ (fun j => w (Function.update f i x j)) (Finset.mem_univ i),
    ← Finset.add_sum_erase Finset.univ (fun j => w (f j)) (Finset.mem_univ i), hothers,
    Function.update_self]
  abel

/-- The same, where the old state of the party is known. -/
theorem total_step [DecidableEq ι] (w : α → M) {f : ι → α} {i : ι} {a : α} (hi : f i = a) (x : α) :
    total w (Function.update f i x) + w a = total w f + w x := by
  rw [← hi]
  exact total_update w f i x

theorem total_congr {g : ι → α} (h : ∀ i, w (g i) = w (f i)) : total w g = total w f :=
  Finset.sum_congr rfl fun i _ => h i

theorem total_eq_zero (h : ∀ i, w (f i) = 0) : total w f = 0 :=
  Finset.sum_eq_zero fun i _ => h i

end

section

variable {w : α → Nat} {f : ι → α}

/-- No party weighs more than all together. -/
theorem le_total (w : α → Nat) (f : ι → α) (i : ι) : w (f i) ≤ total w f :=
  Finset.single_le_sum (f := fun j => w (f j)) (fun _ _ => Nat.zero_le _) (Finset.mem_univ i)

/-- Nor do two parties. -/
theorem add_le_total (w : α → Nat) (f : ι → α) {i j : ι} (hij : i ≠ j) : w (f i) + w (f j) ≤ total w f := by
  classical
  have hpair : ∑ k ∈ {i, j}, w (f k) ≤ total w f :=
    Finset.sum_le_sum_of_subset (Finset.subset_univ _)
  rwa [Finset.sum_pair hij] at hpair

/-- What each party weighs less, all together weigh less. -/
theorem total_le_total {w' : α → Nat} (h : ∀ i, w (f i) ≤ w' (f i)) : total w f ≤ total w' f :=
  Finset.sum_le_sum fun i _ => h i

theorem eq_zero_of_total (h : total w f = 0) (i : ι) : w (f i) = 0 :=
  Nat.le_zero.mp (h ▸ le_total w f i)

end

end Transition
end Tpcc
