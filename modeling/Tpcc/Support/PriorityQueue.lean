import Mathlib.Data.List.Perm.Basic

/-!
# `Support.PriorityQueue` — `std::priority_queue`, as a container with a greatest first element

The adaptor keeps its elements in a container whose first element is the top. Which of the greatest elements
that is, and where the others stand, is left open: `push` and `pop` may arrange them in any way that puts a
greatest element first. `less` is the comparator, under which the top is greatest.

## Contents
- **Operations.** `Heap`, `Pushed`, `Popped`; some arrangement always exists (`exists_pushed`, `exists_popped`).
- **Draining.** `Drained`: what successive pops take out, and what they leave.
-/

namespace Tpcc
namespace PriorityQueue

variable {α : Type*} {less : α → α → Prop}

/-- The first element is a greatest one. -/
def Heap (less : α → α → Prop) : List α → Prop
  | [] => True
  | x :: c => ∀ y ∈ x :: c, ¬ less x y

instance [DecidableRel less] : DecidablePred (Heap less)
  | [] => .isTrue trivial
  | x :: c => inferInstanceAs (Decidable (∀ y ∈ x :: c, ¬ less x y))

/-- `push(x)` may turn the container `c` into `c'`. -/
structure Pushed (less : α → α → Prop) (c : List α) (x : α) (c' : List α) : Prop where
  perm : c'.Perm (x :: c)
  heap : Heap less c'

/-- `pop()` may turn the container `c` into `c'`. -/
structure Popped (less : α → α → Prop) (c c' : List α) : Prop where
  perm : c'.Perm c.tail
  heap : Heap less c'

instance [DecidableEq α] [DecidableRel less] (c : List α) (x : α) (c' : List α) : Decidable (Pushed less c x c') :=
  decidable_of_iff (c'.Perm (x :: c) ∧ Heap less c') ⟨fun h => ⟨h.1, h.2⟩, fun h => ⟨h.perm, h.heap⟩⟩

instance [DecidableEq α] [DecidableRel less] (c c' : List α) : Decidable (Popped less c c') :=
  decidable_of_iff (c'.Perm c.tail ∧ Heap less c') ⟨fun h => ⟨h.1, h.2⟩, fun h => ⟨h.perm, h.heap⟩⟩

/-! ## The operations can be done -/

section

variable (hirrefl : ∀ x, ¬ less x x) (htrans : ∀ {x y z}, less x y → less y z → less x z)

include hirrefl htrans

/-- Any elements can be arranged with a greatest one first. -/
theorem exists_heap (c : List α) : ∃ c' : List α, c'.Perm c ∧ Heap less c' := by
  induction c with
  | nil => exact ⟨[], .refl _, trivial⟩
  | cons x c ih =>
      obtain ⟨c', hperm, hheap⟩ := ih
      cases c' with
      | nil =>
          refine ⟨[x], hperm.cons x, fun y hy => ?_⟩
          rw [List.mem_singleton.mp hy]
          exact hirrefl x
      | cons m c' =>
          by_cases hless : less m x
          -- `x` goes before the greatest of the others, or right after it
          · refine ⟨x :: m :: c', hperm.cons x, fun y hy hxy => ?_⟩
            rcases List.mem_cons.mp hy with rfl | hy
            · exact hirrefl _ hxy
            · exact hheap y hy (htrans hless hxy)
          · refine ⟨m :: x :: c', (List.Perm.swap x m c').trans (hperm.cons x), fun y hy => ?_⟩
            rcases List.mem_cons.mp hy with rfl | hy
            · exact hirrefl _
            · rcases List.mem_cons.mp hy with rfl | hy
              · exact hless
              · exact hheap y (List.mem_cons_of_mem m hy)

theorem exists_pushed (c : List α) (x : α) : ∃ c', Pushed less c x c' := by
  obtain ⟨c', hperm, hheap⟩ := exists_heap hirrefl htrans (x :: c)
  exact ⟨c', hperm, hheap⟩

theorem exists_popped (c : List α) : ∃ c', Popped less c c' := by
  obtain ⟨c', hperm, hheap⟩ := exists_heap hirrefl htrans c.tail
  exact ⟨c', hperm, hheap⟩

end

/-! ## Draining -/

/-- Successive pops have taken `out`, in this order, out of the container `c`, and left `c'`. -/
structure Drained (less : α → α → Prop) (c out c' : List α) : Prop where
  perm : (out ++ c').Perm c
  ordered : out.Pairwise fun x y => ¬ less x y
  ahead : ∀ x ∈ out, ∀ y ∈ c', ¬ less x y
  heap : Heap less c'

theorem Drained.start {c : List α} (h : Heap less c) : Drained less c [] c where
  perm := .refl c
  ordered := .nil
  ahead := nofun
  heap := h

/-- **Another pop**: what it takes is not greater than what was taken before. -/
theorem Drained.pop {c out rest c' : List α} {x : α} (h : Drained less c out (x :: rest))
    (hpop : Popped less (x :: rest) c') : Drained less c (out ++ [x]) c' where
  perm := by
    rw [List.append_assoc]
    exact ((hpop.perm.cons x).append_left out).trans h.perm
  ordered := by
    rw [List.pairwise_append]
    refine ⟨h.ordered, List.pairwise_singleton _ _, fun y hy z hz => ?_⟩
    rw [List.mem_singleton.mp hz]
    exact h.ahead y hy x List.mem_cons_self
  ahead := by
    intro y hy z hz
    have hz : z ∈ rest := hpop.perm.mem_iff.mp hz
    rcases List.mem_append.mp hy with hy | hy
    · exact h.ahead y hy z (List.mem_cons_of_mem x hz)
    · rw [List.mem_singleton.mp hy]
      exact h.heap z (List.mem_cons_of_mem x hz)
  heap := hpop.heap

end PriorityQueue
end Tpcc
