import Mathlib.Data.List.Nodup

/-!
# `Support.LinkedList` — chains of pointers

Nodes are told apart by their addresses, and `next` is the pointer that each of them holds. `Linked` says which
nodes the chain of a pointer goes through, down to a null pointer. Such a chain is determined by the pointer, so
it has no cycle. Nothing here names a program.
-/

namespace Tpcc

variable {α : Type*} {next next' : α → Option α} {p : Option α} {a b : α} {l l' : List α}

/-- The chain that starts with pointer `p` goes through the nodes of `l`, and ends. -/
def Linked (next : α → Option α) : Option α → List α → Prop
  | p, [] => p = none
  | p, a :: l => p = some a ∧ Linked next (next a) l

/-- The chain that starts with pointer `p` comes to a node. -/
inductive Reaches (next : α → Option α) : Option α → α → Prop where
  | head (a : α) : Reaches next (some a) a
  | tail (a : α) {b : α} (h : Reaches next (next a) b) : Reaches next (some a) b

theorem Linked.unique (h : Linked next p l) (h' : Linked next p l') : l = l' := by
  induction l generalizing p l' with
  | nil =>
      cases l' with
      | nil => rfl
      | cons a l' => exact absurd (h'.1.symm.trans h) (Option.some_ne_none a)
  | cons a l ih =>
      cases l' with
      | nil => exact absurd (h.1.symm.trans h') (Option.some_ne_none a)
      | cons b l' =>
          obtain rfl := Option.some.inj (h.1.symm.trans h'.1)
          rw [ih h.2 h'.2]

theorem Linked.exists_cons (h : Linked next (some a) l) : ∃ rest, l = a :: rest ∧ Linked next (next a) rest := by
  cases l with
  | nil => exact absurd h (Option.some_ne_none a)
  | cons b rest =>
      obtain rfl := Option.some.inj h.1
      exact ⟨rest, rfl, h.2⟩

/-- What is behind a node of the chain. -/
theorem Linked.drop (h : Linked next p (l ++ l')) : ∃ p', Linked next p' l' := by
  induction l generalizing p with
  | nil => exact ⟨p, h⟩
  | cons a l ih => exact ih h.2

theorem Linked.nodup (h : Linked next p l) : l.Nodup := by
  induction l generalizing p with
  | nil => exact List.nodup_nil
  | cons a l ih =>
      refine List.nodup_cons.mpr ⟨?_, ih h.2⟩
      intro hmem
      obtain ⟨front, back, rfl⟩ := List.append_of_mem hmem
      -- the node would be in front of two chains, a longer and a shorter one
      obtain ⟨p', hback⟩ := h.2.drop
      have hlong : Linked next (next a) (front ++ a :: back) := h.2
      have hequal := congrArg List.length (hlong.unique hback.2)
      rw [List.length_append, List.length_cons] at hequal
      omega

theorem Linked.mem_iff (h : Linked next p l) : a ∈ l ↔ Reaches next p a := by
  induction l generalizing p with
  | nil =>
      obtain rfl : p = none := h
      constructor
      · intro hmem
        cases hmem
      · intro hreach
        cases hreach
  | cons b l ih =>
      obtain ⟨rfl, htail⟩ := h
      rw [List.mem_cons, ih htail]
      constructor
      · rintro (rfl | hreach)
        · exact .head a
        · exact .tail b hreach
      · intro hreach
        cases hreach with
        | head => exact .inl rfl
        | tail _ hreach => exact .inr hreach

/-- The pointers of other nodes do not matter. -/
theorem Linked.congr (h : Linked next p l) (hnext : ∀ a ∈ l, next' a = next a) : Linked next' p l := by
  induction l generalizing p with
  | nil => exact h
  | cons a l ih =>
      refine ⟨h.1, ?_⟩
      rw [hnext a List.mem_cons_self]
      exact ih h.2 fun b hb => hnext b (List.mem_cons_of_mem a hb)

end Tpcc
