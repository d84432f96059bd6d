import Mathlib.Logic.Function.Basic

/-!
# `Transition.Exclusive` — one holder among many

The parties of a system are a family `f`, and `p` says of a party's own state whether it holds the one
thing that cannot be shared: a mutex, a token, a critical section. `Nobody` and `Only` are the two shapes
an exclusion invariant has, and the lemmas below say how a step of one party, an update of the family,
moves between them. Nothing here names a program.
-/

namespace Tpcc
namespace Transition

variable {ι α : Type*} [DecidableEq ι] {p : α → Bool} {f : ι → α} {i j : ι} {x y : α}

/-- No party holds it. -/
def Nobody (p : α → Bool) (f : ι → α) : Prop := ∀ i, p (f i) = false

/-- Party `i` holds it, and no other. -/
structure Only (p : α → Bool) (f : ι → α) (i : ι) : Prop where
  holder : p (f i) = true
  others : ∀ j, j ≠ i → p (f j) = false

omit [DecidableEq ι] in
theorem Only.eq (h : Only p f i) (hj : p (f j) = true) : j = i := by
  by_contra hne
  rw [h.others j hne] at hj
  cases hj

omit [DecidableEq ι] in
theorem Nobody.not (h : Nobody p f) (hi : p (f i) = true) : False := by
  rw [h i] at hi
  cases hi

/-- Party `i` takes it. -/
theorem Nobody.take (h : Nobody p f) (hx : p x = true) : Only p (Function.update f i x) i where
  holder := by rwa [Function.update_self]
  others j hj := by
    rw [Function.update_of_ne hj]
    exact h j

/-- The holder goes on. -/
theorem Only.keep (h : Only p f i) (hx : p x = true) : Only p (Function.update f i x) i where
  holder := by rwa [Function.update_self]
  others j hj := by
    rw [Function.update_of_ne hj]
    exact h.others j hj

/-- The holder gives it up. -/
theorem Only.drop (h : Only p f i) (hx : p x = false) : Nobody p (Function.update f i x) :=
  (Function.forall_update_iff f fun _ a => p a = false).mpr ⟨hx, h.others⟩

/-- Another party goes on. -/
theorem Nobody.other (h : Nobody p f) (hx : p x = false) : Nobody p (Function.update f j x) :=
  (Function.forall_update_iff f fun _ a => p a = false).mpr ⟨hx, fun k _ => h k⟩

theorem Only.other (h : Only p f i) (hj : p (f j) = false) (hx : p x = false) :
    Only p (Function.update f j x) i := by
  have hne : i ≠ j := by
    rintro rfl
    rw [h.holder] at hj
    cases hj
  constructor
  · rw [Function.update_of_ne hne]
    exact h.holder
  · apply (Function.forall_update_iff f fun k a => k ≠ i → p a = false).mpr
    exact ⟨fun _ => hx, fun k _ hk => h.others k hk⟩

omit [DecidableEq ι] in
/-- What every party says of its own state stays the same. -/
theorem Nobody.congr {g : ι → α} (h : Nobody p f) (hg : ∀ j, p (g j) = p (f j)) : Nobody p g :=
  fun j => (hg j).trans (h j)

omit [DecidableEq ι] in
theorem Only.congr {g : ι → α} (h : Only p f i) (hg : ∀ j, p (g j) = p (f j)) : Only p g i where
  holder := (hg i).trans h.holder
  others j hj := (hg j).trans (h.others j hj)

/-- A step of party `i` that does not change what `q` says of it. -/
theorem update_same {β : Type*} {q : α → β} (hx : q x = q (f i)) (j : ι) :
    q (Function.update f i x j) = q (f j) := by
  by_cases hj : j = i
  · subst hj
    rw [Function.update_self, hx]
  · rw [Function.update_of_ne hj]

/-- After a step of party `i`, whoever is as `i` is not is another party, and was so before. -/
theorem of_update {P : α → Prop} (hx : ¬ P x) (h : P (Function.update f i x j)) : j ≠ i ∧ P (f j) := by
  by_cases hj : j = i
  · subst hj
    rw [Function.update_self] at h
    exact absurd h hx
  · rw [Function.update_of_ne hj] at h
    exact ⟨hj, h⟩

/-- The holder hands it to party `j`. -/
theorem Only.pass (h : Only p f i) (hne : i ≠ j) (hx : p x = true) (hy : p y = false) :
    Only p (Function.update (Function.update f j x) i y) j := by
  constructor
  · rw [Function.update_of_ne hne.symm, Function.update_self]
    exact hx
  · intro k hk
    by_cases hki : k = i
    · subst hki
      rwa [Function.update_self]
    · rw [Function.update_of_ne hki, Function.update_of_ne hk]
      exact h.others k hki

end Transition
end Tpcc
