import Mathlib.Data.Finset.Card

/-!
# `Transition.WaitSet` — the threads inside the `wait` of one condition variable

A thread in `wait` is asleep, or it has been woken and has yet to take the mutex and look at the predicate
again. `WaitSet` keeps the two sets apart. `notifyOne` wakes one sleeper of the scheduler's choice if
there is any; a sleeper can also wake for no reason (`wake`).

A wakeup is no message: a woken thread may find that another thread has taken what it was woken for.
`Covers w k` is what an implementation keeps instead: while somebody sleeps, at least `k` threads are
woken, `k` the number of things there are to take.
-/

namespace Tpcc
namespace Transition

variable {ι : Type*} [DecidableEq ι]

theorem nobody_disjoint (ι : Type*) : Disjoint (∅ : Finset ι) ∅ := Finset.disjoint_empty_left ∅

/-- The threads inside `wait`. -/
structure WaitSet (ι : Type*) [DecidableEq ι] where
  asleep : Finset ι := ∅
  woken : Finset ι := ∅
  disjoint : Disjoint asleep woken := by exact nobody_disjoint _

namespace WaitSet

/-- Thread `t` is inside `wait`. -/
def Waits (w : WaitSet ι) (t : ι) : Prop := t ∈ w.asleep ∨ t ∈ w.woken

instance (w : WaitSet ι) (t : ι) : Decidable (w.Waits t) := inferInstanceAs (Decidable (_ ∨ _))

/-- Thread `t` finds the predicate false, and sleeps. -/
def sleep (w : WaitSet ι) (t : ι) : WaitSet ι where
  asleep := insert t w.asleep
  woken := w.woken.erase t
  disjoint := by
    rw [Finset.disjoint_insert_left]
    exact ⟨Finset.notMem_erase t _, w.disjoint.mono_right (Finset.erase_subset t _)⟩

/-- Thread `t` finds the predicate true, and returns from `wait`. -/
def leave (w : WaitSet ι) (t : ι) : WaitSet ι where
  asleep := w.asleep
  woken := w.woken.erase t
  disjoint := w.disjoint.mono_right (Finset.erase_subset t _)

/-- Thread `t` wakes. -/
def wake (w : WaitSet ι) (t : ι) : WaitSet ι where
  asleep := w.asleep.erase t
  woken := insert t w.woken
  disjoint := by
    rw [Finset.disjoint_insert_right]
    exact ⟨Finset.notMem_erase t _, w.disjoint.mono_left (Finset.erase_subset t _)⟩

/-- `notify_one`, where the scheduler chooses `c`. -/
def notifyOne (w : WaitSet ι) : Option ι → Option (WaitSet ι)
  | none => if w.asleep = ∅ then some w else none
  | some t => if t ∈ w.asleep then some (w.wake t) else none

/-- `notify_all`. -/
def notifyAll (w : WaitSet ι) : WaitSet ι where
  asleep := ∅
  woken := w.asleep ∪ w.woken
  disjoint := Finset.disjoint_empty_left _

/-- The same is true of thread `u` in both. -/
structure SameAt (w w' : WaitSet ι) (u : ι) : Prop where
  asleep : u ∈ w'.asleep ↔ u ∈ w.asleep
  woken : u ∈ w'.woken ↔ u ∈ w.woken

/-- While somebody sleeps, at least `k` threads are woken. -/
def Covers (w : WaitSet ι) (k : Nat) : Prop := w.asleep.Nonempty → k ≤ w.woken.card

variable {w w' : WaitSet ι} {t u : ι} {k : Nat}

/-! ## One thread at a time -/

theorem SameAt.waits (h : SameAt w w' u) : w'.Waits u ↔ w.Waits u := or_congr h.asleep h.woken

theorem sleep_sameAt (hne : u ≠ t) : SameAt w (w.sleep t) u where
  asleep := Finset.mem_insert.trans (or_iff_right hne)
  woken := Finset.mem_erase.trans (and_iff_right hne)

theorem leave_sameAt (hne : u ≠ t) : SameAt w (w.leave t) u where
  asleep := Iff.rfl
  woken := Finset.mem_erase.trans (and_iff_right hne)

theorem wake_sameAt (hne : u ≠ t) : SameAt w (w.wake t) u where
  asleep := Finset.mem_erase.trans (and_iff_right hne)
  woken := Finset.mem_insert.trans (or_iff_right hne)

theorem waits_sleep : (w.sleep t).Waits t := .inl (Finset.mem_insert_self t _)

theorem waits_wake : (w.wake t).Waits t := .inr (Finset.mem_insert_self t _)

theorem not_waits_leave (h : t ∉ w.asleep) : ¬ (w.leave t).Waits t := by
  rintro (hasleep | hwoken)
  · exact h hasleep
  · exact Finset.notMem_erase t _ hwoken

theorem Waits.notifyAll (h : w.Waits u) : u ∈ w.notifyAll.woken := Finset.mem_union.mpr h

theorem not_waits_notifyAll (h : ¬ w.Waits u) : ¬ w.notifyAll.Waits u := by
  rintro (hasleep | hwoken)
  · exact absurd hasleep (Finset.notMem_empty u)
  · exact h (Finset.mem_union.mp hwoken)

/-- To wake is to stay in `wait`. -/
theorem waits_of_wake (ht : t ∈ w.asleep) : (w.wake t).Waits u ↔ w.Waits u := by
  by_cases hu : u = t
  · subst hu
    exact iff_of_true waits_wake (.inl ht)
  · exact (wake_sameAt hu).waits

/-! ## Covering -/

theorem Covers.mono {k' : Nat} (h : w.Covers k) (hle : k' ≤ k) : w.Covers k' :=
  fun hasleep => Nat.le_trans hle (h hasleep)

theorem covers_zero : w.Covers 0 := fun _ => Nat.zero_le _

/-- With nobody asleep, any number is covered. -/
theorem covers_of_asleep_eq (h : w.asleep = ∅) : w.Covers k := by
  intro hasleep
  rw [h] at hasleep
  exact absurd hasleep Finset.not_nonempty_empty

theorem covers_notifyAll : w.notifyAll.Covers k := covers_of_asleep_eq rfl

theorem notifyOne_cases {c : Option ι} (h : w.notifyOne c = some w') :
    (w.asleep = ∅ ∧ w' = w) ∨ ∃ t ∈ w.asleep, w' = w.wake t := by
  cases c with
  | none =>
      simp only [notifyOne, Option.ite_none_right_eq_some, Option.some.injEq] at h
      exact .inl ⟨h.1, h.2.symm⟩
  | some t =>
      simp only [notifyOne, Option.ite_none_right_eq_some, Option.some.injEq] at h
      exact .inr ⟨t, h.1, h.2.symm⟩

theorem waits_of_notifyOne {c : Option ι} (h : w.notifyOne c = some w') : w'.Waits u ↔ w.Waits u := by
  rcases notifyOne_cases h with ⟨-, rfl⟩ | ⟨t, ht, rfl⟩
  · rfl
  · exact waits_of_wake ht

/-- `notify_one` is enough for one sleeper. -/
theorem notifyOne_asleep_eq {c : Option ι} (h : w.notifyOne c = some w') (hle : w.asleep.card ≤ 1) :
    w'.asleep = ∅ := by
  rcases notifyOne_cases h with ⟨hempty, rfl⟩ | ⟨t, ht, rfl⟩
  · exact hempty
  · have hcard := Finset.card_erase_of_mem ht
    exact Finset.card_eq_zero.mp (hcard.trans (by omega))

/-- `notify_one` leaves one of two sleepers asleep. -/
theorem notifyOne_nonempty {c : Option ι} (h : w.notifyOne c = some w') (ht : t ∈ w.asleep) (hu : u ∈ w.asleep)
    (hne : t ≠ u) : w'.asleep.Nonempty := by
  rcases notifyOne_cases h with ⟨-, rfl⟩ | ⟨v, -, rfl⟩
  · exact ⟨t, ht⟩
  · by_cases hv : t = v
    · exact ⟨u, Finset.mem_erase.mpr ⟨fun hu => hne (hv.trans hu.symm), hu⟩⟩
    · exact ⟨t, Finset.mem_erase.mpr ⟨hv, ht⟩⟩

/-- There is somebody to notify, or nobody. -/
theorem exists_notifyOne (w : WaitSet ι) : ∃ c w', w.notifyOne c = some w' := by
  rcases w.asleep.eq_empty_or_nonempty with hempty | ⟨t, ht⟩
  · exact ⟨none, w, if_pos hempty⟩
  · exact ⟨some t, w.wake t, if_pos ht⟩

/-- `notify_one` covers one more. -/
theorem Covers.notifyOne {c : Option ι} (h : w.Covers k) (hc : w.notifyOne c = some w') :
    w'.Covers (k + 1) := by
  rcases notifyOne_cases hc with ⟨hempty, rfl⟩ | ⟨t, hmem, rfl⟩
  · exact covers_of_asleep_eq hempty
  · -- it slept, so it is not among those counted
    intro _
    have hnot : t ∉ w.woken := Finset.disjoint_left.mp w.disjoint hmem
    show k + 1 ≤ (insert t w.woken).card
    rw [Finset.card_insert_of_notMem hnot]
    exact Nat.succ_le_succ (h ⟨t, hmem⟩)

/-- A wakeup for no reason covers what was covered. -/
theorem Covers.wake (h : w.Covers k) (ht : t ∈ w.asleep) : (w.wake t).Covers k := by
  intro _
  exact Nat.le_trans (h ⟨t, ht⟩) (Finset.card_le_card (Finset.subset_insert t w.woken))

/-- A woken thread that leaves takes one thing with it. -/
theorem Covers.leave (h : w.Covers (k + 1)) : (w.leave t).Covers k := by
  intro hasleep
  have hle := h hasleep
  have hcard : w.woken.card - 1 ≤ (w.woken.erase t).card := Finset.pred_card_le_card_erase
  show k ≤ (w.woken.erase t).card
  omega

/-- **No stranded sleeper**: while somebody sleeps beside something to take, somebody is woken. -/
theorem Covers.woken_nonempty (h : w.Covers k) (hk : 0 < k) (hasleep : w.asleep.Nonempty) :
    w.woken.Nonempty :=
  Finset.card_pos.mp (Nat.lt_of_lt_of_le hk (h hasleep))

end WaitSet
end Transition
end Tpcc
