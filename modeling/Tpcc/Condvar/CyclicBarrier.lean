import Mathlib.Data.Fintype.Card
import Tpcc.Transition.System
import Tpcc.Transition.WaitSet

/-!
# `Condvar.CyclicBarrier` — a barrier that is used again and again

`CyclicBarrier::Arrive` for as many threads as there are `participants_`. It runs under `mutex_`, and waiting
releases it and sleeps at once, so what a thread does between taking the mutex and giving it up is one step.

Two counters serve all rounds in turn. A waiter holds a reference to the counter of its own round, and the
last arrival of a round zeroes the other counter, the one of the round before. `InvAt s r` says where everyone
is in round `r`; what makes it work is that a thread which has arrived in this round has left the last.
-/

namespace Tpcc
namespace Condvar
namespace CyclicBarrier

open Transition

/-- The members of the barrier, and `current_counter t`, the counter that thread `t` inside `wait` refers to.
    The rest is history: how often each thread has counted itself in, and how often it has returned. -/
structure State (ι : Type) [DecidableEq ι] where
  index_ : Fin 2 := 0
  to_wait_counter_ : Fin 2 → Nat := fun _ => 0
  all_reached_barrier_ : WaitSet ι := {}
  current_counter : ι → Option (Fin 2) := fun _ => none
  arrivals : ι → Nat := fun _ => 0
  returns : ι → Nat := fun _ => 0

/-- Who takes the next step: a thread that calls `Arrive`, a woken thread that looks at the predicate again,
    or a sleeper that wakes for no reason. -/
inductive Action (ι : Type) where
  | arrive (t : ι)
  | look (t : ι)
  | wake (t : ι)

variable {ι : Type} [DecidableEq ι]

/-- Thread `t` looks at the predicate of its `wait`: it returns, or sleeps. -/
def look (participants_ : Nat) (s : State ι) (t : ι) (c : Fin 2) : State ι :=
  if s.to_wait_counter_ c = participants_ then
    { s with
      all_reached_barrier_ := s.all_reached_barrier_.leave t
      current_counter := Function.update s.current_counter t none
      returns := Function.update s.returns t (s.returns t + 1) }
  else
    { s with
      all_reached_barrier_ := s.all_reached_barrier_.sleep t
      current_counter := Function.update s.current_counter t (some c) }

/-- The critical section of `Arrive`, up to its end or to `wait`. -/
def arrive (participants_ : Nat) (s : State ι) (t : ι) : State ι :=
  let counted : State ι :=
    { s with
      to_wait_counter_ := Function.update s.to_wait_counter_ s.index_ (s.to_wait_counter_ s.index_ + 1)
      arrivals := Function.update s.arrivals t (s.arrivals t + 1) }
  if s.to_wait_counter_ s.index_ + 1 ≠ participants_ then look participants_ counted t s.index_
  else
    -- the next round has the counter of the last one
    let index_ : Fin 2 := if s.index_ ≠ 0 then 0 else 1
    { counted with
      index_
      to_wait_counter_ := Function.update counted.to_wait_counter_ index_ 0
      all_reached_barrier_ := s.all_reached_barrier_.notifyAll
      returns := Function.update s.returns t (s.returns t + 1) }

def next (participants_ : Nat) (s : State ι) : Action ι → Option (State ι)
  | .arrive t => if s.current_counter t = none then some (arrive participants_ s t) else none
  | .look t =>
      if t ∈ s.all_reached_barrier_.asleep then none
      else (s.current_counter t).map fun c => look participants_ s t c
  | .wake t =>
      if t ∈ s.all_reached_barrier_.asleep then
        some { s with all_reached_barrier_ := s.all_reached_barrier_.wake t }
      else none

/-- All runs of threads `ι` on a barrier for all of them. -/
def system (ι : Type) [DecidableEq ι] [Fintype ι] : System (State ι) :=
  System.ofNext {} (next (Fintype.card ι))

/-! ## What a step can do -/

/-- The kinds of step. -/
inductive Stepped (n : Nat) (s : State ι) : State ι → Prop where
  | arrive (t : ι) (outside : s.current_counter t = none) (more : s.to_wait_counter_ s.index_ + 1 ≠ n) :
      Stepped n s { s with
        to_wait_counter_ := Function.update s.to_wait_counter_ s.index_ (s.to_wait_counter_ s.index_ + 1)
        all_reached_barrier_ := s.all_reached_barrier_.sleep t
        current_counter := Function.update s.current_counter t (some s.index_)
        arrivals := Function.update s.arrivals t (s.arrivals t + 1) }
  | last (t : ι) (outside : s.current_counter t = none) (all : s.to_wait_counter_ s.index_ + 1 = n)
      (index_ : Fin 2) (flip : index_ = if s.index_ ≠ 0 then 0 else 1) :
      Stepped n s { s with
        index_
        to_wait_counter_ := Function.update (Function.update s.to_wait_counter_ s.index_ n) index_ 0
        all_reached_barrier_ := s.all_reached_barrier_.notifyAll
        arrivals := Function.update s.arrivals t (s.arrivals t + 1)
        returns := Function.update s.returns t (s.returns t + 1) }
  | leave (t : ι) (c : Fin 2) (inside : s.current_counter t = some c) (full : s.to_wait_counter_ c = n) :
      Stepped n s { s with
        all_reached_barrier_ := s.all_reached_barrier_.leave t
        current_counter := Function.update s.current_counter t none
        returns := Function.update s.returns t (s.returns t + 1) }
  | sleep (t : ι) (c : Fin 2) (inside : s.current_counter t = some c) (more : s.to_wait_counter_ c ≠ n) :
      Stepped n s { s with all_reached_barrier_ := s.all_reached_barrier_.sleep t }
  | wake (t : ι) (asleep : t ∈ s.all_reached_barrier_.asleep) :
      Stepped n s { s with all_reached_barrier_ := s.all_reached_barrier_.wake t }

theorem look_of_full {n : Nat} {s : State ι} {t : ι} {c : Fin 2} (h : s.to_wait_counter_ c = n) :
    look n s t c = { s with
      all_reached_barrier_ := s.all_reached_barrier_.leave t
      current_counter := Function.update s.current_counter t none
      returns := Function.update s.returns t (s.returns t + 1) } := if_pos h

theorem look_of_more {n : Nat} {s : State ι} {t : ι} {c : Fin 2} (h : s.to_wait_counter_ c ≠ n) :
    look n s t c = { s with
      all_reached_barrier_ := s.all_reached_barrier_.sleep t
      current_counter := Function.update s.current_counter t (some c) } := if_neg h

theorem next_stepped {n : Nat} {s s' : State ι} {a : Action ι} (h : next n s a = some s') : Stepped n s s' := by
  cases a with
  | arrive t =>
      simp only [next, Option.ite_none_right_eq_some, Option.some.injEq] at h
      obtain ⟨hout, rfl⟩ := h
      by_cases hall : s.to_wait_counter_ s.index_ + 1 = n
      · have hlast := Stepped.last t hout hall _ rfl
        unfold arrive
        rw [if_neg (not_not_intro hall), hall]
        exact hlast
      · have hmore := Stepped.arrive t hout hall
        unfold arrive
        rw [if_pos hall, look_of_more (by simpa using hall)]
        exact hmore
  | look t =>
      simp only [next, Option.ite_none_left_eq_some] at h
      obtain ⟨-, h⟩ := h
      obtain ⟨c, hin, rfl⟩ := Option.map_eq_some_iff.mp h
      by_cases hfull : s.to_wait_counter_ c = n
      · rw [look_of_full hfull]
        exact .leave t c hin hfull
      · rw [look_of_more hfull, ← hin, Function.update_eq_self]
        exact .sleep t c hin hfull
  | wake t =>
      simp only [next, Option.ite_none_right_eq_some, Option.some.injEq] at h
      obtain ⟨hasleep, rfl⟩ := h
      exact .wake t hasleep

/-! ## Rounds -/

/-- The counter of round `r`. -/
def slot (r : Nat) : Fin 2 := Fin.ofNat 2 r

theorem slot_flip (r : Nat) : (if slot r ≠ 0 then 0 else 1) = slot (r + 1) := by
  rcases Nat.mod_two_eq_zero_or_one r with h | h
  · have hzero : slot r = 0 := Fin.ext h
    have hone : slot (r + 1) = 1 := Fin.ext (by show (r + 1) % 2 = 1; omega)
    rw [hzero, hone]
    rfl
  · have hone : slot r = 1 := Fin.ext h
    have hzero : slot (r + 1) = 0 := Fin.ext (by show (r + 1) % 2 = 0; omega)
    rw [hone, hzero]
    rfl

theorem slot_succ_ne (r : Nat) : slot (r + 1) ≠ slot r := by
  intro h
  have hmod : (r + 1) % 2 = r % 2 := Fin.ext_iff.mp h
  omega

theorem slot_add_two (r : Nat) : slot (r + 2) = slot r := Fin.ext (by show (r + 2) % 2 = r % 2; omega)

/-- Where thread `t` is in round `r`. -/
inductive Place (s : State ι) (r : Nat) (t : ι) : Prop where
  /-- It has returned from the last round. -/
  | out (arrivals : s.arrivals t = r) (returns : s.returns t = r) (inside : s.current_counter t = none)
      (outside : ¬ s.all_reached_barrier_.Waits t)
  /-- It has yet to return from the last round. -/
  | late (arrivals : s.arrivals t = r) (returns : s.returns t + 1 = r)
      (inside : s.current_counter t = some (slot (r + 1))) (woken : t ∈ s.all_reached_barrier_.woken)
  /-- It waits in this round. -/
  | waits (arrivals : s.arrivals t = r + 1) (returns : s.returns t = r)
      (inside : s.current_counter t = some (slot r)) (waits : s.all_reached_barrier_.Waits t)

variable [Fintype ι]

/-- Who has arrived in round `r`. -/
def arrived (arrivals : ι → Nat) (r : Nat) : Finset ι := Finset.univ.filter fun t => arrivals t = r + 1

/-- `r` rounds are complete. -/
structure InvAt (s : State ι) (r : Nat) : Prop where
  index : s.index_ = slot r
  counter : s.to_wait_counter_ (slot r) = (arrived s.arrivals r).card
  incomplete : (arrived s.arrivals r).card < Fintype.card ι
  /-- The counter of the last round keeps its value. -/
  full : r ≠ 0 → s.to_wait_counter_ (slot (r + 1)) = Fintype.card ι
  place : ∀ t, Place s r t

/-! ## The invariant -/

omit [Fintype ι] in
/-- A step of another thread. -/
theorem Place.other {s s' : State ι} {r : Nat} {t : ι} (h : Place s r t) (harrivals : s'.arrivals t = s.arrivals t)
    (hreturns : s'.returns t = s.returns t) (hinside : s'.current_counter t = s.current_counter t)
    (hsame : WaitSet.SameAt s.all_reached_barrier_ s'.all_reached_barrier_ t) : Place s' r t := by
  cases h with
  | out arrivals returns inside outside =>
      exact .out (harrivals.trans arrivals) (hreturns.trans returns) (hinside.trans inside)
        (mt hsame.waits.mp outside)
  | late arrivals returns inside woken =>
      exact .late (harrivals.trans arrivals) (by rw [hreturns, returns]) (hinside.trans inside) (hsame.woken.mpr woken)
  | waits arrivals returns inside waits =>
      exact .waits (harrivals.trans arrivals) (hreturns.trans returns) (hinside.trans inside) (hsame.waits.mpr waits)

omit [Fintype ι] in
theorem Place.arrivals_of_out {s : State ι} {r : Nat} {t : ι} (h : Place s r t) (hout : s.current_counter t = none) :
    s.arrivals t = r ∧ s.returns t = r ∧ ¬ s.all_reached_barrier_.Waits t := by
  cases h with
  | out arrivals returns inside outside => exact ⟨arrivals, returns, outside⟩
  | late _ _ inside _ | waits _ _ inside _ =>
      rw [inside] at hout
      cases hout

/-- A thread counts itself in. -/
theorem arrived_update {arrivals : ι → Nat} {r : Nat} {t : ι} (ht : arrivals t = r) :
    arrived (Function.update arrivals t (arrivals t + 1)) r = insert t (arrived arrivals r) ∧
      t ∉ arrived arrivals r := by
  constructor
  · ext u
    rw [arrived, arrived, Finset.mem_insert, Finset.mem_filter, Finset.mem_filter]
    by_cases hu : u = t
    · subst hu
      simp [ht]
    · rw [Function.update_of_ne hu, or_iff_right hu]
  · rw [arrived, Finset.mem_filter, ht]
    rintro ⟨-, h⟩
    exact absurd h (Nat.ne_of_lt (Nat.lt_succ_self r))

omit [DecidableEq ι] in
/-- Nobody has arrived in a round that has just begun. -/
theorem arrived_empty {arrivals : ι → Nat} {r : Nat} (h : ∀ u, arrivals u ≤ r) : arrived arrivals r = ∅ := by
  rw [arrived, Finset.filter_eq_empty_iff]
  intro u _ hu
  exact absurd (h u) (by omega)

theorem inv_init [Nonempty ι] : InvAt ({} : State ι) 0 where
  index := rfl
  counter := by
    rw [arrived_empty fun _ => Nat.le_refl 0]
    rfl
  incomplete := by
    rw [arrived_empty fun _ => Nat.le_refl 0]
    exact Fintype.card_pos
  full := fun h => absurd rfl h
  place t := .out rfl rfl rfl (by rintro (h | h) <;> exact absurd h (Finset.notMem_empty t))

/-- **Not the last to arrive.** -/
theorem InvAt.arrive {s : State ι} {r : Nat} {t : ι} (h : InvAt s r) (hout : s.current_counter t = none)
    (hmore : s.to_wait_counter_ s.index_ + 1 ≠ Fintype.card ι) :
    InvAt { s with
      to_wait_counter_ := Function.update s.to_wait_counter_ s.index_ (s.to_wait_counter_ s.index_ + 1)
      all_reached_barrier_ := s.all_reached_barrier_.sleep t
      current_counter := Function.update s.current_counter t (some s.index_)
      arrivals := Function.update s.arrivals t (s.arrivals t + 1) } r := by
  obtain ⟨harrivals, hreturns, -⟩ := (h.place t).arrivals_of_out hout
  obtain ⟨hinsert, hnot⟩ := arrived_update harrivals
  have hcard := Finset.card_insert_of_notMem hnot
  rw [h.index, h.counter] at hmore
  constructor
  · exact h.index
  · rw [hinsert, hcard, ← h.counter, h.index]
    exact Function.update_self ..
  · rw [hinsert, hcard]
    exact Nat.lt_of_le_of_ne h.incomplete hmore
  · intro hr
    show Function.update s.to_wait_counter_ s.index_ _ (slot (r + 1)) = _
    rw [h.index, Function.update_of_ne (slot_succ_ne r)]
    exact h.full hr
  · intro u
    by_cases hu : u = t
    · subst hu
      refine .waits ?_ hreturns ?_ WaitSet.waits_sleep
      · show Function.update s.arrivals u _ u = r + 1
        rw [Function.update_self, harrivals]
      · show Function.update s.current_counter u _ u = _
        rw [Function.update_self, h.index]
    · exact (h.place u).other (Function.update_of_ne hu ..) rfl (Function.update_of_ne hu ..) (WaitSet.sleep_sameAt hu)

/-- **The last to arrive**: nobody is left in the round before, so its counter can be used again. -/
theorem InvAt.last [Nonempty ι] {s : State ι} {r : Nat} {t : ι} (h : InvAt s r) (hout : s.current_counter t = none)
    (hall : s.to_wait_counter_ s.index_ + 1 = Fintype.card ι) {index_ : Fin 2}
    (hflip : index_ = if s.index_ ≠ 0 then 0 else 1) :
    InvAt { s with
      index_
      to_wait_counter_ :=
        Function.update (Function.update s.to_wait_counter_ s.index_ (Fintype.card ι)) index_ 0
      all_reached_barrier_ := s.all_reached_barrier_.notifyAll
      arrivals := Function.update s.arrivals t (s.arrivals t + 1)
      returns := Function.update s.returns t (s.returns t + 1) } (r + 1) := by
  obtain ⟨harrivals, hreturns, houtside⟩ := (h.place t).arrivals_of_out hout
  obtain ⟨hinsert, hnot⟩ := arrived_update harrivals
  have hindex : index_ = slot (r + 1) := by rw [hflip, h.index, slot_flip]
  have hcounter : s.to_wait_counter_ s.index_ = (arrived s.arrivals r).card := by rw [h.index, h.counter]
  -- all the others have arrived before
  have hothers : ∀ u, u ≠ t → s.arrivals u = r + 1 := by
    have huniv : insert t (arrived s.arrivals r) = Finset.univ := by
      rw [← Finset.card_eq_iff_eq_univ, Finset.card_insert_of_notMem hnot, ← hcounter, hall]
    intro u hu
    have hmem : u ∈ insert t (arrived s.arrivals r) := huniv ▸ Finset.mem_univ u
    exact (Finset.mem_filter.mp ((Finset.mem_insert.mp hmem).resolve_left hu)).2
  have hround : ∀ u, Function.update s.arrivals t (s.arrivals t + 1) u = r + 1 := by
    intro u
    by_cases hu : u = t
    · rw [hu, Function.update_self, harrivals]
    · rw [Function.update_of_ne hu, hothers u hu]
  have hnobody := arrived_empty fun u => Nat.le_of_eq (hround u)
  constructor
  · exact hindex
  · rw [hnobody, ← hindex]
    exact Function.update_self ..
  · rw [hnobody]
    exact Fintype.card_pos
  · intro _
    show Function.update (Function.update s.to_wait_counter_ s.index_ _) index_ 0 (slot (r + 2)) = _
    rw [hindex, slot_add_two, h.index, Function.update_of_ne (slot_succ_ne r).symm, Function.update_self]
  · intro u
    by_cases hu : u = t
    · subst hu
      refine .out (hround u) ?_ hout (WaitSet.not_waits_notifyAll houtside)
      show Function.update s.returns u _ u = r + 1
      rw [Function.update_self, hreturns]
    · cases h.place u with
      | waits arrivals returns inside waits =>
          refine .late (hround u) ?_ ?_ waits.notifyAll
          · show Function.update s.returns t _ u + 1 = r + 1
            rw [Function.update_of_ne hu, returns]
          · rw [slot_add_two]
            exact inside
      -- who has not arrived in this round is not among the others
      | out arrivals | late arrivals => exact absurd (arrivals.symm.trans (hothers u hu)) (by omega)

/-- A thread that finds its predicate true has been late. -/
theorem InvAt.place_of_full {s : State ι} {r : Nat} {t : ι} {c : Fin 2} (h : InvAt s r)
    (hin : s.current_counter t = some c) (hfull : s.to_wait_counter_ c = Fintype.card ι) :
    s.arrivals t = r ∧ s.returns t + 1 = r ∧ t ∈ s.all_reached_barrier_.woken := by
  cases h.place t with
  | out _ _ inside =>
      rw [hin] at inside
      cases inside
  | late arrivals returns inside woken => exact ⟨arrivals, returns, woken⟩
  | waits arrivals returns inside waits =>
      -- the round is not complete
      obtain rfl := Option.some.inj (hin.symm.trans inside)
      rw [h.counter] at hfull
      exact absurd hfull (Nat.ne_of_lt h.incomplete)

/-- A thread that finds it false waits in this round. -/
theorem InvAt.place_of_more {s : State ι} {r : Nat} {t : ι} {c : Fin 2} (h : InvAt s r)
    (hin : s.current_counter t = some c) (hmore : s.to_wait_counter_ c ≠ Fintype.card ι) :
    s.arrivals t = r + 1 ∧ s.returns t = r ∧ c = slot r := by
  cases h.place t with
  | out _ _ inside =>
      rw [hin] at inside
      cases inside
  | late arrivals returns inside woken =>
      -- the counter it refers to keeps its value until the round is complete
      obtain rfl := Option.some.inj (hin.symm.trans inside)
      exact absurd (h.full (by omega)) hmore
  | waits arrivals returns inside waits => exact ⟨arrivals, returns, Option.some.inj (hin.symm.trans inside)⟩

theorem InvAt.leave {s : State ι} {r : Nat} {t : ι} {c : Fin 2} (h : InvAt s r) (hin : s.current_counter t = some c)
    (hfull : s.to_wait_counter_ c = Fintype.card ι) :
    InvAt { s with
      all_reached_barrier_ := s.all_reached_barrier_.leave t
      current_counter := Function.update s.current_counter t none
      returns := Function.update s.returns t (s.returns t + 1) } r := by
  obtain ⟨harrivals, hreturns, hwoken⟩ := h.place_of_full hin hfull
  refine ⟨h.index, h.counter, h.incomplete, h.full, fun u => ?_⟩
  by_cases hu : u = t
  · subst hu
    have hawake := Finset.disjoint_right.mp s.all_reached_barrier_.disjoint hwoken
    exact .out harrivals ((Function.update_self ..).trans hreturns) (Function.update_self ..)
      (WaitSet.not_waits_leave hawake)
  · exact (h.place u).other rfl (Function.update_of_ne hu ..) (Function.update_of_ne hu ..) (WaitSet.leave_sameAt hu)

theorem InvAt.sleep {s : State ι} {r : Nat} {t : ι} {c : Fin 2} (h : InvAt s r) (hin : s.current_counter t = some c)
    (hmore : s.to_wait_counter_ c ≠ Fintype.card ι) :
    InvAt { s with all_reached_barrier_ := s.all_reached_barrier_.sleep t } r := by
  obtain ⟨harrivals, hreturns, hc⟩ := h.place_of_more hin hmore
  refine ⟨h.index, h.counter, h.incomplete, h.full, fun u => ?_⟩
  by_cases hu : u = t
  · subst hu
    exact .waits harrivals hreturns (hc ▸ hin) WaitSet.waits_sleep
  · exact (h.place u).other rfl rfl rfl (WaitSet.sleep_sameAt hu)

theorem InvAt.wake {s : State ι} {r : Nat} {t : ι} (h : InvAt s r) (hasleep : t ∈ s.all_reached_barrier_.asleep) :
    InvAt { s with all_reached_barrier_ := s.all_reached_barrier_.wake t } r := by
  refine ⟨h.index, h.counter, h.incomplete, h.full, fun u => ?_⟩
  by_cases hu : u = t
  · subst hu
    cases h.place u with
    | out _ _ _ outside => exact absurd (.inl hasleep) outside
    | late arrivals returns inside woken =>
        exact .late arrivals returns inside (Finset.mem_insert_self u _)
    | waits arrivals returns inside waits => exact .waits arrivals returns inside WaitSet.waits_wake
  · exact (h.place u).other rfl rfl rfl (WaitSet.wake_sameAt hu)

/-- **A step keeps the round or completes it.** -/
theorem InvAt.stepped [Nonempty ι] {s s' : State ι} {r : Nat} (h : InvAt s r)
    (hstep : Stepped (Fintype.card ι) s s') : InvAt s' r ∨ InvAt s' (r + 1) := by
  cases hstep with
  | arrive t outside more => exact .inl (h.arrive outside more)
  | last t outside all index_ flip => exact .inr (h.last outside all flip)
  | leave t c inside full => exact .inl (h.leave inside full)
  | sleep t c inside more => exact .inl (h.sleep inside more)
  | wake t asleep => exact .inl (h.wake asleep)

theorem reachable_inv [Nonempty ι] {s : State ι} (h : (system ι).Reachable s) : ∃ r, InvAt s r := by
  refine h.invariant_next (P := fun s => ∃ r, InvAt s r) ⟨0, inv_init⟩ ?_
  rintro s a s' ⟨r, hr⟩ hnext
  exact (hr.stepped (next_stepped hnext)).elim (fun h => ⟨r, h⟩) fun h => ⟨r + 1, h⟩

/-! ## Rounds are separate, and everyone gets out -/

omit [Fintype ι] in
theorem Place.bounds {s : State ι} {r : Nat} {t : ι} (h : Place s r t) :
    s.returns t ≤ r ∧ r ≤ s.arrivals t ∧ s.arrivals t ≤ r + 1 := by
  cases h <;> omega

/-- In an incomplete round somebody is missing. -/
theorem InvAt.exists_missing {s : State ι} {r : Nat} (h : InvAt s r) : ∃ u, s.arrivals u = r := by
  by_contra hnot
  have hall : arrived s.arrivals r = Finset.univ := by
    rw [arrived, Finset.filter_true_of_mem]
    intro u _
    have hbounds := (h.place u).bounds
    have hne : s.arrivals u ≠ r := fun heq => hnot ⟨u, heq⟩
    omega
  have hlt := h.incomplete
  rw [hall, Finset.card_univ] at hlt
  exact absurd hlt (Nat.lt_irrefl _)

/-- **Rounds are separate, and everyone gets out.** In every reachable state: a thread that has returned from its
    `k`-th `Arrive` has done so after the `k`-th arrival of every thread; a thread still inside an `Arrive` that
    all have arrived at finds its predicate true, is awake, and returns as soon as it takes the mutex; and a
    thread sleeps only while somebody is missing in its round. -/
theorem rounds_separate [Nonempty ι] {s : State ι} (h : (system ι).Reachable s) :
    (∀ t u, s.returns t ≤ s.arrivals u) ∧
      (∀ t c, s.current_counter t = some c → (∀ u, s.arrivals t ≤ s.arrivals u) →
        s.to_wait_counter_ c = Fintype.card ι ∧ t ∈ s.all_reached_barrier_.woken ∧
          ∃ s', next (Fintype.card ι) s (.look t) = some s' ∧ s'.returns t = s.arrivals t) ∧
      (∀ t ∈ s.all_reached_barrier_.asleep, ∃ u, s.arrivals u < s.arrivals t) := by
  obtain ⟨r, hr⟩ := reachable_inv h
  obtain ⟨m, hm⟩ := hr.exists_missing
  refine ⟨fun t u => ?_, fun t c hin hcomplete => ?_, fun t hasleep => ⟨m, ?_⟩⟩
  · exact Nat.le_trans (hr.place t).bounds.1 (hr.place u).bounds.2.1
  · -- the missing thread has arrived, so this is the last round
    have hlate : s.arrivals t = r := Nat.le_antisymm (hm ▸ hcomplete m) (hr.place t).bounds.2.1
    have hfull : s.to_wait_counter_ c = Fintype.card ι := by
      by_contra hmore
      have harrivals := (hr.place_of_more hin hmore).1
      omega
    obtain ⟨-, hreturns, hwoken⟩ := hr.place_of_full hin hfull
    have hawake := Finset.disjoint_right.mp s.all_reached_barrier_.disjoint hwoken
    refine ⟨hfull, hwoken, look (Fintype.card ι) s t c, ?_, ?_⟩
    · simp only [next, if_neg hawake, hin, Option.map_some]
    · rw [look_of_full hfull]
      show Function.update s.returns t _ t = _
      rw [Function.update_self, hreturns, hlate]
  · have hwaits : s.arrivals t = r + 1 := by
      cases hr.place t with
      | out _ _ _ outside => exact absurd (.inl hasleep) outside
      | late _ _ _ woken => exact absurd hasleep (Finset.disjoint_right.mp s.all_reached_barrier_.disjoint woken)
      | waits arrivals => exact arrivals
    omega

/-- Thread 1 completes the first round and arrives in the second before thread 0 has returned. -/
theorem rounds_separate_two : ∃ s : State (Fin 2), (system (Fin 2)).Reachable s ∧ s.arrivals 1 = 2 ∧
    s.returns 0 = 0 ∧ s.current_counter 0 = some 0 ∧ ∀ t u, s.returns t ≤ s.arrivals u := by
  have hrun : ∃ s, System.run (next 2) ({} : State (Fin 2)) [.arrive 0, .arrive 1, .arrive 1] = some s ∧
      s.arrivals 1 = 2 ∧ s.returns 0 = 0 ∧ s.current_counter 0 = some 0 := ⟨_, rfl, rfl, rfl, rfl⟩
  obtain ⟨s, hs, harrivals, hreturns, hinside⟩ := hrun
  have h : (system (Fin 2)).Reachable s := System.reachable_of_run _ hs
  exact ⟨s, h, harrivals, hreturns, hinside, (rounds_separate h).1⟩

end CyclicBarrier
end Condvar
end Tpcc
