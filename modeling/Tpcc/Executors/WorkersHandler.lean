import Tpcc.Transition.System
import Tpcc.Transition.WaitSet

/-!
# `Executors.WorkersHandler` — waiting for everybody to go home

`WorkersHandler::AcquireWorker`, `ReleaseWorker` and `EverybodyHome` for any number of threads, the same code in
each of the pools. A call runs its critical section in one step; a call of `EverybodyHome` runs it again whenever
it wakes. `current_number_` is a `size_t`.

All threads in `EverybodyHome` wait for the same thing, and each change of the counter wakes one of them. It goes
home without waking the next.

## Contents
- **The handler.** The critical sections, `State`, `next`, and the condition `careful`.
- **A stranded thread.** It sleeps until a worker is acquired or released again.
- **Careful runs.** Where the counter is zero, nobody sleeps.
- **Other runs.** After a step that is not careful, the threads can go on so that one sleeps for ever.
-/

namespace Tpcc
namespace Executors

open Transition

/-- `WorkersHandler`, with the threads inside `enough_tokens_.wait`. -/
structure WorkersHandler (ι : Type) [DecidableEq ι] where
  current_number_ : UInt64 := 0
  enough_tokens_ : WaitSet ι := {}

namespace WorkersHandler

variable {ι : Type} [DecidableEq ι]

/-! ## The handler -/

/-- `ReleaseWorker`, whose notification wakes `c`. -/
def releaseWorker (w : WorkersHandler ι) (c : Option ι) : Option (WorkersHandler ι) :=
  (w.enough_tokens_.notifyOne c).map fun enough_tokens_ =>
    { current_number_ := w.current_number_ - 1, enough_tokens_ }

/-- `AcquireWorker`, whose notification wakes `c`. -/
def acquireWorker (w : WorkersHandler ι) (c : Option ι) : Option (WorkersHandler ι) :=
  (w.enough_tokens_.notifyOne c).map fun enough_tokens_ =>
    { current_number_ := w.current_number_ + 1, enough_tokens_ }

/-- `EverybodyHome`, whenever thread `t` has the mutex and looks at the predicate: it returns, or sleeps. -/
def everybodyHome (w : WorkersHandler ι) (t : ι) : Bool × WorkersHandler ι :=
  if w.current_number_ = 0 then (true, { w with enough_tokens_ := w.enough_tokens_.leave t })
  else (false, { w with enough_tokens_ := w.enough_tokens_.sleep t })

inductive Call where
  | acquireWorker
  | releaseWorker
  | everybodyHome
  deriving DecidableEq

/-- A handler, the calls in progress, and how many workers have been acquired and released. -/
structure State (ι : Type) [DecidableEq ι] where
  handler : WorkersHandler ι := {}
  calls : ι → Option Call := fun _ => none
  acquired : Nat := 0
  released : Nat := 0

/-- Who takes the next step: a thread that makes a call; one that runs the section of its call, with the sleeper
    its notification is for; or a sleeper that wakes for no reason. -/
inductive Action (ι : Type) where
  | call (t : ι) (call : Call)
  | acquireWorker (t : ι) (wakes : Option ι)
  | releaseWorker (t : ι) (wakes : Option ι)
  | everybodyHome (t : ι)
  | wake (t : ι)

/-- The calls, when thread `t` makes one or returns from it. -/
def State.setCall (s : State ι) (t : ι) (call : Option Call) : ι → Option Call := Function.update s.calls t call

def next (s : State ι) : Action ι → Option (State ι)
  | .call t call => if s.calls t = none then some { s with calls := s.setCall t (some call) } else none
  | .acquireWorker t c =>
      if s.calls t = some .acquireWorker then
        (s.handler.acquireWorker c).map fun handler =>
          { s with handler, calls := s.setCall t none, acquired := s.acquired + 1 }
      else none
  | .releaseWorker t c =>
      if s.calls t = some .releaseWorker then
        (s.handler.releaseWorker c).map fun handler =>
          { s with handler, calls := s.setCall t none, released := s.released + 1 }
      else none
  | .everybodyHome t =>
      if s.calls t = some .everybodyHome ∧ t ∉ s.handler.enough_tokens_.asleep then
        match s.handler.everybodyHome t with
        | (true, handler) => some { s with handler, calls := s.setCall t none }
        | (false, handler) => some { s with handler }
      else none
  | .wake t =>
      if t ∈ s.handler.enough_tokens_.asleep then
        some { s with handler := { s.handler with enough_tokens_ := s.handler.enough_tokens_.wake t } }
      else none

/-- Releases do not exceed acquisitions. -/
def balanced (s : State ι) : Action ι → Bool
  | .releaseWorker _ _ => s.released < s.acquired
  | _ => true

/-- Where the counter comes to zero, at most one thread sleeps. -/
def careful (s : State ι) : Action ι → Bool
  | .releaseWorker _ _ => s.handler.current_number_ ≠ 1 || s.handler.enough_tokens_.asleep.card ≤ 1
  -- an overflow
  | .acquireWorker _ _ => s.handler.current_number_ + 1 ≠ 0 || s.handler.enough_tokens_.asleep.card ≤ 1
  | _ => true

/-- The runs of threads `ι` all of whose steps meet `ok`. -/
def system (ι : Type) [DecidableEq ι] (ok : State ι → Action ι → Bool) : System (State ι) :=
  System.ofNextIf {} next fun s a => ok s a = true

/-- Thread `t` is inside `AcquireWorker` or `ReleaseWorker`. -/
def State.Inside (s : State ι) (t : ι) : Prop :=
  s.calls t = some .acquireWorker ∨ s.calls t = some .releaseWorker

/-- Everybody is home, and a thread sleeps that nobody will wake. -/
structure State.Stranded (s : State ι) : Prop where
  zero : s.handler.current_number_ = 0
  outside : ∀ t, ¬ s.Inside t
  asleep : s.handler.enough_tokens_.asleep.Nonempty
  woken : s.handler.enough_tokens_.woken = ∅

/-! ## What a step can do -/

/-- The kinds of step. -/
inductive Stepped (s : State ι) : Action ι → State ι → Prop where
  | call (t : ι) (call : Call) (idle : s.calls t = none) :
      Stepped s (.call t call) { s with calls := s.setCall t (some call) }
  | acquire (t : ι) (c : Option ι) (w : WaitSet ι) (call : s.calls t = some .acquireWorker)
      (notified : s.handler.enough_tokens_.notifyOne c = some w) :
      Stepped s (.acquireWorker t c) { s with
        handler := ⟨s.handler.current_number_ + 1, w⟩
        calls := s.setCall t none
        acquired := s.acquired + 1 }
  | release (t : ι) (c : Option ι) (w : WaitSet ι) (call : s.calls t = some .releaseWorker)
      (notified : s.handler.enough_tokens_.notifyOne c = some w) :
      Stepped s (.releaseWorker t c) { s with
        handler := ⟨s.handler.current_number_ - 1, w⟩
        calls := s.setCall t none
        released := s.released + 1 }
  | home (t : ι) (call : s.calls t = some .everybodyHome) (awake : t ∉ s.handler.enough_tokens_.asleep)
      (zero : s.handler.current_number_ = 0) :
      Stepped s (.everybodyHome t) { s with
        handler := { s.handler with enough_tokens_ := s.handler.enough_tokens_.leave t }
        calls := s.setCall t none }
  | sleep (t : ι) (call : s.calls t = some .everybodyHome) (awake : t ∉ s.handler.enough_tokens_.asleep)
      (work : s.handler.current_number_ ≠ 0) :
      Stepped s (.everybodyHome t) { s with
        handler := { s.handler with enough_tokens_ := s.handler.enough_tokens_.sleep t } }
  | wake (t : ι) (asleep : t ∈ s.handler.enough_tokens_.asleep) :
      Stepped s (.wake t) { s with
        handler := { s.handler with enough_tokens_ := s.handler.enough_tokens_.wake t } }

variable {s s' : State ι} {a : Action ι} {t : ι} {c : Option ι}

theorem next_stepped (h : next s a = some s') : Stepped s a s' := by
  cases a with
  | call t call =>
      simp only [next, Option.ite_none_right_eq_some, Option.some.injEq] at h
      obtain ⟨hidle, rfl⟩ := h
      exact .call t call hidle
  | acquireWorker t c =>
      simp only [next, acquireWorker, Option.map_map, Option.ite_none_right_eq_some, Option.map_eq_some_iff] at h
      obtain ⟨hcall, w, hw, rfl⟩ := h
      exact .acquire t c w hcall hw
  | releaseWorker t c =>
      simp only [next, releaseWorker, Option.map_map, Option.ite_none_right_eq_some, Option.map_eq_some_iff] at h
      obtain ⟨hcall, w, hw, rfl⟩ := h
      exact .release t c w hcall hw
  | everybodyHome t =>
      simp only [next, everybodyHome, Option.ite_none_right_eq_some] at h
      obtain ⟨⟨hcall, hawake⟩, h⟩ := h
      by_cases hzero : s.handler.current_number_ = 0
      · simp only [if_pos hzero, Option.some.injEq] at h
        obtain rfl := h
        exact .home t hcall hawake hzero
      · simp only [if_neg hzero, Option.some.injEq] at h
        obtain rfl := h
        exact .sleep t hcall hawake hzero
  | wake t =>
      simp only [next, Option.ite_none_right_eq_some, Option.some.injEq] at h
      obtain ⟨hasleep, rfl⟩ := h
      exact .wake t hasleep

theorem Stepped.next (h : Stepped s a s') : next s a = some s' := by
  cases h with
  | call t call idle => exact if_pos idle
  | acquire t c w call notified =>
      simp only [WorkersHandler.next, call, acquireWorker, notified, if_true, Option.map_some]
  | release t c w call notified =>
      simp only [WorkersHandler.next, call, releaseWorker, notified, if_true, Option.map_some]
  | home t call awake zero =>
      simp only [WorkersHandler.next, everybodyHome, call, awake, zero, not_false_eq_true, and_self, if_true]
  | sleep t call awake work =>
      simp only [WorkersHandler.next, everybodyHome, call, awake, work, not_false_eq_true, and_self, if_true, if_false]
  | wake t asleep => exact if_pos asleep

theorem setCall_self (s : State ι) (t : ι) (call : Option Call) : s.setCall t call t = call := Function.update_self ..

theorem setCall_of_ne (s : State ι) {t u : ι} (call : Option Call) (h : u ≠ t) : s.setCall t call u = s.calls u :=
  Function.update_of_ne h ..

theorem not_inside (h : s.calls t = none) : ¬ s.Inside t := by
  rintro (hcall | hcall) <;> rw [h] at hcall <;> cases hcall

theorem State.Inside.congr (h : s.Inside t) (hcalls : s'.calls t = s.calls t) : s'.Inside t :=
  h.imp hcalls.trans hcalls.trans

/-- With everybody outside, a thread returns, or makes another call. -/
theorem outside_setCall (h : ∀ u, ¬ s.Inside u) {call : Option Call} (hcalls : s'.calls = s.setCall t call)
    (hacquire : call ≠ some .acquireWorker) (hrelease : call ≠ some .releaseWorker) (u : ι) : ¬ s'.Inside u := by
  intro hu
  have hcall := congrFun hcalls u
  by_cases hut : u = t
  · subst hut
    rw [setCall_self] at hcall
    rcases hu with hu | hu
    · exact hacquire (hcall.symm.trans hu)
    · exact hrelease (hcall.symm.trans hu)
  · exact h u (hu.congr (hcall.trans (setCall_of_ne s call hut)).symm)

/-! ## A stranded thread -/

/-- Thread `t` calls nothing but `EverybodyHome`, and does not wake for no reason. -/
def Action.waits : Action ι → Bool
  | .call _ c => c = .everybodyHome
  | .wake _ => false
  | _ => true

/-- **A stranded thread sleeps on**: the others wait as well, and go home at once. -/
theorem State.Stranded.stepped (h : s.Stranded) (hwaits : a.waits = true) (hstep : Stepped s a s') :
    s'.Stranded ∧ s'.handler.enough_tokens_.asleep = s.handler.enough_tokens_.asleep := by
  cases hstep with
  | call t call idle =>
      obtain rfl : call = .everybodyHome := of_decide_eq_true hwaits
      exact ⟨⟨h.zero, outside_setCall h.outside rfl nofun nofun, h.asleep, h.woken⟩, rfl⟩
  | acquire t c w call notified => exact absurd (.inl call) (h.outside t)
  | release t c w call notified => exact absurd (.inr call) (h.outside t)
  | home t call awake zero =>
      refine ⟨⟨h.zero, outside_setCall h.outside rfl nofun nofun, h.asleep, ?_⟩, rfl⟩
      show s.handler.enough_tokens_.woken.erase t = ∅
      rw [h.woken, Finset.erase_empty]
  | sleep t call awake work => exact absurd h.zero work
  | wake t asleep => cases hwaits

theorem State.Stranded.steps (h : s.Stranded) (hsteps : (system ι fun _ a => a.waits).Steps s s') :
    s'.Stranded ∧ s'.handler.enough_tokens_.asleep = s.handler.enough_tokens_.asleep := by
  induction hsteps with
  | refl => exact ⟨h, rfl⟩
  | tail _ hstep ih =>
      obtain ⟨a, hwaits, hnext⟩ := hstep
      obtain ⟨hstranded, hasleep⟩ := ih
      obtain ⟨hstranded', hasleep'⟩ := hstranded.stepped hwaits (next_stepped hnext)
      exact ⟨hstranded', hasleep'.trans hasleep⟩

/-! ## Careful runs -/

/-- Where the counter is zero, nobody sleeps. -/
def Calm (s : State ι) : Prop := s.handler.current_number_ = 0 → s.handler.enough_tokens_.asleep = ∅

/-- **A careful step leaves no sleeper behind.** -/
theorem Calm.stepped (h : Calm s) (hcareful : careful s a = true) (hstep : Stepped s a s') : Calm s' := by
  intro hzero
  cases hstep with
  | call t call idle => exact h hzero
  | acquire t c w call notified =>
      simp only [careful, Bool.or_eq_true, decide_eq_true_eq] at hcareful
      exact WaitSet.notifyOne_asleep_eq notified (hcareful.resolve_left fun hne => hne hzero)
  | release t c w call notified =>
      simp only [careful, Bool.or_eq_true, decide_eq_true_eq] at hcareful
      have hone : s.handler.current_number_ = 1 := by
        have hcancel := UInt64.sub_add_cancel s.handler.current_number_ 1
        rw [← hcancel]
        exact congrArg (· + 1) hzero
      exact WaitSet.notifyOne_asleep_eq notified (hcareful.resolve_left fun hne => hne hone)
  | home t call awake zero => exact h zero
  | sleep t call awake work => exact absurd hzero work
  | wake t asleep =>
      have hempty := h hzero
      rw [hempty] at asleep
      exact absurd asleep (Finset.notMem_empty t)

theorem reachable_calm (h : (system ι fun s a => balanced s a && careful s a).Reachable s) : Calm s := by
  refine h.invariant ?_ ?_
  · rintro s rfl
    exact fun _ => rfl
  · rintro s s' hcalm ⟨a, hok, hnext⟩
    exact hcalm.stepped (Bool.and_eq_true_iff.mp hok).2 (next_stepped hnext)

/-! ## Other runs -/

/-- What holds of every run. -/
structure Known (s : State ι) : Prop where
  waits : ∀ t, s.handler.enough_tokens_.Waits t → s.calls t = some .everybodyHome
  le : s.released ≤ s.acquired
  finite : ∃ active : Finset ι, ∀ t ∉ active, s.calls t = none

/-- Thread `t`, which is not in `wait`, makes a call or returns. -/
theorem Known.setCall (h : Known s) {call : Option Call} (ht : ¬ s.handler.enough_tokens_.Waits t) (u : ι)
    (hu : s.handler.enough_tokens_.Waits u) : s.setCall t call u = some .everybodyHome := by
  have hne : u ≠ t := by
    rintro rfl
    exact ht hu
  rw [setCall_of_ne s call hne]
  exact h.waits u hu

theorem Known.finite_setCall (h : Known s) (t : ι) (call : Option Call) :
    ∃ active : Finset ι, ∀ u ∉ active, s.setCall t call u = none := by
  obtain ⟨active, hactive⟩ := h.finite
  refine ⟨insert t active, ?_⟩
  intro u hu
  obtain ⟨hne, hnot⟩ := not_or.mp (mt Finset.mem_insert.mpr hu)
  rw [setCall_of_ne s call hne]
  exact hactive u hnot

/-- A thread in another call is not in `wait`. -/
theorem Known.not_waits (h : Known s) (ht : s.calls t ≠ some .everybodyHome) : ¬ s.handler.enough_tokens_.Waits t :=
  fun hwaits => ht (h.waits t hwaits)

theorem Known.stepped (h : Known s) (hbalanced : balanced s a = true) (hstep : Stepped s a s') : Known s' := by
  cases hstep with
  | call t call idle =>
      refine ⟨h.setCall (h.not_waits ?_), h.le, h.finite_setCall t _⟩
      rw [idle]
      exact Option.some_ne_none _ |>.symm
  | acquire t c w call notified =>
      refine ⟨?_, Nat.le_succ_of_le h.le, h.finite_setCall t _⟩
      intro u hu
      refine h.setCall (h.not_waits ?_) u ((WaitSet.waits_of_notifyOne notified).mp hu)
      rw [call]
      decide
  | release t c w call notified =>
      refine ⟨?_, of_decide_eq_true hbalanced, h.finite_setCall t _⟩
      intro u hu
      refine h.setCall (h.not_waits ?_) u ((WaitSet.waits_of_notifyOne notified).mp hu)
      rw [call]
      decide
  | home t call awake zero =>
      refine ⟨?_, h.le, h.finite_setCall t _⟩
      intro u hu
      have hne : u ≠ t := by
        rintro rfl
        exact WaitSet.not_waits_leave awake hu
      show s.setCall t none u = _
      rw [setCall_of_ne s none hne]
      exact h.waits u ((WaitSet.leave_sameAt hne).waits.mp hu)
  | sleep t call awake work =>
      refine ⟨?_, h.le, h.finite⟩
      intro u hu
      by_cases hne : u = t
      · rw [hne]
        exact call
      · exact h.waits u ((WaitSet.sleep_sameAt hne).waits.mp hu)
  | wake t asleep => exact ⟨fun u hu => h.waits u ((WaitSet.waits_of_wake asleep).mp hu), h.le, h.finite⟩

theorem Known.init : Known ({} : State ι) := by
  refine ⟨?_, Nat.le_refl 0, ∅, fun _ _ => rfl⟩
  rintro t (hasleep | hwoken)
  · exact absurd hasleep (Finset.notMem_empty t)
  · exact absurd hwoken (Finset.notMem_empty t)

theorem reachable_known (h : (system ι balanced).Reachable s) : Known s := by
  refine h.invariant ?_ ?_
  · rintro s rfl
    exact .init
  · rintro s s' hknown ⟨a, hbalanced, hnext⟩
    exact hknown.stepped hbalanced (next_stepped hnext)

theorem Stepped.steps (h : Stepped s a s') (hbalanced : balanced s a = true) : (system ι balanced).Steps s s' :=
  System.Steps.refl.tail ⟨a, hbalanced, h.next⟩

theorem Known.steps (h : Known s) (hsteps : (system ι balanced).Steps s s') : Known s' := by
  induction hsteps with
  | refl => exact h
  | tail _ hstep ih =>
      obtain ⟨a, hbalanced, hnext⟩ := hstep
      exact ih.stepped hbalanced (next_stepped hnext)

/-- State `s'` is `s`, but for which of the threads in `wait` sleep. -/
structure Settled (s s' : State ι) : Prop where
  calls : s'.calls = s.calls
  number : s'.handler.current_number_ = s.handler.current_number_
  acquired : s'.acquired = s.acquired
  released : s'.released = s.released
  waits : ∀ t, s'.handler.enough_tokens_.Waits t ↔ s.handler.enough_tokens_.Waits t

/-- **While there is work**, the woken threads look, one after the other, and sleep again. -/
theorem Known.settle (h : Known s) (hwork : s.handler.current_number_ ≠ 0) :
    ∃ s', (system ι balanced).Steps s s' ∧ Settled s s' ∧ s'.handler.enough_tokens_.woken = ∅ := by
  refine System.exists_steps (fun x => x.handler.enough_tokens_.woken.card) ?_ ⟨rfl, rfl, rfl, rfl, fun _ => Iff.rfl⟩
  intro x hx
  rcases x.handler.enough_tokens_.woken.eq_empty_or_nonempty with hempty | ⟨t, ht⟩
  · exact .inl hempty
  · have hcall : x.calls t = some .everybodyHome := by
      rw [hx.calls]
      exact h.waits t ((hx.waits t).mp (.inr ht))
    have hawake := Finset.disjoint_right.mp x.handler.enough_tokens_.disjoint ht
    have hstep := Stepped.sleep t hcall hawake (hx.number ▸ hwork)
    refine .inr ⟨_, hstep.steps rfl, ⟨hx.calls, hx.number, hx.acquired, hx.released, ?_⟩,
      Finset.card_erase_lt_of_mem ht⟩
    intro u
    rw [← hx.waits u]
    by_cases hu : u = t
    · rw [hu]
      exact iff_of_true WaitSet.waits_sleep (.inr ht)
    · exact (WaitSet.sleep_sameAt hu).waits

/-- **When nobody is left to wake them**, the woken threads look, and go home. -/
theorem Known.drain (h : Known s) (hzero : s.handler.current_number_ = 0) (houtside : ∀ t, ¬ s.Inside t)
    (hasleep : s.handler.enough_tokens_.asleep.Nonempty) :
    ∃ s', (system ι balanced).Steps s s' ∧ s'.Stranded := by
  have hdrain : ∃ s', (system ι balanced).Steps s s' ∧ (Known s' ∧ s'.handler.current_number_ = 0 ∧
      (∀ t, ¬ s'.Inside t) ∧ s'.handler.enough_tokens_.asleep.Nonempty) ∧ s'.handler.enough_tokens_.woken = ∅ := by
    refine System.exists_steps (fun x => x.handler.enough_tokens_.woken.card) ?_ ⟨h, hzero, houtside, hasleep⟩
    rintro x ⟨hx, hzero, houtside, hasleep⟩
    rcases x.handler.enough_tokens_.woken.eq_empty_or_nonempty with hempty | ⟨t, ht⟩
    · exact .inl hempty
    · have hawake := Finset.disjoint_right.mp x.handler.enough_tokens_.disjoint ht
      have hstep := Stepped.home t (hx.waits t (.inr ht)) hawake hzero
      exact .inr ⟨_, hstep.steps rfl, ⟨hx.stepped rfl hstep, hzero, outside_setCall houtside rfl nofun nofun, hasleep⟩,
        Finset.card_erase_lt_of_mem ht⟩
  obtain ⟨s', hsteps, ⟨-, hzero', houtside', hasleep'⟩, hwoken⟩ := hdrain
  exact ⟨s', hsteps, hzero', houtside', hasleep', hwoken⟩

/-- The state after a step that is not careful, by thread `t`: nobody works, two threads wait, and one of them
    has not been woken. -/
structure Doomed (t : ι) (s : State ι) : Prop where
  known : Known s
  zero : s.handler.current_number_ = 0
  idle : s.calls t = none
  asleep : s.handler.enough_tokens_.asleep.Nonempty
  two : ∃ u v, u ≠ v ∧ s.handler.enough_tokens_.Waits u ∧ s.handler.enough_tokens_.Waits v

/-- The thread whose notification leaves a sleeper behind. -/
theorem doomed_of_notified {w : WaitSet ι} (hnotified : s.handler.enough_tokens_.notifyOne c = some w)
    (htwo : 1 < s.handler.enough_tokens_.asleep.card) (hknown : Known s') (hcalls : s'.calls = s.setCall t none)
    (hzero : s'.handler.current_number_ = 0) (hw : s'.handler.enough_tokens_ = w) : Doomed t s' := by
  obtain ⟨u, hu, v, hv, hne⟩ := Finset.one_lt_card.mp htwo
  subst hw
  refine ⟨hknown, hzero, ?_, WaitSet.notifyOne_nonempty hnotified hu hv hne, u, v, hne, ?_, ?_⟩
  · rw [hcalls]
    exact setCall_self s t none
  · exact (WaitSet.waits_of_notifyOne hnotified).mpr (.inl hu)
  · exact (WaitSet.waits_of_notifyOne hnotified).mpr (.inl hv)

/-- Thread `t` acquires a worker, and then all that wait sleep. -/
theorem Known.acquire (h : Known s) (hzero : s.handler.current_number_ = 0) (hcall : s.calls t = some .acquireWorker) :
    ∃ s', (system ι balanced).Steps s s' ∧ s'.calls = s.setCall t none ∧ s'.handler.current_number_ = 1 ∧
      s'.released < s'.acquired ∧ ∀ u, s.handler.enough_tokens_.Waits u → u ∈ s'.handler.enough_tokens_.asleep := by
  obtain ⟨c, w, hw⟩ := s.handler.enough_tokens_.exists_notifyOne
  have hstep := Stepped.acquire t c w hcall hw
  have hone : s.handler.current_number_ + 1 = 1 := by
    rw [hzero]
    rfl
  have hwork : s.handler.current_number_ + 1 ≠ 0 := by
    rw [hone]
    decide
  obtain ⟨s', hsteps, hsettled, hwoken⟩ := (h.stepped rfl hstep).settle hwork
  refine ⟨s', (hstep.steps rfl).trans hsteps, hsettled.calls, hsettled.number.trans hone, ?_, ?_⟩
  · rw [hsettled.released, hsettled.acquired]
    exact Nat.lt_succ_of_le h.le
  · -- nobody who waits is awake any more
    intro u hu
    refine ((hsettled.waits u).mpr ((WaitSet.waits_of_notifyOne hw).mpr hu)).resolve_right ?_
    rw [hwoken]
    exact Finset.notMem_empty u

/-- Thread `t` acquires a worker, and thread `u` releases it. -/
theorem Known.cycle (h : Known s) {u : ι} (hzero : s.handler.current_number_ = 0)
    (hacquirer : s.calls t = some .acquireWorker) (hreleaser : s.calls u = some .releaseWorker)
    (htwo : ∃ v w, v ≠ w ∧ s.handler.enough_tokens_.Waits v ∧ s.handler.enough_tokens_.Waits w) :
    ∃ s', (system ι balanced).Steps s s' ∧ Doomed u s' ∧ s'.calls t = none ∧
      ∀ v, v ≠ t → v ≠ u → s'.calls v = s.calls v := by
  have hut : u ≠ t := by
    rintro rfl
    rw [hacquirer] at hreleaser
    cases hreleaser
  obtain ⟨s₁, hacquire, hcalls, hone, hlt, hasleep⟩ := h.acquire hzero hacquirer
  have hothers : ∀ v, v ≠ t → s₁.calls v = s.calls v := by
    intro v hvt
    rw [hcalls]
    exact setCall_of_ne s none hvt
  have hknown := h.steps hacquire
  obtain ⟨c, w, hw⟩ := s₁.handler.enough_tokens_.exists_notifyOne
  have hstep := Stepped.release u c w ((hothers u hut).trans hreleaser) hw
  have hbalanced : balanced s₁ (.releaseWorker u c) = true := decide_eq_true hlt
  have htwo' : 1 < s₁.handler.enough_tokens_.asleep.card := by
    obtain ⟨v, v', hne, hv, hv'⟩ := htwo
    exact Finset.one_lt_card.mpr ⟨v, hasleep v hv, v', hasleep v' hv', hne⟩
  refine ⟨_, hacquire.trans (hstep.steps hbalanced), ?_, ?_, ?_⟩
  · refine doomed_of_notified hw htwo' (hknown.stepped hbalanced hstep) rfl ?_ rfl
    show s₁.handler.current_number_ - 1 = 0
    rw [hone]
    rfl
  · refine (setCall_of_ne s₁ none hut.symm).trans ?_
    rw [hcalls]
    exact setCall_self s t none
  · intro v hvt hvu
    exact (setCall_of_ne s₁ none hvu).trans (hothers v hvt)

/-- Threads `t` and `u` have returned from their calls, `t` from the one it made in `s`. -/
theorem inside_of_returned {call : Option Call} {u v : ι} (hu : s'.calls u = none) (ht : s'.calls t = none)
    (hothers : ∀ v, v ≠ u → v ≠ t → s'.calls v = s.setCall t call v) (hv : s'.Inside v) : s.Inside v ∧ v ≠ u := by
  have hvu : v ≠ u := by
    rintro rfl
    exact not_inside hu hv
  have hvt : v ≠ t := by
    rintro rfl
    exact not_inside ht hv
  have hcalls := (hothers v hvu hvt).trans (setCall_of_ne s call hvt)
  exact ⟨hv.congr hcalls.symm, hvu⟩

/-- Thread `u` returns, with the help of thread `t`: what one acquires the other releases. -/
theorem Doomed.help (h : Doomed t s) {u : ι} (hu : s.Inside u) :
    ∃ s', (system ι balanced).Steps s s' ∧ Doomed t s' ∧ ∀ v, s'.Inside v → s.Inside v ∧ v ≠ u := by
  have hut : u ≠ t := by
    rintro rfl
    exact not_inside h.idle hu
  rcases hu with hacquirer | hreleaser
  · have hstep := Stepped.call t .releaseWorker h.idle
    have hacquirer' := (setCall_of_ne s (some .releaseWorker) hut).trans hacquirer
    obtain ⟨s', hsteps, hdoomed, hreturned, hothers⟩ :=
      (h.known.stepped rfl hstep).cycle h.zero hacquirer' (setCall_self s t _) h.two
    refine ⟨s', (hstep.steps rfl).trans hsteps, hdoomed, ?_⟩
    exact fun v hv => inside_of_returned hreturned hdoomed.idle hothers hv
  · have hstep := Stepped.call t .acquireWorker h.idle
    have hreleaser' := (setCall_of_ne s (some .acquireWorker) hut).trans hreleaser
    obtain ⟨s', hsteps, hdoomed, hreturned, hothers⟩ :=
      (h.known.stepped rfl hstep).cycle h.zero (setCall_self s t _) hreleaser' h.two
    refine ⟨s', (hstep.steps rfl).trans hsteps, { hdoomed with idle := hreturned }, ?_⟩
    exact fun v hv => inside_of_returned hdoomed.idle hreturned (fun w hwu hwt => hothers w hwt hwu) hv

/-- **A thread can be stranded**: the others return from their calls, and then those woken go home. -/
theorem Doomed.strands (h : Doomed t s) : ∃ s', (system ι balanced).Steps s s' ∧ s'.Stranded := by
  obtain ⟨active, hactive⟩ := h.known.finite
  have hinside : ∀ u, s.Inside u → u ∈ active := by
    intro u hu
    by_contra hnot
    exact not_inside (hactive u hnot) hu
  clear hactive
  -- on the threads that may be inside; each of them returns in its turn
  induction active using Finset.induction_on generalizing s with
  | empty => exact h.known.drain h.zero (fun u hu => absurd (hinside u hu) (Finset.notMem_empty u)) h.asleep
  | insert u active hu ih =>
      by_cases hin : s.Inside u
      · obtain ⟨s₁, hsteps, hs₁, hless⟩ := h.help hin
        have hinside₁ : ∀ v, s₁.Inside v → v ∈ active := by
          intro v hv
          obtain ⟨hv, hne⟩ := hless v hv
          exact (Finset.mem_insert.mp (hinside v hv)).resolve_left hne
        obtain ⟨s', hsteps', hstranded⟩ := ih hs₁ hinside₁
        exact ⟨s', hsteps.trans hsteps', hstranded⟩
      · refine ih h ?_
        intro v hv
        refine (Finset.mem_insert.mp (hinside v hv)).resolve_left ?_
        rintro rfl
        exact hin hv

theorem doomed_of_careless (h : Known s) (hbalanced : balanced s a = true) (hcareless : careful s a = false)
    (hstep : Stepped s a s') : ∃ t, Doomed t s' := by
  have hknown := h.stepped hbalanced hstep
  cases hstep with
  | acquire t c w call notified =>
      simp only [careful, Bool.or_eq_false_iff, decide_eq_false_iff_not, not_not, not_le] at hcareless
      exact ⟨t, doomed_of_notified notified hcareless.2 hknown rfl hcareless.1 rfl⟩
  | release t c w call notified =>
      simp only [careful, Bool.or_eq_false_iff, decide_eq_false_iff_not, not_not, not_le] at hcareless
      refine ⟨t, doomed_of_notified notified hcareless.2 hknown rfl ?_ rfl⟩
      show s.handler.current_number_ - 1 = 0
      rw [hcareless.1]
      rfl
  | call | home | sleep | wake => cases hcareless

/-- **`EverybodyHome` wakes the only sleeper.** As long as at most one thread sleeps when the counter comes to zero,
    nobody is stranded; and when two or more do, the threads can go on so that one is. -/
theorem everybodyHome_wakes (ι : Type) [DecidableEq ι] :
    (∀ s, (system ι fun s a => balanced s a && careful s a).Reachable s → ¬ s.Stranded) ∧
    ∀ s a s', (system ι balanced).Reachable s → balanced s a = true → next s a = some s' → careful s a = false →
      ∃ s'', (system ι balanced).Steps s' s'' ∧ s''.Stranded := by
  constructor
  · intro s hs hstranded
    have hempty := (reachable_calm hs) hstranded.zero
    have hasleep := hstranded.asleep
    rw [hempty] at hasleep
    exact Finset.not_nonempty_empty hasleep
  · intro s a s' hs hbalanced hnext hcareless
    obtain ⟨t, hdoomed⟩ := doomed_of_careless (reachable_known hs) hbalanced hcareless (next_stepped hnext)
    exact hdoomed.strands

/-- Thread `t` acquires a worker, and thread `u` sleeps in `EverybodyHome`. -/
def working (t u : ι) : List (Action ι) :=
  [.call t .acquireWorker, .acquireWorker t none, .call u .everybodyHome, .everybodyHome u]

/-- So does thread `v`, and thread `t` is to release the worker. -/
def releasing (t v : ι) : List (Action ι) := [.call v .everybodyHome, .everybodyHome v, .call t .releaseWorker]

/-- Thread `t` releases the worker, and thread `u`, which it wakes, goes home. -/
def goesHome (t u : ι) : List (Action ι) := [.releaseWorker t (some u), .everybodyHome u]

theorem everybodyHome_wakes_one :
    (∃ s : State (Fin 3), (system (Fin 3) fun s a => balanced s a && careful s a).Reachable s ∧ s.released = 1 ∧
      s.calls 1 = none ∧ ¬ s.Stranded) ∧
    ∃ s s' s'' : State (Fin 3), (system (Fin 3) balanced).Reachable s ∧
      next s (.releaseWorker 0 (some 1)) = some s' ∧ (system (Fin 3) balanced).Steps s' s'' ∧ s''.Stranded := by
  constructor
  · have hrun : ∃ s : State (Fin 3), System.runWhile (fun s a => balanced s a && careful s a) next {}
        (working 0 1 ++ .call 0 .releaseWorker :: goesHome 0 1) = some s ∧ s.released = 1 ∧ s.calls 1 = none :=
      ⟨_, rfl, rfl, rfl⟩
    obtain ⟨s, hs, hreleased, hhome⟩ := hrun
    have hreach : (system (Fin 3) fun s a => balanced s a && careful s a).Reachable s :=
      ⟨_, rfl, System.steps_of_runWhile (fun _ _ hok => hok) hs⟩
    exact ⟨s, hreach, hreleased, hhome, (everybodyHome_wakes (Fin 3)).1 s hreach⟩
  · have hrun : ∃ s s' : State (Fin 3), System.runWhile balanced next {} (working 0 1 ++ releasing 0 2) = some s ∧
        next s (.releaseWorker 0 (some 1)) = some s' ∧ balanced s (.releaseWorker 0 (some 1)) = true ∧
        careful s (.releaseWorker 0 (some 1)) = false := ⟨_, _, rfl, rfl, rfl, rfl⟩
    obtain ⟨s, s', hs, hnext, hbalanced, hcareless⟩ := hrun
    have hreach : (system (Fin 3) balanced).Reachable s := ⟨_, rfl, System.steps_of_runWhile (fun _ _ hok => hok) hs⟩
    obtain ⟨s'', hsteps, hstranded⟩ := (everybodyHome_wakes (Fin 3)).2 s _ s' hreach hbalanced hnext hcareless
    exact ⟨s, s', s'', hreach, hnext, hsteps, hstranded⟩

/-- Threads 1 and 2 sleep when worker 0 is released. Thread 1 is woken and goes home. -/
theorem everybodyHome_strands : ∃ s : State (Fin 3), (system (Fin 3) balanced).Reachable s ∧ s.Stranded := by
  have hrun : ∃ s : State (Fin 3), System.runWhile balanced next {}
      (working 0 1 ++ releasing 0 2 ++ goesHome 0 1) = some s ∧ s.handler.current_number_ = 0 ∧
        (∀ t, s.calls t ≠ some .acquireWorker ∧ s.calls t ≠ some .releaseWorker) ∧
        s.handler.enough_tokens_.asleep = {2} ∧ s.handler.enough_tokens_.woken = ∅ :=
    ⟨_, rfl, rfl, by decide, rfl, rfl⟩
  obtain ⟨s, hs, hzero, houtside, hasleep, hwoken⟩ := hrun
  refine ⟨s, ⟨_, rfl, System.steps_of_runWhile (fun _ _ hok => hok) hs⟩, hzero, ?_, ?_, hwoken⟩
  · rintro t (hacquirer | hreleaser)
    · exact (houtside t).1 hacquirer
    · exact (houtside t).2 hreleaser
  · rw [hasleep]
    exact Finset.singleton_nonempty 2

end WorkersHandler
end Executors
end Tpcc
