import Tpcc.Transition.Exclusive
import Tpcc.Transition.Refinement

/-!
# `Transition.Section` — operations under a mutex are atomic

An `Object` is given by what its operations do, one access at a time. Threads that lock a mutex around each of
their operations (`Object.sections`) cannot be told from threads whose operations take effect in one step
(`Object.atomic`), whatever else they do with the time: `sections_refines`.

The mutex is any system that refines `mutex`, where it is free or some thread's; `mutex_refines` says what there
is to show of a lock. What a thread calls and what is returned to it is seen; that and when it locks is not.
Nothing here names a program.
-/

namespace Tpcc
namespace Transition

/-! ## Mutexes -/

/-- Thread `t` calls `lock`, `tryLock` or `unlock`; `lock` returns to it (`acquire`), or `tryLock` does. -/
inductive MutexEvent (ι : Type*) where
  | lock (t : ι)
  | acquire (t : ι)
  | tryLock (t : ι)
  | tried (t : ι) (taken : Bool)
  | unlock (t : ι)

/-- The steps of a mutex, free or held. -/
inductive MutexStep {ι : Type*} : Option ι → Option (MutexEvent ι) → Option ι → Prop where
  | lock {holder : Option ι} (t : ι) : MutexStep holder (some (.lock t)) holder
  | acquire (t : ι) : MutexStep none (some (.acquire t)) (some t)
  | tryLock {holder : Option ι} (t : ι) : MutexStep holder (some (.tryLock t)) holder
  | taken (t : ι) : MutexStep none (some (.tried t true)) (some t)
  | failed {holder : Option ι} (t : ι) : MutexStep holder (some (.tried t false)) holder
  | unlock (t : ι) : MutexStep (some t) (some (.unlock t)) none

/-- A mutex: `lock` returns, and `tryLock` succeeds, only when nobody holds it. -/
def mutex (ι : Type*) : Lts (Option ι) (MutexEvent ι) where
  init holder := holder = none
  step := MutexStep

section

variable {ι σ θ : Type*} {p : θ → Bool}

/-- The thread that has it by `p` is `holder`. -/
def Holder (p : θ → Bool) (f : ι → θ) : Option ι → Prop
  | none => Nobody p f
  | some t => Only p f t

/-- What a step of a lock is to a mutex, where `p` says of a thread that it has the lock. -/
inductive LockStep (p : θ → Bool) (f f' : ι → θ) : Option (MutexEvent ι) → Prop where
  | lock (t : ι) (same : ∀ i, p (f' i) = p (f i)) : LockStep p f f' (some (.lock t))
  | acquire (t : ι) (free : Nobody p f) (taken : Only p f' t) : LockStep p f f' (some (.acquire t))
  | tryLock (t : ι) (same : ∀ i, p (f' i) = p (f i)) : LockStep p f f' (some (.tryLock t))
  | taken (t : ι) (free : Nobody p f) (taken : Only p f' t) : LockStep p f f' (some (.tried t true))
  | failed (t : ι) (same : ∀ i, p (f' i) = p (f i)) : LockStep p f f' (some (.tried t false))
  | unlock (t : ι) (held : Only p f t) (free : Nobody p f') : LockStep p f f' (some (.unlock t))
  | silent (same : ∀ i, p (f' i) = p (f i)) : LockStep p f f' none

theorem Holder.congr {f f' : ι → θ} {holder : Option ι} (h : Holder p f holder) (hp : ∀ i, p (f' i) = p (f i)) :
    Holder p f' holder := by
  cases holder with
  | none => exact Nobody.congr h hp
  | some t => exact Only.congr h hp

theorem Holder.free {f : ι → θ} {holder : Option ι} (h : Holder p f holder) (hfree : Nobody p f) : holder = none := by
  cases holder with
  | none => rfl
  | some t => exact (hfree.not h.holder).elim

theorem Holder.held {f : ι → θ} {holder : Option ι} {t : ι} (h : Holder p f holder) (hheld : Only p f t) :
    holder = some t := by
  cases holder with
  | none => exact (Nobody.not h hheld.holder).elim
  | some u => exact congrArg some (hheld.eq h.holder)

/-- A step of a lock, on the mutex. -/
theorem Holder.step {f f' : ι → θ} {holder : Option ι} {l : Option (MutexEvent ι)} (h : Holder p f holder)
    (hstep : LockStep p f f' l) :
    (l = none ∧ Holder p f' holder) ∨ ∃ holder', MutexStep holder l holder' ∧ Holder p f' holder' := by
  cases hstep with
  | lock t same => exact .inr ⟨holder, .lock t, h.congr same⟩
  | tryLock t same => exact .inr ⟨holder, .tryLock t, h.congr same⟩
  | failed t same => exact .inr ⟨holder, .failed t, h.congr same⟩
  | silent same => exact .inl ⟨rfl, h.congr same⟩
  | acquire t free taken =>
      obtain rfl := h.free free
      exact .inr ⟨some t, .acquire t, taken⟩
  | taken t free taken =>
      obtain rfl := h.free free
      exact .inr ⟨some t, .taken t, taken⟩
  | unlock t held free =>
      obtain rfl := h.held held
      exact .inr ⟨none, .unlock t, free⟩

/-- **The rule for locks.** -/
theorem mutex_refines {L : Lts σ (MutexEvent ι)} (f : σ → ι → θ) (I : σ → Prop)
    (hinit : ∀ s, L.init s → I s ∧ Nobody p (f s))
    (hstep : ∀ s l s', I s → L.step s l s' → I s' ∧ LockStep p (f s) (f s') l) : L.Refines (mutex ι) := by
  refine ⟨fun s holder => I s ∧ Holder p (f s) holder, ?_, ?_⟩
  · intro s hs
    exact ⟨none, rfl, hinit s hs⟩
  · rintro s holder l s' ⟨hI, hholds⟩ hs
    obtain ⟨hI', hlock⟩ := hstep s l s' hI hs
    rcases hholds.step hlock with ⟨hl, hholds'⟩ | ⟨holder', hmutex, hholds'⟩
    · exact .inl ⟨hl, hI', hholds'⟩
    · exact .inr ⟨holder', hmutex, hI', hholds'⟩

end

/-! ## Objects -/

/-- What the operations of an object do to its state `σ`: an operation starts at `start a`, and each access reads
    and writes and goes on, or ends with a result. An access can be undefined. -/
structure Object (σ α ρ : Type) where
  Pc : Type
  start : α → Pc
  access : Pc → σ → Option (σ × (Pc ⊕ ρ))

namespace Object

variable {σ α ρ ι : Type} {o : Object σ α ρ}

/-- Operation `a`, begun in state `s`, is at `p`, and the state `s'`. -/
inductive Partial (o : Object σ α ρ) (a : α) (s : σ) : σ → o.Pc → Prop where
  | start : Partial o a s s (o.start a)
  | next {s' s'' : σ} {p p' : o.Pc} (run : Partial o a s s' p) (access : o.access p s' = some (s'', .inl p')) :
      Partial o a s s'' p'

/-- Operation `a` as one step. -/
def Effect (o : Object σ α ρ) (a : α) (s s' : σ) (r : ρ) : Prop :=
  ∃ s₁ p, o.Partial a s s₁ p ∧ o.access p s₁ = some (s', .inr r)

/-- No access is undefined in an operation that runs alone. -/
def Defined (o : Object σ α ρ) : Prop := ∀ a s s' p, o.Partial a s s' p → (o.access p s').isSome = true

/-- What an observer sees: an operation is called, or returns. -/
inductive Event (ι α ρ : Type) where
  | call (t : ι) (a : α)
  | returns (t : ι) (r : ρ)

/-! ## The atomic object -/

/-- A thread with an operation that has not taken effect, or has. -/
inductive Phase (α ρ : Type) where
  | idle
  | called (a : α)
  | done (r : ρ)

inductive AtomicStep [DecidableEq ι] (o : Object σ α ρ) :
    σ × (ι → Phase α ρ) → Option (Event ι α ρ) → σ × (ι → Phase α ρ) → Prop where
  | call {s : σ} {f : ι → Phase α ρ} (t : ι) (a : α) (idle : f t = .idle) :
      AtomicStep o (s, f) (some (.call t a)) (s, Function.update f t (.called a))
  | effect {s s' : σ} {f : ι → Phase α ρ} (t : ι) (a : α) (r : ρ) (called : f t = .called a)
      (effect : o.Effect a s s' r) : AtomicStep o (s, f) none (s', Function.update f t (.done r))
  | returns {s : σ} {f : ι → Phase α ρ} (t : ι) (r : ρ) (done : f t = .done r) :
      AtomicStep o (s, f) (some (.returns t r)) (s, Function.update f t .idle)

/-- Threads whose operations take effect at some moment between call and return. -/
def atomic (ι : Type) [DecidableEq ι] (o : Object σ α ρ) (s₀ : σ) : Lts (σ × (ι → Phase α ρ)) (Event ι α ρ) where
  init p := p = (s₀, fun _ => .idle)
  step := o.AtomicStep

/-! ## Sections -/

/-- Where a thread is with its operation. -/
inductive Place (o : Object σ α ρ) where
  | idle
  /-- About to call `lock`. -/
  | lock (a : α)
  /-- In `lock`. -/
  | locking (a : α)
  /-- Inside the section. -/
  | inside (a : α) (p : o.Pc)
  /-- About to call `unlock`. -/
  | unlock (r : ρ)
  | done (r : ρ)

inductive SectionStep [DecidableEq ι] (o : Object σ α ρ) :
    σ × (ι → o.Place) → Option (MutexEvent ι ⊕ Event ι α ρ) → σ × (ι → o.Place) → Prop where
  | call {s : σ} {f : ι → o.Place} (t : ι) (a : α) (idle : f t = .idle) :
      SectionStep o (s, f) (some (.inr (.call t a))) (s, Function.update f t (.lock a))
  | lock {s : σ} {f : ι → o.Place} (t : ι) (a : α) (lock : f t = .lock a) :
      SectionStep o (s, f) (some (.inl (.lock t))) (s, Function.update f t (.locking a))
  | acquire {s : σ} {f : ι → o.Place} (t : ι) (a : α) (locking : f t = .locking a) :
      SectionStep o (s, f) (some (.inl (.acquire t))) (s, Function.update f t (.inside a (o.start a)))
  | access {s s' : σ} {f : ι → o.Place} (t : ι) (a : α) (p p' : o.Pc) (inside : f t = .inside a p)
      (access : o.access p s = some (s', .inl p')) :
      SectionStep o (s, f) none (s', Function.update f t (.inside a p'))
  | finish {s s' : σ} {f : ι → o.Place} (t : ι) (a : α) (p : o.Pc) (r : ρ) (inside : f t = .inside a p)
      (access : o.access p s = some (s', .inr r)) : SectionStep o (s, f) none (s', Function.update f t (.unlock r))
  | unlock {s : σ} {f : ι → o.Place} (t : ι) (r : ρ) (unlock : f t = .unlock r) :
      SectionStep o (s, f) (some (.inl (.unlock t))) (s, Function.update f t (.done r))
  | returns {s : σ} {f : ι → o.Place} (t : ι) (r : ρ) (done : f t = .done r) :
      SectionStep o (s, f) (some (.inr (.returns t r))) (s, Function.update f t .idle)

/-- Threads that lock and unlock a mutex around each of their operations. -/
def sections (ι : Type) [DecidableEq ι] (o : Object σ α ρ) (s₀ : σ) :
    Lts (σ × (ι → o.Place)) (MutexEvent ι ⊕ Event ι α ρ) where
  init p := p = (s₀, fun _ => .idle)
  step := o.SectionStep

/-- The thread has the mutex. -/
def Place.holds : o.Place → Bool
  | .inside _ _ => true
  | .unlock _ => true
  | .idle => false
  | .lock _ => false
  | .locking _ => false
  | .done _ => false

/-- What the thread looks like where its operation is one step, the state `s` at first and `s'` by now. -/
inductive Place.Seen (s s' : σ) : o.Place → Phase α ρ → Prop where
  | idle : Seen s s' .idle .idle
  | lock (a : α) : Seen s s' (.lock a) (.called a)
  | locking (a : α) : Seen s s' (.locking a) (.called a)
  | inside (a : α) (p : o.Pc) (run : o.Partial a s s' p) : Seen s s' (.inside a p) (.called a)
  | unlock (r : ρ) (same : s = s') : Seen s s' (.unlock r) (.done r)
  | done (r : ρ) : Seen s s' (.done r) (.done r)

/-- The threads inside their sections, and the state with and without what the one inside has done so far. -/
structure Sections (holder : Option ι) (f : ι → o.Place) (g : ι → Phase α ρ) (s s' : σ) : Prop where
  holds : ∀ t, (f t).holds = true ↔ holder = some t
  seen : ∀ t, (f t).Seen s s' (g t)
  free : holder = none → s = s'

section

variable {holder : Option ι} {f : ι → o.Place} {g : ι → Phase α ρ} {s s' : σ} {t : ι}

/-- A thread outside looks the same, whatever the state. -/
theorem Place.Seen.outside {x : o.Place} {y : Phase α ρ} (h : x.Seen s s' y) (hx : x.holds = false) {s₁ s₁' : σ} :
    x.Seen s₁ s₁' y := by
  cases h with
  | idle => exact .idle
  | lock a => exact .lock a
  | locking a => exact .locking a
  | inside a p run => cases hx
  | unlock r same => cases hx
  | done r => exact .done r

variable [DecidableEq ι]

/-- Thread `t` goes on; whoever else is inside sees no difference. -/
theorem Sections.step (h : Sections holder f g s s') {x : o.Place} {y : Phase α ρ} {holder' : Option ι} {s₁ s₁' : σ}
    (hholds : x.holds = true ↔ holder' = some t)
    (hothers : ∀ u, u ≠ t → (holder' = some u ↔ holder = some u))
    (hseen : x.Seen s₁ s₁' y) (hfree : holder' = none → s₁ = s₁')
    (hsame : (∀ u, u ≠ t → holder ≠ some u) ∨ s₁ = s ∧ s₁' = s') :
    Sections holder' (Function.update f t x) (Function.update g t y) s₁ s₁' := by
  refine ⟨?_, ?_, hfree⟩
  · intro u
    by_cases hu : u = t
    · subst hu
      rwa [Function.update_self]
    · rw [Function.update_of_ne hu, h.holds u, hothers u hu]
  · intro u
    by_cases hu : u = t
    · subst hu
      rwa [Function.update_self, Function.update_self]
    · rw [Function.update_of_ne hu, Function.update_of_ne hu]
      rcases hsame with hnobody | ⟨rfl, rfl⟩
      · exact (h.seen u).outside (Bool.eq_false_iff.mpr (mt (h.holds u).mp (hnobody u hu)))
      · exact h.seen u

/-- Thread `t` goes on outside, or inside. -/
theorem Sections.move (h : Sections holder f g s s') {x : o.Place} {y : Phase α ρ} (hholds : x.holds = (f t).holds)
    (hseen : x.Seen s s' y) : Sections holder (Function.update f t x) (Function.update g t y) s s' :=
  h.step (by rw [hholds, h.holds t]) (fun _ _ => Iff.rfl) hseen h.free (.inr ⟨rfl, rfl⟩)

omit [DecidableEq ι] in
/-- The holder is alone. -/
theorem others_of_holder (ht : holder = some t) : ∀ u, u ≠ t → holder ≠ some u := by
  intro u hu hholder
  rw [ht] at hholder
  exact hu (Option.some.inj hholder).symm

omit [DecidableEq ι] in
theorem Sections.holder_of (h : Sections holder f g s s') {x : o.Place} (hf : f t = x) (hx : x.holds = true) :
    holder = some t := by
  rw [← hf] at hx
  exact (h.holds t).mp hx

omit [DecidableEq ι] in
theorem Sections.seen_of (h : Sections holder f g s s') {x : o.Place} (ht : f t = x) : ∃ y, g t = y ∧ x.Seen s s' y :=
  ⟨g t, rfl, ht ▸ h.seen t⟩

omit [DecidableEq ι] in
theorem Sections.idle (h : Sections holder f g s s') (ht : f t = .idle) : g t = .idle := by
  obtain ⟨y, hg, hseen⟩ := h.seen_of ht
  cases hseen
  exact hg

omit [DecidableEq ι] in
theorem Sections.done (h : Sections holder f g s s') {r : ρ} (ht : f t = .done r) : g t = .done r := by
  obtain ⟨y, hg, hseen⟩ := h.seen_of ht
  cases hseen
  exact hg

omit [DecidableEq ι] in
theorem Sections.inside (h : Sections holder f g s s') {a : α} {p : o.Pc} (ht : f t = .inside a p) :
    g t = .called a ∧ o.Partial a s s' p := by
  obtain ⟨y, hg, hseen⟩ := h.seen_of ht
  cases hseen with
  | inside _ _ run => exact ⟨hg, run⟩

/-- Thread `t` is in `lock`. -/
theorem Sections.lock (h : Sections holder f g s s') {a : α} (ht : f t = .lock a) :
    Sections holder (Function.update f t (.locking a)) g s s' := by
  obtain ⟨y, hg, hseen⟩ := h.seen_of ht
  cases hseen
  have hnext := h.move (x := .locking a) (by rw [ht]; rfl) (.locking a)
  rwa [← hg, Function.update_eq_self] at hnext

/-- **Thread `t` enters its section.** -/
theorem Sections.acquire (h : Sections none f g s s') {a : α} (ht : f t = .locking a) :
    Sections (some t) (Function.update f t (.inside a (o.start a))) g s s' := by
  obtain ⟨y, hg, hseen⟩ := h.seen_of ht
  cases hseen
  have hsame := h.free rfl
  subst hsame
  have hnext : Sections (some t) (Function.update f t (.inside a (o.start a))) (Function.update g t (.called a)) s s := by
    refine h.step (iff_of_true rfl rfl) ?_ (.inside a _ .start) (fun _ => rfl) (.inr ⟨rfl, rfl⟩)
    intro u hu
    exact iff_of_false (fun heq => hu (Option.some.inj heq).symm) nofun
  rwa [← hg, Function.update_eq_self] at hnext

/-- **Thread `t` leaves its section.** -/
theorem Sections.unlock (h : Sections (some t) f g s s') {r : ρ} (ht : f t = .unlock r) :
    Sections none (Function.update f t (.done r)) g s s' := by
  obtain ⟨y, hg, hseen⟩ := h.seen_of ht
  cases hseen with
  | unlock _ same =>
      have hnext : Sections none (Function.update f t (.done r)) (Function.update g t (.done r)) s s' := by
        refine h.step (iff_of_false Bool.false_ne_true nofun) ?_ (.done r) (fun _ => same) (.inr ⟨rfl, rfl⟩)
        intro u hu
        exact iff_of_false nofun fun heq => hu (Option.some.inj heq).symm
      rwa [← hg, Function.update_eq_self] at hnext

/-- **The thread inside does one more access.** -/
theorem Sections.access (h : Sections holder f g s s') {a : α} {p p' : o.Pc} {s'' : σ} (ht : f t = .inside a p)
    (haccess : o.access p s' = some (s'', .inl p')) :
    Sections holder (Function.update f t (.inside a p')) g s s'' := by
  obtain ⟨hg, hrun⟩ := h.inside ht
  have hholder := h.holder_of ht rfl
  have hnext : Sections holder (Function.update f t (.inside a p')) (Function.update g t (.called a)) s s'' := by
    refine h.step (iff_of_true rfl hholder) (fun _ _ => Iff.rfl) (.inside a p' (hrun.next haccess)) ?_
      (.inl (others_of_holder hholder))
    rw [hholder]
    exact nofun
  rwa [← hg, Function.update_eq_self] at hnext

/-- **The thread inside ends its operation**, in state `s''`. -/
theorem Sections.finish (h : Sections holder f g s s') {a : α} {p : o.Pc} (ht : f t = .inside a p) (s'' : σ) (r : ρ) :
    Sections holder (Function.update f t (.unlock r)) (Function.update g t (.done r)) s'' s'' := by
  have hholder := h.holder_of ht rfl
  exact h.step (iff_of_true rfl hholder) (fun _ _ => Iff.rfl) (.unlock r rfl) (fun _ => rfl) (.inl (others_of_holder hholder))

end

/-- **Sections are atomic.** -/
theorem sections_simulation [DecidableEq ι] (o : Object σ α ρ) (s₀ : σ) :
    ((o.sections ι s₀).sync (mutex ι)).Simulation (o.atomic ι s₀) fun p q => Sections p.2 p.1.2 q.2 q.1 p.1.1 := by
  refine ⟨?_, ?_⟩
  · rintro ⟨⟨s, f⟩, holder⟩ ⟨hinit, hfree⟩
    cases hinit
    cases hfree
    exact ⟨_, rfl, ⟨fun _ => iff_of_false Bool.false_ne_true nofun, fun _ => .idle, fun _ => rfl⟩⟩
  · rintro ⟨⟨s', f⟩, holder⟩ ⟨s, g⟩ e ⟨⟨s'', f'⟩, holder'⟩ h hstep
    replace h : Sections holder f g s s' := h
    cases hstep with
    | component step => cases step
    | client step =>
        cases step with
        | access t a p p' inside access => exact .inl ⟨rfl, h.access inside access⟩
        | finish t a p r inside access =>
            obtain ⟨hg, hrun⟩ := h.inside inside
            exact .inr ⟨_, .effect t a r hg ⟨s', p, hrun, access⟩, h.finish inside _ r⟩
    | visible step =>
        cases step with
        | call t a idle => exact .inr ⟨_, .call t a (h.idle idle), h.move (by rw [idle]; rfl) (.lock a)⟩
        | returns t r done => exact .inr ⟨_, .returns t r (h.done done), h.move (by rw [done]; rfl) .idle⟩
    | both client component =>
        refine .inl ⟨rfl, ?_⟩
        cases client with
        | lock t a lock =>
            cases component
            exact h.lock lock
        | acquire t a locking =>
            cases component
            exact h.acquire locking
        | unlock t r unlock =>
            cases component
            exact h.unlock unlock

section

variable [DecidableEq ι] {τ : Type*} {M : Lts τ (MutexEvent ι)}

/-- **Under any lock that refines `mutex`.** -/
theorem sections_refines (o : Object σ α ρ) (s₀ : σ) (hM : M.Refines (mutex ι)) :
    ((o.sections ι s₀).sync M).Refines (o.atomic ι s₀) :=
  (hM.sync _).trans ⟨_, o.sections_simulation s₀⟩

/-- **What is defined for one thread alone is defined in sections.** -/
theorem sections_defined {s₀ : σ} (ho : o.Defined) (hM : M.Refines (mutex ι)) {c : (σ × (ι → o.Place)) × τ}
    (hc : ((o.sections ι s₀).sync M).system.Reachable c) {t : ι} {a : α} {p : o.Pc} (ht : c.1.2 t = .inside a p) :
    (o.access p c.1.1).isSome = true := by
  obtain ⟨R, hR⟩ := hM
  obtain ⟨⟨c', holder⟩, hreach, hsame, -⟩ := (hR.sync (o.sections ι s₀)).reachable hc
  obtain ⟨⟨s, g⟩, -, hsections⟩ := (o.sections_simulation s₀).reachable hreach
  dsimp only at hsame
  subst hsame
  exact ho a s _ p (hsections.inside ht).2

end

end Object
end Transition
end Tpcc
