import Tpcc.Locks.Sections

/-!
# `Intro.Guarded` — an object whose uses lock

`Guarded<T>`: `guarded->method()` makes a `GuardedReference`, whose `std::lock_guard` locks `mutex_`; the reference
gives the object's address, the method is called on it, and the reference is destroyed where the full expression
ends. An expression can use `->` more than once, as `guarded->push(guarded->size())` does. It then makes a second
reference while it has the first.

The object is any `Object`; `twist::stdlike::mutex` is any system that refines `mutex`.

## Contents
- **The uses.** `Uses`, `Place`, `Step`: an expression, one reference after the other.
- **What an expression should be.** `expression`: its calls, one after the other, as one operation.
- **Results.** `guarded_atomic`, and `guarded_blocks`: an expression that uses `->` twice blocks itself and all others.
-/

namespace Tpcc
namespace Intro

open Transition

namespace Guarded

variable {σ α ρ ι : Type}

/-- The calls of a full expression, from the first on. -/
abbrev Uses (α : Type) : Type := α × List α

/-- Where a thread is in a full expression; `results` are those of the calls so far, and each has a reference that
    lives. -/
inductive Place (o : Object σ α ρ) where
  | idle
  /-- `operator->`: about to construct a `GuardedReference`. -/
  | construct (results : List ρ) (a : α) (rest : List α)
  /-- `std::lock_guard`: in `mutex_.lock()`. -/
  | locking (results : List ρ) (a : α) (rest : List α)
  /-- In the method called on `object_`. -/
  | method (results : List ρ) (p : o.Pc) (rest : List α)
  /-- The end of the expression: so many references are still to be destroyed. -/
  | destroy (references : Nat) (results : List ρ)

variable [DecidableEq ι]

/-- The steps of the threads. -/
inductive Step (o : Object σ α ρ) :
    σ × (ι → Place o) → Option (MutexEvent ι ⊕ Object.Event ι (Uses α) (List ρ)) → σ × (ι → Place o) → Prop where
  | call {s : σ} {x : ι → Place o} (t : ι) (a : α) (rest : List α) (idle : x t = .idle) :
      Step o (s, x) (some (.inr (.call t (a, rest)))) (s, Function.update x t (.construct [] a rest))
  | lock {s : σ} {x : ι → Place o} (t : ι) (results : List ρ) (a : α) (rest : List α)
      (construct : x t = .construct results a rest) :
      Step o (s, x) (some (.inl (.lock t))) (s, Function.update x t (.locking results a rest))
  | acquire {s : σ} {x : ι → Place o} (t : ι) (results : List ρ) (a : α) (rest : List α)
      (locking : x t = .locking results a rest) :
      Step o (s, x) (some (.inl (.acquire t))) (s, Function.update x t (.method results (o.start a) rest))
  | access {s s' : σ} {x : ι → Place o} (t : ι) (results : List ρ) (p p' : o.Pc) (rest : List α)
      (method : x t = .method results p rest) (access : o.access p s = some (s', .inl p')) :
      Step o (s, x) none (s', Function.update x t (.method results p' rest))
  | use {s s' : σ} {x : ι → Place o} (t : ι) (results : List ρ) (p : o.Pc) (r : ρ) (a : α) (rest : List α)
      (method : x t = .method results p (a :: rest)) (access : o.access p s = some (s', .inr r)) :
      Step o (s, x) none (s', Function.update x t (.construct (results ++ [r]) a rest))
  | finish {s s' : σ} {x : ι → Place o} (t : ι) (results : List ρ) (p : o.Pc) (r : ρ)
      (method : x t = .method results p []) (access : o.access p s = some (s', .inr r)) :
      Step o (s, x) none (s', Function.update x t (.destroy (results.length + 1) (results ++ [r])))
  | unlock {s : σ} {x : ι → Place o} (t : ι) (references : Nat) (results : List ρ)
      (destroy : x t = .destroy (references + 1) results) :
      Step o (s, x) (some (.inl (.unlock t))) (s, Function.update x t (.destroy references results))
  | returns {s : σ} {x : ι → Place o} (t : ι) (results : List ρ) (destroy : x t = .destroy 0 results) :
      Step o (s, x) (some (.inr (.returns t results))) (s, Function.update x t .idle)

/-- Threads that use a `Guarded<T>`, `T` being `o`. -/
def uses (ι : Type) [DecidableEq ι] (o : Object σ α ρ) (s₀ : σ) :
    Lts (σ × (ι → Place o)) (MutexEvent ι ⊕ Object.Event ι (Uses α) (List ρ)) where
  init p := p = (s₀, fun _ => .idle)
  step := Step o

/-! ## An expression as one operation -/

/-- The calls of an expression, one after the other. -/
def expression (o : Object σ α ρ) : Object σ (Uses α) (List ρ) where
  Pc := List ρ × o.Pc × List α
  start u := ([], o.start u.1, u.2)
  access q s := (o.access q.2.1 s).map fun
    | (s', .inl p) => (s', .inl (q.1, p, q.2.2))
    | (s', .inr r) =>
        match q.2.2 with
        | [] => (s', .inr (q.1 ++ [r]))
        | a :: rest => (s', .inl (q.1 ++ [r], o.start a, rest))

section

omit [DecidableEq ι]

variable {o : Object σ α ρ}

theorem expression_access {s s' : σ} {results : List ρ} {p p' : o.Pc} {rest : List α}
    (h : o.access p s = some (s', .inl p')) :
    (expression o).access (results, p, rest) s = some (s', .inl (results, p', rest)) := by
  simp [expression, h]

theorem expression_use {s s' : σ} {results : List ρ} {p : o.Pc} {r : ρ} {a : α} {rest : List α}
    (h : o.access p s = some (s', .inr r)) :
    (expression o).access (results, p, a :: rest) s = some (s', .inl (results ++ [r], o.start a, rest)) := by
  simp [expression, h]

theorem expression_finish {s s' : σ} {results : List ρ} {p : o.Pc} {r : ρ} (h : o.access p s = some (s', .inr r)) :
    (expression o).access (results, p, []) s = some (s', .inr (results ++ [r])) := by
  simp [expression, h]

/-! ## One reference at a time -/

/-- Where a thread is, seen as a section around the whole expression. One with a reference that wants another is
    inside, and never gets it. -/
inductive Place.As : Place o → (expression o).Place → Prop where
  | idle : As .idle .idle
  | construct (a : α) (rest : List α) : As (.construct [] a rest) (.lock (a, rest))
  | locking (a : α) (rest : List α) : As (.locking [] a rest) (.locking (a, rest))
  | method (u : Uses α) (p : o.Pc) (rest : List α) : As (.method [] p rest) (.inside u ([], p, rest))
  | construct_again (u : Uses α) (r : ρ) (a : α) (rest : List α) :
      As (.construct [r] a rest) (.inside u ([r], o.start a, rest))
  | locking_again (u : Uses α) (r : ρ) (a : α) (rest : List α) :
      As (.locking [r] a rest) (.inside u ([r], o.start a, rest))
  | unlock (r : ρ) : As (.destroy 1 [r]) (.unlock [r])
  | done (r : ρ) : As (.destroy 0 [r]) (.done [r])

/-- The threads, seen so, and what is seen of sections where an operation is one step. -/
structure Seen (holder : Option ι) (x : ι → Place o) (f : ι → (expression o).Place)
    (g : ι → Object.Phase (Uses α) (List ρ)) (s s' : σ) : Prop where
  as : ∀ t, (x t).As (f t)
  sections : Object.Sections holder f g s s'

end

section

variable {o : Object σ α ρ} {holder : Option ι} {x : ι → Place o} {f : ι → (expression o).Place}
  {g : ι → Object.Phase (Uses α) (List ρ)} {s s' : σ} {t : ι}

omit [DecidableEq ι] in
theorem Seen.as_of (h : Seen holder x f g s s') {X : Place o} (ht : x t = X) : ∃ y, f t = y ∧ X.As y :=
  ⟨f t, rfl, ht ▸ h.as t⟩

/-- Thread `t` goes on. -/
theorem as_update (h : ∀ u, (x u).As (f u)) {X : Place o} {y : (expression o).Place} (hX : X.As y) :
    ∀ u, (Function.update x t X u).As (Function.update f t y u) := by
  intro u
  by_cases hu : u = t
  · subst hu
    rwa [Function.update_self, Function.update_self]
  · rw [Function.update_of_ne hu, Function.update_of_ne hu]
    exact h u

/-- Thread `t` goes on, and looks the same. -/
theorem Seen.silent (h : Seen holder x f g s s') {X : Place o} {y : (expression o).Place} (hy : f t = y)
    (hX : X.As y) : Seen holder (Function.update x t X) f g s s' := by
  refine ⟨?_, h.sections⟩
  have has := as_update (t := t) h.as hX
  rwa [← hy, Function.update_eq_self] at has

/-- A thread that has a reference and wants another. -/
def Place.Nested (X : Place o) : Prop :=
  ∃ results a rest, results ≠ [] ∧ (X = .construct results a rest ∨ X = .locking results a rest)

omit [DecidableEq ι] in
/-- **It has the mutex**, and no method is called. -/
theorem Seen.nested (h : Seen holder x f g s s') (ht : (x t).Nested) :
    holder = some t ∧ ∀ u results p rest, x u ≠ .method results p rest := by
  obtain ⟨results, a, rest, hne, hx⟩ := ht
  have hholder : holder = some t := by
    rcases hx with hx | hx
    all_goals
      obtain ⟨y, hf, has⟩ := h.as_of hx
      cases has
      · exact absurd rfl hne
      · exact h.sections.holder_of hf rfl
  refine ⟨hholder, ?_⟩
  intro u results' p rest' hu
  obtain ⟨y, hf, has⟩ := h.as_of hu
  cases has
  have hmine := h.sections.holder_of hf rfl
  rw [hholder] at hmine
  cases hmine
  rcases hx with hx | hx <;> cases hu.symm.trans hx

/-- **One step of the threads with the mutex**, of which an observer sees what sections show. -/
theorem Seen.step (h : Seen holder x f g s s') {e : Option (Object.Event ι (Uses α) (List ρ))} {x' : ι → Place o}
    {s₀ s'' : σ} {holder' : Option ι}
    (hstep : ((uses ι o s₀).sync (mutex ι)).step ((s', x), holder) e ((s'', x'), holder')) :
    ∃ f' g' s₁, Seen holder' x' f' g' s₁ s'' ∧
      (e = none ∧ (g', s₁) = (g, s) ∨ (expression o).AtomicStep (s, g) e (s₁, g')) := by
  cases hstep with
  | component step => cases step
  | client step =>
      cases step with
      | access t results p p' rest method access =>
          obtain ⟨y, hf, has⟩ := h.as_of method
          cases has with
          | method u =>
              exact ⟨_, g, s, ⟨as_update h.as (.method u p' rest), h.sections.access hf (expression_access access)⟩,
                .inl ⟨rfl, rfl⟩⟩
      | use t results p r a rest method access =>
          obtain ⟨y, hf, has⟩ := h.as_of method
          cases has with
          | method u =>
              exact ⟨_, g, s, ⟨as_update h.as (.construct_again u r a rest),
                h.sections.access hf (expression_use access)⟩, .inl ⟨rfl, rfl⟩⟩
      | finish t results p r method access =>
          obtain ⟨y, hf, has⟩ := h.as_of method
          cases has with
          | method u =>
              obtain ⟨hg, hrun⟩ := h.sections.inside hf
              exact ⟨_, _, s'', ⟨as_update h.as (.unlock r), h.sections.finish hf s'' [r]⟩,
                .inr (.effect t u [r] hg ⟨s', _, hrun, expression_finish access⟩)⟩
  | visible step =>
      cases step with
      | call t a rest idle =>
          obtain ⟨y, hf, has⟩ := h.as_of idle
          cases has
          exact ⟨_, _, s, ⟨as_update h.as (.construct a rest), h.sections.move (by rw [hf]; rfl) (.lock (a, rest))⟩,
            .inr (.call t (a, rest) (h.sections.idle hf))⟩
      | returns t results destroy =>
          obtain ⟨y, hf, has⟩ := h.as_of destroy
          cases has with
          | done r =>
              exact ⟨_, _, s, ⟨as_update h.as .idle, h.sections.move (by rw [hf]; rfl) .idle⟩,
                .inr (.returns t [r] (h.sections.done hf))⟩
  | both client component =>
      cases client with
      | lock t results a rest construct =>
          cases component
          obtain ⟨y, hf, has⟩ := h.as_of construct
          cases has with
          | construct => exact ⟨_, g, s, ⟨as_update h.as (.locking a rest), h.sections.lock hf⟩, .inl ⟨rfl, rfl⟩⟩
          | construct_again u r => exact ⟨f, g, s, h.silent hf (.locking_again u r a rest), .inl ⟨rfl, rfl⟩⟩
      | acquire t results a rest locking =>
          cases component
          obtain ⟨y, hf, has⟩ := h.as_of locking
          cases has with
          | locking =>
              exact ⟨_, g, s, ⟨as_update h.as (.method (a, rest) _ rest), h.sections.acquire hf⟩, .inl ⟨rfl, rfl⟩⟩
          | locking_again u r =>
              -- the thread holds the mutex it waits for
              cases h.sections.holder_of hf rfl
      | unlock t references results destroy =>
          cases component
          obtain ⟨y, hf, has⟩ := h.as_of destroy
          cases has with
          | unlock r => exact ⟨_, g, s, ⟨as_update h.as (.done r), h.sections.unlock hf⟩, .inl ⟨rfl, rfl⟩⟩

/-- **A thread with a reference that wants another stays there**, and the object stays as it is. -/
theorem Seen.blocked (h : Seen holder x f g s s') (ht : (x t).Nested) {e : Option (Object.Event ι (Uses α) (List ρ))}
    {x' : ι → Place o} {s₀ s'' : σ} {holder' : Option ι}
    (hstep : ((uses ι o s₀).sync (mutex ι)).step ((s', x), holder) e ((s'', x'), holder')) :
    (x' t).Nested ∧ s'' = s' := by
  obtain ⟨hholder, hmethod⟩ := h.nested ht
  obtain ⟨results, a, rest, hne, hx⟩ := ht
  have hother : ∀ u X, x u ≠ .construct results a rest → x u ≠ .locking results a rest →
      (Function.update x u X t).Nested := by
    intro u X hconstruct hlocking
    have hut : t ≠ u := by
      rintro rfl
      exact hx.elim hconstruct hlocking
    rw [Function.update_of_ne hut]
    exact ⟨results, a, rest, hne, hx⟩
  subst hholder
  cases hstep with
  | component step => cases step
  | client step =>
      cases step with
      | access u results' p p' rest' method access => exact (hmethod u _ _ _ method).elim
      | use u results' p r a' rest' method access => exact (hmethod u _ _ _ method).elim
      | finish u results' p r method access => exact (hmethod u _ _ _ method).elim
  | visible step =>
      cases step with
      | call u a' rest' idle => exact ⟨hother u _ (by simp [idle]) (by simp [idle]), rfl⟩
      | returns u results' destroy => exact ⟨hother u _ (by simp [destroy]) (by simp [destroy]), rfl⟩
  | both client component =>
      cases client with
      | acquire u results' a' rest' locking => cases component
      | unlock u references results' destroy =>
          cases component
          rcases hx with hx | hx <;> cases destroy.symm.trans hx
      | lock u results' a' rest' construct =>
          cases component
          by_cases hu : u = t
          · subst hu
            rw [Function.update_self]
            rcases hx with hx | hx
            · rw [construct] at hx
              cases hx
              exact ⟨⟨results, a, rest, hne, .inr rfl⟩, rfl⟩
            · cases construct.symm.trans hx
          · rw [Function.update_of_ne (Ne.symm hu)]
            exact ⟨⟨results, a, rest, hne, hx⟩, rfl⟩

end

/-- The threads with the mutex, as threads whose expressions are one step. -/
theorem uses_simulation (o : Object σ α ρ) (s₀ : σ) :
    ((uses ι o s₀).sync (mutex ι)).Simulation ((expression o).atomic ι s₀)
      fun c q => ∃ f, Seen c.2 c.1.2 f q.2 q.1 c.1.1 := by
  refine ⟨?_, ?_⟩
  · rintro ⟨⟨s, x⟩, holder⟩ ⟨hinit, hfree⟩
    cases hinit
    cases hfree
    refine ⟨(s₀, fun _ => .idle), rfl, fun _ => .idle, fun _ => .idle, ?_⟩
    exact ⟨fun _ => iff_of_false Bool.false_ne_true nofun, fun _ => .idle, fun _ => rfl⟩
  · rintro ⟨⟨s', x⟩, holder⟩ ⟨s, g⟩ e ⟨⟨s'', x'⟩, holder'⟩ ⟨f, h⟩ hstep
    obtain ⟨f', g', s₁, h', hseen⟩ := h.step hstep
    rcases hseen with ⟨he, hsame⟩ | hatomic
    · cases hsame
      exact .inl ⟨he, f', h'⟩
    · exact .inr ⟨(s₁, g'), hatomic, f', h'⟩

section

variable {o : Object σ α ρ} {s₀ : σ} {c c' : (σ × (ι → Place o)) × Option ι}

/-- Something can be seen of the threads. -/
def Shown (c : (σ × (ι → Place o)) × Option ι) : Prop := ∃ f g s, Seen c.2 c.1.2 f g s c.1.1

/-- **The expressions that return in a run.** -/
theorem Shown.run {seen : List (Object.Event ι (Uses α) (List ρ))} (hc : Shown c)
    (hrun : ((uses ι o s₀).sync (mutex ι)).Run c seen c') :
    Shown c' ∧ ∀ t results, .returns t results ∈ seen → results.length = 1 := by
  induction hrun with
  | refl => exact ⟨hc, nofun⟩
  | tail run step ih =>
      obtain ⟨⟨f, g, s, h⟩, hold⟩ := ih
      obtain ⟨f', g', s₁, h', -⟩ := h.step step
      refine ⟨⟨f', g', s₁, h'⟩, ?_⟩
      intro t results hmem
      rcases List.mem_append.mp hmem with hmem | hmem
      · exact hold t results hmem
      · obtain rfl := Option.mem_toList.mp hmem
        cases step with
        | visible step =>
            cases step with
            | returns t results destroy =>
                obtain ⟨y, hf, has⟩ := h.as_of destroy
                cases has
                rfl

/-- **A thread that wants another reference, in a run.** -/
theorem Shown.blocked {t : ι} (hc : Shown c) (ht : (c.1.2 t).Nested)
    (hsteps : ((uses ι o s₀).sync (mutex ι)).system.Steps c c') : Shown c' ∧ (c'.1.2 t).Nested ∧ c'.1.1 = c.1.1 := by
  induction hsteps with
  | refl => exact ⟨hc, ht, rfl⟩
  | tail _ hstep ih =>
      obtain ⟨⟨f, g, s, h⟩, hnested, hobject⟩ := ih
      obtain ⟨e, hstep⟩ := hstep
      obtain ⟨f', g', s₁, h', -⟩ := h.step hstep
      obtain ⟨hnested', hobject'⟩ := h.blocked hnested hstep
      exact ⟨⟨f', g', s₁, h'⟩, hnested', hobject'.trans hobject⟩

end

/-- **An expression is atomic, whatever else the threads do, and one that returns has used `->` once.** -/
theorem guarded_atomic (ι : Type) [DecidableEq ι] {τ : Type} {M : Lts τ (MutexEvent ι)} (hM : M.Refines (mutex ι))
    (o : Object σ α ρ) (s₀ : σ) :
    ((uses ι o s₀).sync M).Refines ((expression o).atomic ι s₀) ∧
    ∀ (seen : List (Object.Event ι (Uses α) (List ρ))), ((uses ι o s₀).sync M).Trace seen →
      ∀ (t : ι) (results : List ρ), .returns t results ∈ seen → results.length = 1 := by
  have hsync := hM.sync (uses ι o s₀)
  refine ⟨hsync.trans ⟨_, uses_simulation o s₀⟩, ?_⟩
  intro seen hseen
  obtain ⟨c, c', hinit, hrun⟩ := hsync.trace hseen
  obtain ⟨q, -, f, h⟩ := (uses_simulation o s₀).init c hinit
  exact (Shown.run ⟨f, q.2, q.1, h⟩ hrun).2

/-- A counter, incremented by a load and a store. -/
def counter : Object Nat Unit Nat where
  Pc := Option Nat
  start _ := none
  access
    | none, n => some (n, .inl (some n))
    | some m, _ => some (m + 1, .inr (m + 1))

open Lts in
/-- Thread 1 calls `lock` while thread 0 increments the counter. -/
theorem increments : ((uses (Fin 2) counter 0).sync (Locks.Mutex.lts (Fin 2))).Trace
    [.call 0 ((), []), .call 1 ((), []), .returns 0 [1]] := by
  have start : ((uses (Fin 2) counter 0).sync (Locks.Mutex.lts (Fin 2))).Run ((0, fun _ => .idle), {}) []
    ((0, fun _ => .idle), {}) := .refl
  have called := (start.tail (SyncStep.visible (.call 0 () [] rfl))).tail (SyncStep.visible (.call 1 () [] rfl))
  have locked := (called.tail (SyncStep.both (.lock 0 [] () [] rfl) ⟨.lock 0, rfl, rfl⟩)).tail
    (SyncStep.both (.acquire 0 [] () [] rfl) ⟨.step 0, rfl, rfl⟩)
  have loaded := (locked.tail (SyncStep.client (.access 0 [] none (some 0) [] rfl rfl))).tail
    (SyncStep.both (.lock 1 [] () [] rfl) ⟨.lock 1, rfl, rfl⟩)
  have waiting := loaded.tail (SyncStep.component ⟨.step 1, rfl, rfl⟩)
  have stored := (waiting.tail (SyncStep.client (.finish 0 [] (some 0) 1 rfl rfl))).tail
    (SyncStep.both (.unlock 0 0 [1] rfl) ⟨.unlock 0, rfl, rfl⟩)
  refine ⟨_, _, ?_, stored.tail (SyncStep.visible (.returns 0 [1] rfl))⟩
  exact ⟨rfl, rfl⟩

theorem guarded_atomic_increments : ∃ seen, ((uses (Fin 2) counter 0).sync (Locks.Mutex.lts (Fin 2))).Trace seen ∧
    .returns 0 [1] ∈ seen ∧ ([1] : List Nat).length = 1 :=
  ⟨_, increments, by simp,
    (guarded_atomic (Fin 2) (Locks.Mutex.refines (Fin 2)) counter 0).2 _ increments 0 [1] (by simp)⟩

/-- **An expression that comes to use `->` again waits for ever**, with the mutex: the object stays as it is, and no
    thread calls a method of it. -/
theorem guarded_blocks (ι : Type) [DecidableEq ι] {τ : Type} {M : Lts τ (MutexEvent ι)} (hM : M.Refines (mutex ι))
    (o : Object σ α ρ) (s₀ : σ) (c c' : (σ × (ι → Place o)) × τ) (t : ι)
    (hc : ((uses ι o s₀).sync M).system.Reachable c) (hnested : (c.1.2 t).Nested)
    (hsteps : ((uses ι o s₀).sync M).system.Steps c c') :
    (c'.1.2 t).Nested ∧ c'.1.1 = c.1.1 ∧ ∀ u results p rest, c'.1.2 u ≠ .method results p rest := by
  obtain ⟨R, hR⟩ := hM
  obtain ⟨⟨_, holder⟩, hreach, rfl, hholder⟩ := (hR.sync (uses ι o s₀)).reachable hc
  obtain ⟨⟨_, holder'⟩, hsteps', rfl, -⟩ := (hR.sync (uses ι o s₀)).steps hsteps ⟨rfl, hholder⟩
  obtain ⟨q, -, f, h⟩ := (uses_simulation o s₀).reachable hreach
  obtain ⟨⟨f', g', s', h'⟩, hnested', hobject⟩ := Shown.blocked ⟨f, q.2, q.1, h⟩ hnested hsteps'
  exact ⟨hnested', hobject, (h'.nested hnested').2⟩

open Lts in
/-- Thread 0 increments the counter twice in one expression. -/
theorem guarded_blocks_twice : ∃ c, ((uses (Fin 2) counter 0).sync (Locks.Mutex.lts (Fin 2))).system.Reachable c ∧
    (c.1.2 0).Nested ∧ c.1.1 = 1 := by
  have start : ((uses (Fin 2) counter 0).sync (Locks.Mutex.lts (Fin 2))).Run ((0, fun _ => .idle), {}) []
    ((0, fun _ => .idle), {}) := .refl
  have locked := ((start.tail (SyncStep.visible (.call 0 () [()] rfl))).tail
    (SyncStep.both (.lock 0 [] () [()] rfl) ⟨.lock 0, rfl, rfl⟩)).tail
    (SyncStep.both (.acquire 0 [] () [()] rfl) ⟨.step 0, rfl, rfl⟩)
  have used := (locked.tail (SyncStep.client (.access 0 [] none (some 0) [()] rfl rfl))).tail
    (SyncStep.client (.use 0 [] (some 0) 1 () [] rfl rfl))
  have hinit : ((uses (Fin 2) counter 0).sync (Locks.Mutex.lts (Fin 2))).init ((0, fun _ => .idle), {}) := ⟨rfl, rfl⟩
  have hreach := (System.Reachable.of_init hinit).steps used.steps
  obtain ⟨hnested, hsame, -⟩ := guarded_blocks (Fin 2) (Locks.Mutex.refines (Fin 2)) counter 0 _ _ 0 hreach
    ⟨[1], (), [], by simp, .inl rfl⟩
    (System.Steps.refl.tail ⟨none, SyncStep.both (.lock 0 [1] () [] rfl) ⟨.lock 0, rfl, rfl⟩⟩)
  exact ⟨_, hreach.step ⟨none, SyncStep.both (.lock 0 [1] () [] rfl) ⟨.lock 0, rfl, rfl⟩⟩, hnested, hsame⟩

end Guarded
end Intro
end Tpcc
