import Tpcc.Transition.System

/-!
# `Transition.Refinement` — what an observer can tell apart

A labelled system shows an observer some of its steps and hides the others. `L.Refines M`: whatever is seen of a run
of `L` can be seen of a run of `M`. It is proved by a simulation, a relation of their states that steps keep.

A client and a component take some steps together. A component that refines another can take its place
(`Refines.sync`): what has been proved of a client over the simpler component holds over the other. Nothing here
names a program.
-/

namespace Tpcc
namespace Transition

/-- A system whose steps are seen as `some l`, or not at all. -/
structure Lts (σ ℓ : Type*) where
  init : σ → Prop
  step : σ → Option ℓ → σ → Prop

namespace Lts

variable {σ τ υ κ ℓ ε : Type*} {L : Lts σ ℓ} {M : Lts τ ℓ} {N : Lts υ ℓ}

/-- The system, for one who sees nothing. -/
def system (L : Lts σ ℓ) : System σ where
  init := L.init
  step s s' := ∃ l, L.step s l s'

/-- The system that starts in `s₀` and steps by `next`, whoever acts; action `a` is seen as `label s a`. -/
def ofNext {α : Type*} (s₀ : σ) (next : σ → α → Option σ) (label : σ → α → Option ℓ) : Lts σ ℓ where
  init s := s = s₀
  step s l s' := ∃ a, next s a = some s' ∧ l = label s a

/-- The runs all of whose steps meet `P`. -/
def restrict (L : Lts σ ℓ) (P : σ → σ → Prop) : Lts σ ℓ where
  init := L.init
  step s l s' := P s s' ∧ L.step s l s'

/-! ## Runs -/

/-- A run, with what is seen of it. -/
inductive Run (L : Lts σ ℓ) : σ → List ℓ → σ → Prop where
  | refl {s : σ} : Run L s [] s
  | tail {s s' s'' : σ} {seen : List ℓ} {l : Option ℓ} (run : Run L s seen s') (step : L.step s' l s'') :
      Run L s (seen ++ l.toList) s''

theorem Run.silent {s s' s'' : σ} {seen : List ℓ} (h : L.Run s seen s') (hstep : L.step s' none s'') :
    L.Run s seen s'' := by
  have htail := h.tail hstep
  rwa [Option.toList_none, List.append_nil] at htail

/-- Something that can be seen of a run from the start. -/
def Trace (L : Lts σ ℓ) (seen : List ℓ) : Prop := ∃ s s', L.init s ∧ L.Run s seen s'

theorem Run.steps {s s' : σ} {seen : List ℓ} (h : L.Run s seen s') : L.system.Steps s s' := by
  induction h with
  | refl => exact System.Steps.refl
  | tail _ hstep ih => exact ih.tail ⟨_, hstep⟩

/-- **The invariant rule.** -/
theorem Run.invariant {P : σ → Prop} (hstep : ∀ s l s', P s → L.step s l s' → P s') {s s' : σ} {seen : List ℓ}
    (h : L.Run s seen s') (hs : P s) : P s' := by
  induction h with
  | refl => exact hs
  | tail _ hstep' ih => exact hstep _ _ _ ih hstep'

/-! ## Simulations -/

/-- Each step of `L` is a step of `M` that is seen as the same, or, if it is not seen, none. -/
structure Simulation (L : Lts σ ℓ) (M : Lts τ ℓ) (R : σ → τ → Prop) : Prop where
  init : ∀ s, L.init s → ∃ t, M.init t ∧ R s t
  step : ∀ s t l s', R s t → L.step s l s' → (l = none ∧ R s' t) ∨ ∃ t', M.step t l t' ∧ R s' t'

theorem Simulation.run {R : σ → τ → Prop} (h : L.Simulation M R) {s s' : σ} {t : τ} {seen : List ℓ}
    (hrun : L.Run s seen s') (ht : R s t) : ∃ t', M.Run t seen t' ∧ R s' t' := by
  induction hrun with
  | refl => exact ⟨t, .refl, ht⟩
  | tail _ hstep ih =>
      obtain ⟨t₁, hrun, ht₁⟩ := ih
      rcases h.step _ _ _ _ ht₁ hstep with ⟨rfl, ht'⟩ | ⟨t', hstep', ht'⟩
      · rw [Option.toList_none, List.append_nil]
        exact ⟨t₁, hrun, ht'⟩
      · exact ⟨t', hrun.tail hstep', ht'⟩

/-- Every reachable state stands for one of `M`. -/
theorem Simulation.reachable {R : σ → τ → Prop} (h : L.Simulation M R) {s : σ} (hs : L.system.Reachable s) :
    ∃ t, M.system.Reachable t ∧ R s t := by
  refine hs.invariant (P := fun s => ∃ t, M.system.Reachable t ∧ R s t) ?_ ?_
  · intro s₀ h₀
    obtain ⟨t, ht, hst⟩ := h.init s₀ h₀
    exact ⟨t, .of_init ht, hst⟩
  · rintro s₁ s₂ ⟨t, ht, hst⟩ ⟨l, hstep⟩
    rcases h.step s₁ t l s₂ hst hstep with ⟨-, hst'⟩ | ⟨t', hstep', hst'⟩
    · exact ⟨t, ht, hst'⟩
    · exact ⟨t', ht.step ⟨l, hstep'⟩, hst'⟩

theorem Simulation.steps {R : σ → τ → Prop} (h : L.Simulation M R) {s s' : σ} {t : τ} (hsteps : L.system.Steps s s')
    (ht : R s t) : ∃ t', M.system.Steps t t' ∧ R s' t' := by
  induction hsteps with
  | refl => exact ⟨t, System.Steps.refl, ht⟩
  | tail _ hstep ih =>
      obtain ⟨t₁, hsteps, ht₁⟩ := ih
      obtain ⟨l, hstep⟩ := hstep
      rcases h.step _ _ _ _ ht₁ hstep with ⟨-, ht'⟩ | ⟨t', hstep', ht'⟩
      · exact ⟨t₁, hsteps, ht'⟩
      · exact ⟨t', hsteps.tail ⟨l, hstep'⟩, ht'⟩

/-- An observer of `L` may take it for `M`. -/
def Refines (L : Lts σ ℓ) (M : Lts τ ℓ) : Prop := ∃ R, L.Simulation M R

theorem Refines.trace (h : L.Refines M) {seen : List ℓ} (hseen : L.Trace seen) : M.Trace seen := by
  obtain ⟨R, hR⟩ := h
  obtain ⟨s, s', hs, hrun⟩ := hseen
  obtain ⟨t, ht, hst⟩ := hR.init s hs
  obtain ⟨t', hrun', -⟩ := hR.run hrun hst
  exact ⟨t, t', ht, hrun'⟩

theorem Refines.refl : L.Refines L := by
  refine ⟨Eq, fun s hs => ⟨s, hs, rfl⟩, ?_⟩
  rintro s _ l s' rfl hstep
  exact .inr ⟨s', hstep, rfl⟩

theorem Refines.trans (h : L.Refines M) (h' : M.Refines N) : L.Refines N := by
  obtain ⟨R, hR⟩ := h
  obtain ⟨R', hR'⟩ := h'
  refine ⟨fun s u => ∃ t, R s t ∧ R' t u, ?_, ?_⟩
  · intro s hs
    obtain ⟨t, ht, hst⟩ := hR.init s hs
    obtain ⟨u, hu, htu⟩ := hR'.init t ht
    exact ⟨u, hu, t, hst, htu⟩
  · rintro s u l s' ⟨t, hst, htu⟩ hstep
    rcases hR.step s t l s' hst hstep with ⟨rfl, hst'⟩ | ⟨t', hstep', hst'⟩
    · exact .inl ⟨rfl, t, hst', htu⟩
    · rcases hR'.step t u l t' htu hstep' with ⟨rfl, htu'⟩ | ⟨u', hstep'', htu'⟩
      · exact .inl ⟨rfl, t', hst', htu'⟩
      · exact .inr ⟨u', hstep'', t', hst', htu'⟩

/-! ## Clients -/

/-- The steps of a client with a component: of one of them, or of both. What they do together is not seen. -/
inductive SyncStep (C : Lts κ (ℓ ⊕ ε)) (L : Lts σ ℓ) : κ × σ → Option ε → κ × σ → Prop where
  | client {c c' : κ} {s : σ} (step : C.step c none c') : SyncStep C L (c, s) none (c', s)
  | visible {c c' : κ} {s : σ} {e : ε} (step : C.step c (some (.inr e)) c') : SyncStep C L (c, s) (some e) (c', s)
  | component {c : κ} {s s' : σ} (step : L.step s none s') : SyncStep C L (c, s) none (c, s')
  | both {c c' : κ} {s s' : σ} {l : ℓ} (client : C.step c (some (.inl l)) c') (component : L.step s (some l) s') :
      SyncStep C L (c, s) none (c', s')

/-- Client `C` over component `L`. -/
def sync (C : Lts κ (ℓ ⊕ ε)) (L : Lts σ ℓ) : Lts (κ × σ) ε where
  init p := C.init p.1 ∧ L.init p.2
  step := SyncStep C L

/-- The client does the same. -/
theorem Simulation.sync (C : Lts κ (ℓ ⊕ ε)) {R : σ → τ → Prop} (h : L.Simulation M R) :
    (C.sync L).Simulation (C.sync M) fun p q => p.1 = q.1 ∧ R p.2 q.2 := by
  refine ⟨?_, ?_⟩
  · rintro ⟨c, s⟩ ⟨hc, hs⟩
    obtain ⟨t, ht, hst⟩ := h.init s hs
    exact ⟨(c, t), ⟨hc, ht⟩, rfl, hst⟩
  · rintro ⟨c, s⟩ ⟨_, t⟩ e ⟨c', s'⟩ ⟨rfl, hst⟩ hstep
    cases hstep with
    | client step => exact .inr ⟨(c', t), .client step, rfl, hst⟩
    | visible step => exact .inr ⟨(c', t), .visible step, rfl, hst⟩
    | component step =>
        rcases h.step s t none s' hst step with ⟨-, hst'⟩ | ⟨t', hstep', hst'⟩
        · exact .inl ⟨rfl, rfl, hst'⟩
        · exact .inr ⟨(c, t'), .component hstep', rfl, hst'⟩
    | both client component =>
        rcases h.step s t _ s' hst component with ⟨hnone, -⟩ | ⟨t', hstep', hst'⟩
        · cases hnone
        · exact .inr ⟨(c', t'), .both client hstep', rfl, hst'⟩

/-- **A component can be replaced by one that it refines.** -/
theorem Refines.sync (C : Lts κ (ℓ ⊕ ε)) (h : L.Refines M) : (C.sync L).Refines (C.sync M) := by
  obtain ⟨R, hR⟩ := h
  exact ⟨_, hR.sync C⟩

end Lts
end Transition
end Tpcc
