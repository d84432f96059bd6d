import Tpcc.Tinyfibers.WaitQueue

/-!
# `Tinyfibers.Yield` — a fiber that yields waits for everybody, once

`Yield` puts the fiber behind all posted handlers, and `io_context` runs those in posting order. So between a
`Yield` and the next step of the fiber the run loop switches to the fibers that were posted at the moment of the
`Yield`, each once and in their order, and to no other: whoever is spawned or resumed meanwhile comes behind.

## Contents
- **The wait.** `Yielded`: what the run queue has become since the `Yield`, and one step of it.
- **Fairness.** `yield_fair`.
-/

namespace Tpcc
namespace Tinyfibers

open Transition

variable {V E : Type} {s s' : State V E} {f g : FiberId} {fiber : Fiber}

/-- Fiber `g` is Starting or Runnable. -/
def State.Ready (s : State V E) (g : FiberId) : Prop :=
  ∃ fiber, s.fibers g = some fiber ∧ (fiber.state_ = .starting ∨ fiber.state_ = .runnable)

/-- While a fiber runs, the posted fibers are those that are ready. -/
theorem Inv.ready_iff (h : Inv s) (hcontrol : s.control = .fiber f) : s.Ready g ↔ g ∈ s.posted := by
  refine ⟨?_, h.sched.ready g⟩
  rintro ⟨fiber, hfiber, hready⟩
  have hne : s.control ≠ .fiber g := by
    intro hg
    have hrunning := h.running hg hfiber
    rw [hrunning] at hready
    rcases hready with hready | hready <;> cases hready
  have hback : s.control ≠ .back g := by
    rw [hcontrol]
    exact Control.noConfusion
  rcases h.sched.idle g fiber hfiber hne hback with hmem | hsuspended
  · exact hmem
  · rw [hsuspended] at hready
    rcases hready with hready | hready <;> cases hready

theorem Inv.running_not_posted (h : Inv s) (hcontrol : s.control = .fiber f) : f ∉ s.posted := by
  obtain ⟨fiber, hfiber, hrunning⟩ := h.sched.running f hcontrol
  apply h.sched.not_posted hfiber <;> rw [hrunning] <;> exact FiberState.noConfusion

/-! ## The wait -/

/-- What a step leaves of the run queue: a handler at its front may be gone, and there may be new ones behind. -/
theorem Inv.next_posted (h : Inv s) (hawaits : s.Awaits) {a : Action V E} (hnext : Tinyfibers.next s a = some (.ok s')) :
    ∃ rest later, s.posted = stepped s a ++ rest ∧ s'.posted = rest ++ later := by
  have heffect := h.next_effect hawaits hnext
  generalize stepped s a = popped at heffect ⊢
  generalize note s a = es at heffect
  cases heffect with
  | quiet hquiet =>
      obtain ⟨later, hlater⟩ := hquiet.posted
      exact ⟨s.posted, later, rfl, hlater.symm⟩
  | park f q hcontrol hposted => exact ⟨s.posted, [], rfl, by rw [hposted, List.append_nil]⟩
  | wake q fs rest hsplit hposted => exact ⟨s.posted, fs, rfl, hposted⟩
  | step f rest hsplit hposted => exact ⟨rest, [], hsplit, by rw [hposted, List.append_nil]⟩

theorem stepped_cases (s : State V E) (a : Action V E) : stepped s a = [] ∨ ∃ g, stepped s a = [g] := by
  unfold stepped
  split
  · cases s.posted with
    | nil => exact .inl rfl
    | cons g rest => exact .inr ⟨g, rfl⟩
  · exact .inl rfl

/-- Fiber `f` has yielded when `queue` was posted, and since then the run loop has switched to the fibers `log`. -/
inductive Yielded (f : FiberId) (queue : List FiberId) (s : State V E) (log : List FiberId) : Prop where
  /-- Back in the scheduler, in front of `Reschedule`. -/
  | back (hcontrol : s.control = .back f) (hrunnable : ∃ fiber, s.fibers f = some fiber ∧ fiber.state_ = .runnable)
      (hposted : s.posted = queue) (hlog : log = [])
  /-- In the run queue, behind those that are left of `queue`. -/
  | waits (rest later : List FiberId) (hqueue : queue = log ++ rest) (hposted : s.posted = rest ++ f :: later)
  /-- It has been switched to again. -/
  | resumed (hlog : f ∈ log)

variable {queue log : List FiberId}

/-- `Reschedule` posts the fiber. -/
theorem Yielded.reschedule {a : Action V E} (hcontrol : s.control = .back f)
    (hrunnable : ∃ fiber, s.fibers f = some fiber ∧ fiber.state_ = .runnable)
    (hnext : next s a = some (.ok s')) : stepped s a = [] ∧ s'.posted = s.posted ++ [f] := by
  cases a with
  | call c =>
      simp only [next, hcontrol] at hnext
      cases hnext
  | event e =>
      simp only [next, hcontrol] at hnext
      cases hnext
  | reschedule =>
      obtain ⟨fiber, hfiber, hstate⟩ := hrunnable
      simp only [next, hcontrol, State.reschedule, hfiber, hstate] at hnext
      cases hnext
      exact ⟨rfl, rfl⟩

/-- **One step of the wait.** -/
theorem Yielded.next (hyielded : Yielded f queue s log) (h : Inv s) (hawaits : s.Awaits) {a : Action V E}
    (hnext : Tinyfibers.next s a = some (.ok s')) : Yielded f queue s' (log ++ stepped s a) := by
  cases hyielded with
  | back hcontrol hrunnable hposted hlog =>
      obtain ⟨hstepped, hposted'⟩ := Yielded.reschedule hcontrol hrunnable hnext
      rw [hstepped, hlog]
      exact .waits queue [] rfl (hposted ▸ hposted')
  | waits rest later hqueue hposted =>
      obtain ⟨rest', later', hsplit, hposted'⟩ := h.next_posted hawaits hnext
      rcases stepped_cases s a with hstepped | ⟨g, hstepped⟩
      · rw [hstepped, List.nil_append, hposted] at hsplit
        rw [hstepped, List.append_nil]
        refine .waits rest (later ++ later') hqueue ?_
        rw [hposted', ← hsplit, List.append_assoc]
        rfl
      · rw [hstepped] at hsplit ⊢
        cases rest with
        | nil =>
            -- nobody is left in front of the fiber
            rw [hposted] at hsplit
            obtain ⟨rfl, -⟩ := List.cons.inj hsplit
            exact .resumed (List.mem_append_right _ List.mem_cons_self)
        | cons g' rest =>
            rw [hposted] at hsplit
            obtain ⟨rfl, hrest⟩ := List.cons.inj hsplit
            refine .waits rest (later ++ later') ?_ ?_
            · rw [hqueue, List.append_assoc]
              rfl
            · have hrest : rest' = rest ++ f :: later := hrest.symm
              rw [hposted', hrest, List.append_assoc]
              rfl
  | resumed hlog => exact .resumed (List.mem_append_left _ hlog)

/-! ## Fairness -/

/-- The fibers that the run loop switches to, up to a fault. -/
def steps : Except Fault (State V E) → Action V E → List FiberId
  | .ok s, a => stepped s a
  | .error _, _ => []

theorem exists_logged {c : Except Fault (State V E)} (h : (system setOnce).Reachable c) : ∃ log, Logged c log := by
  refine h.invariant (P := fun c => ∃ log, Logged c log) ?_ ?_
  · rintro c rfl
    exact ⟨[], .init, .init⟩
  · rintro c c' ⟨log, hc⟩ ⟨a, honce, hstep⟩
    exact ⟨_, logged_step hc honce hstep⟩

/-- What holds of the runs that go on from a `Yield`. -/
def Since (f : FiberId) (queue : List FiberId) (c : Except Fault (State V E)) (log : List FiberId) : Prop :=
  (∃ links, Logged c links) ∧ ∀ s, c = .ok s → Yielded f queue s log

theorem since_step {c c' : Except Fault (State V E)} {a : Action V E} (h : Since f queue c log)
    (honce : meets setOnce c a = true) (hstep : step c a = some c') : Since f queue c' (log ++ steps c a) := by
  obtain ⟨⟨links, hlogged⟩, hyielded⟩ := h
  refine ⟨⟨_, logged_step hlogged honce hstep⟩, ?_⟩
  rintro s' rfl
  cases c with
  | error fault => cases hstep
  | ok s => exact (hyielded s rfl).next hlogged.1 hlogged.2.awaits hstep

/-- What is promised of the steps between a `Yield` of fiber `f` in `s` and the state `s'`. -/
structure Fair (f : FiberId) (s s' : State V E) (log : List FiberId) : Prop where
  once : log.Nodup
  others : ∀ g ∈ log, g ≠ f ∧ s.Ready g
  order : log <+: s.posted
  all : s'.control = .loop → s'.posted.head? = some f → ∀ g, s.Ready g → log.count g = 1

theorem Yielded.fair (hyielded : Yielded f s.posted s' log) (h : Inv s) (hcontrol : s.control = .fiber f)
    (hwaits : f ∉ log) : Fair f s s' log := by
  have hnot := h.running_not_posted hcontrol
  cases hyielded with
  | back hback hrunnable hposted hlog =>
      rw [hlog]
      refine ⟨List.nodup_nil, ?_, List.nil_prefix, ?_⟩
      · intro g hg
        cases hg
      · intro hloop
        rw [hback] at hloop
        cases hloop
  | waits rest later hqueue hposted =>
      have hprefix : log <+: s.posted := ⟨rest, hqueue.symm⟩
      refine ⟨h.sched.nodup.sublist hprefix.sublist, ?_, hprefix, ?_⟩
      · intro g hg
        have hmem := hprefix.subset hg
        refine ⟨?_, (h.ready_iff hcontrol).mpr hmem⟩
        rintro rfl
        exact hnot hmem
      · intro _ hhead g hready
        have hmem := (h.ready_iff hcontrol).mp hready
        cases rest with
        | nil =>
            rw [List.append_nil] at hqueue
            rw [← hqueue]
            exact List.count_eq_one_of_mem h.sched.nodup hmem
        | cons g' rest =>
            rw [hposted] at hhead
            obtain rfl := Option.some.inj hhead
            rw [hqueue] at hnot
            exact absurd (List.mem_append_right _ List.mem_cons_self) hnot
  | resumed hlog => exact absurd hlog hwaits

/-- **`Yield` is fair.** From a `Yield` of fiber `f` on, as long as it is not switched to again, the run loop
    switches to no fiber twice, and only to fibers that were ready at the `Yield`; when the next handler is that of
    fiber `f`, it has switched to all of them. -/
theorem yield_fair (hs : (system setOnce).Reachable (.ok s)) (hcontrol : s.control = .fiber f)
    {as : List (Action V E)}
    (hrun : System.runWhile (meets setOnce) step (.ok s) (.call .yield :: as) = some (.ok s'))
    (hwaits : f ∉ System.observe step steps (.ok s) (.call .yield :: as)) :
    Fair f s s' (System.observe step steps (.ok s) (.call .yield :: as)) := by
  obtain ⟨links, hlogged⟩ := exists_logged hs
  obtain ⟨fiber, hfiber, -⟩ := hlogged.1.sched.running f hcontrol
  have hyield : step (.ok s) (.call .yield) =
      some (.ok (s.switch f { fiber with state_ := .runnable, point := .routine })) := by
    simp only [step, Tinyfibers.next, hcontrol, hfiber, Option.bind_some, Tinyfibers.call]
  have hback : Since f s.posted (.ok (s.switch f { fiber with state_ := .runnable, point := .routine })) [] := by
    refine ⟨⟨_, logged_step hlogged rfl hyield⟩, ?_⟩
    rintro s₁ ⟨⟩
    exact .back rfl ⟨_, Function.update_self .., rfl⟩ rfl rfl
  have hrun' : System.runWhile (meets setOnce) step
      (.ok (s.switch f { fiber with state_ := .runnable, point := .routine })) as = some (.ok s') := by
    have honce : meets setOnce (.ok s) (.call .yield) = true := rfl
    rwa [System.runWhile, if_pos honce, hyield, Option.bind_some] at hrun
  have hobserve : System.observe step steps (.ok s) (.call .yield :: as) =
      System.observe step steps (.ok (s.switch f { fiber with state_ := .runnable, point := .routine })) as :=
    System.observe_cons hyield as
  have hsince : Since f s.posted (.ok s') ([] ++ System.observe step steps
      (.ok (s.switch f { fiber with state_ := .runnable, point := .routine })) as) :=
    System.observe_invariant (fun _ _ _ _ h honce hstep => since_step h honce hstep) hback hrun'
  rw [List.nil_append, ← hobserve] at hsince
  exact (hsince.2 s' rfl).fair hlogged.1 hcontrol hwaits

/-- Fiber 0 spawns fiber 1 and is about to yield. -/
def spawnsOne : List (Action Unit Unit) := [.event .posted, .call .spawn]

/-- It yields, and fiber 1 spawns a third fiber and yields in its turn. -/
def yields : List (Action Unit Unit) := [.reschedule, .event .posted, .call .spawn, .call .yield, .reschedule]

theorem yield_fair_two : ∃ s s' : State Unit Unit, (system setOnce).Reachable (.ok s) ∧
    s.control = .fiber 0 ∧ s'.control = .loop ∧ s'.posted = [0, 2, 1] ∧
    System.runWhile (meets setOnce) step (.ok s) (.call .yield :: yields) = some (.ok s') ∧
    System.observe step steps (.ok s) (.call .yield :: yields) = [1] ∧
    Fair 0 s s' (System.observe step steps (.ok s) (.call .yield :: yields)) := by
  have hrun : ∃ s s' : State Unit Unit,
      System.runWhile (meets setOnce) step (.ok (initial Unit Unit)) spawnsOne = some (.ok s) ∧
      s.control = .fiber 0 ∧ s'.control = .loop ∧ s'.posted = [0, 2, 1] ∧
      System.runWhile (meets setOnce) step (.ok s) (.call .yield :: yields) = some (.ok s') ∧
      System.observe step steps (.ok s) (.call .yield :: yields) = [1] := ⟨_, _, rfl, rfl, rfl, rfl, rfl, rfl⟩
  obtain ⟨s, s', hspawns, hcontrol, hloop, hposted, hyields, hsteps⟩ := hrun
  have hreach : (system setOnce).Reachable (.ok s) := reachable_of_run spawnsOne hspawns
  have hwaits : 0 ∉ System.observe step steps (.ok s) (.call .yield :: yields) := by
    rw [hsteps]
    decide
  exact ⟨s, s', hreach, hcontrol, hloop, hposted, hyields, hsteps, yield_fair hreach hcontrol hyields hwaits⟩

end Tinyfibers
end Tpcc
