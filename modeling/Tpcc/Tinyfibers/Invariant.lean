import Mathlib.Data.List.Nodup
import Tpcc.Tinyfibers.Scheduler
import Tpcc.Transition.Exclusive

/-!
# `Tinyfibers.Invariant` — what holds between the operations of the scheduler

The invariant has five parts. `Sched`: where the fibers are, and which of them have a posted handler.
`Refs`: what will resume a fiber (`Refers`), and that the fiber is suspended at just that point. `Watch`:
a handle and the fiber it watches point at each other. `Results`: what `Get` returns. `Logs`: fibers that
finished are destroyed. Each is about the parts of the state that it names, so an operation keeps it
without proof if it leaves them alone.

A future is set at most once in all that follows (`setOnce`).
-/

namespace Tpcc
namespace Tinyfibers

open Transition

variable {V E : Type}

theorem nodup_snoc {α : Type} {l : List α} {a : α} (h : l.Nodup) (hnot : a ∉ l) : (l ++ [a]).Nodup := by
  rw [← List.concat_eq_append]
  exact List.Nodup.concat hnot h

/-! ## Where the fibers are -/

structure Sched (fibers : FiberId → Option Fiber) (posted : List FiberId) (control : Control)
    (nextId : FiberId) : Prop where
  ready : ∀ f ∈ posted, ∃ fiber, fibers f = some fiber ∧ (fiber.state_ = .starting ∨ fiber.state_ = .runnable)
  nodup : posted.Nodup
  idle : ∀ f fiber, fibers f = some fiber → control ≠ .fiber f → control ≠ .back f →
    f ∈ posted ∨ fiber.state_ = .suspended
  running : ∀ f, control = .fiber f → ∃ fiber, fibers f = some fiber ∧ fiber.state_ = .running
  back : ∀ f, control = .back f → f ∉ posted ∧ ∃ fiber, fibers f = some fiber ∧
    (fiber.state_ = .runnable ∨ fiber.state_ = .suspended ∨ fiber.state_ = .terminated)
  fresh : ∀ f, nextId ≤ f → fibers f = none

namespace Sched

variable {fibers : FiberId → Option Fiber} {posted : List FiberId} {control : Control} {nextId : FiberId}
  {f : FiberId} {fiber : Fiber}

/-- A fiber that runs or is suspended is not posted. -/
theorem not_posted (h : Sched fibers posted control nextId) (hfiber : fibers f = some fiber)
    (hstarting : fiber.state_ ≠ .starting) (hrunnable : fiber.state_ ≠ .runnable) : f ∉ posted := by
  intro hmem
  obtain ⟨fiber', hfiber', hstate⟩ := h.ready f hmem
  obtain rfl := Option.some.inj (hfiber'.symm.trans hfiber)
  rcases hstate with hstate | hstate
  · exact hstarting hstate
  · exact hrunnable hstate

/-- A change to a fiber that exists leaves the numbers of new fibers free. -/
theorem fresh_update (h : Sched fibers posted control nextId) (hfiber : fibers f = some fiber)
    {x : Option Fiber} (g : FiberId) (hg : nextId ≤ g) : Function.update fibers f x g = none := by
  have hgf : g ≠ f := by
    rintro rfl
    rw [h.fresh g hg] at hfiber
    cases hfiber
  rw [Function.update_of_ne hgf]
  exact h.fresh g hg

/-- A posted handler goes on. -/
theorem step {rest : List FiberId} (h : Sched fibers (f :: rest) .loop nextId) (hfiber : fibers f = some fiber)
    {fiber' : Fiber} (hrunning : fiber'.state_ = .running) :
    Sched (Function.update fibers f (some fiber')) rest (.fiber f) nextId := by
  obtain ⟨hnot, hnodup⟩ := List.nodup_cons.mp h.nodup
  refine ⟨?_, hnodup, ?_, ?_, nofun, ?_⟩
  · intro g hg
    have hgf : g ≠ f := fun heq => hnot (heq ▸ hg)
    rw [Function.update_of_ne hgf]
    exact h.ready g (List.mem_cons_of_mem f hg)
  · intro g fiber hg hcontrol _
    have hgf : g ≠ f := fun heq => hcontrol (heq ▸ rfl)
    rw [Function.update_of_ne hgf] at hg
    rcases h.idle g fiber hg nofun nofun with hmem | hstate
    · exact .inl ((List.mem_cons.mp hmem).resolve_left hgf)
    · exact .inr hstate
  · intro g hg
    obtain rfl := Control.fiber.inj hg
    exact ⟨fiber', Function.update_self .., hrunning⟩
  · exact h.fresh_update hfiber

/-- The running fiber is switched out. -/
theorem switch (h : Sched fibers posted (.fiber f) nextId) {fiber' : Fiber}
    (hstate : fiber'.state_ = .runnable ∨ fiber'.state_ = .suspended ∨ fiber'.state_ = .terminated) :
    Sched (Function.update fibers f (some fiber')) posted (.back f) nextId := by
  obtain ⟨fiber, hfiber, hrunning⟩ := h.running f rfl
  have hnot : f ∉ posted := h.not_posted hfiber (by simp [hrunning]) (by simp [hrunning])
  refine ⟨?_, h.nodup, ?_, nofun, ?_, ?_⟩
  · intro g hg
    have hgf : g ≠ f := fun heq => hnot (heq ▸ hg)
    rw [Function.update_of_ne hgf]
    exact h.ready g hg
  · intro g fiber hg _ hcontrol
    have hgf : g ≠ f := fun heq => hcontrol (heq ▸ rfl)
    rw [Function.update_of_ne hgf] at hg
    exact h.idle g fiber hg (by simpa using Ne.symm hgf) nofun
  · intro g hg
    obtain rfl := Control.back.inj hg
    exact ⟨hnot, fiber', Function.update_self .., hstate⟩
  · exact h.fresh_update hfiber

/-- A suspended fiber is resumed. -/
theorem resume (h : Sched fibers posted control nextId) (hfiber : fibers f = some fiber)
    (hsuspended : fiber.state_ = .suspended) (hcontrol : control ≠ .back f) {fiber' : Fiber}
    (hstate : fiber'.state_ = .runnable) :
    Sched (Function.update fibers f (some fiber')) (posted ++ [f]) control nextId := by
  have hnot : f ∉ posted := h.not_posted hfiber (by simp [hsuspended]) (by simp [hsuspended])
  refine ⟨?_, ?_, ?_, ?_, ?_, ?_⟩
  · intro g hg
    by_cases hgf : g = f
    · subst hgf
      exact ⟨fiber', Function.update_self .., .inr hstate⟩
    · rw [Function.update_of_ne hgf]
      rcases List.mem_append.mp hg with hg | hg
      · exact h.ready g hg
      · exact (hgf (List.mem_singleton.mp hg)).elim
  · exact nodup_snoc h.nodup hnot
  · intro g fiber hg hfiber hback
    by_cases hgf : g = f
    · subst hgf
      exact .inl (by simp)
    · rw [Function.update_of_ne hgf] at hg
      rcases h.idle g fiber hg hfiber hback with hmem | hstate
      · exact .inl (List.mem_append_left _ hmem)
      · exact .inr hstate
  · intro g hg
    obtain ⟨fiber, hg', hrunning⟩ := h.running g hg
    have hgf : g ≠ f := by
      rintro rfl
      obtain rfl := Option.some.inj (hg'.symm.trans hfiber)
      rw [hsuspended] at hrunning
      cases hrunning
    exact ⟨fiber, by rwa [Function.update_of_ne hgf], hrunning⟩
  · intro g hg
    have hgf : g ≠ f := by
      rintro rfl
      exact hcontrol hg
    obtain ⟨hg', hback⟩ := h.back g hg
    rw [Function.update_of_ne hgf]
    exact ⟨by simp [hg', hgf], hback⟩
  · exact h.fresh_update hfiber

/-- Back from a fiber that yielded. -/
theorem post (h : Sched fibers posted (.back f) nextId) (hfiber : fibers f = some fiber)
    (hstate : fiber.state_ = .runnable) : Sched fibers (posted ++ [f]) .loop nextId := by
  have hnot := (h.back f rfl).1
  refine ⟨?_, ?_, ?_, nofun, nofun, h.fresh⟩
  · intro g hg
    rcases List.mem_append.mp hg with hg | hg
    · exact h.ready g hg
    · obtain rfl := List.mem_singleton.mp hg
      exact ⟨fiber, hfiber, .inr hstate⟩
  · exact nodup_snoc h.nodup hnot
  · intro g fiber hg _ _
    by_cases hgf : g = f
    · subst hgf
      exact .inl (by simp)
    · rcases h.idle g fiber hg nofun (by simpa using Ne.symm hgf) with hmem | hstate
      · exact .inl (List.mem_append_left _ hmem)
      · exact .inr hstate

/-- Back from a fiber that was suspended. -/
theorem park (h : Sched fibers posted (.back f) nextId) (hfiber : fibers f = some fiber)
    (hstate : fiber.state_ = .suspended) : Sched fibers posted .loop nextId := by
  refine ⟨h.ready, h.nodup, ?_, nofun, nofun, h.fresh⟩
  intro g fiber' hg _ _
  by_cases hgf : g = f
  · subst hgf
    obtain rfl := Option.some.inj (hg.symm.trans hfiber)
    exact .inr hstate
  · exact h.idle g fiber' hg nofun (by simpa using Ne.symm hgf)

/-- Back from a fiber that has terminated. -/
theorem delete (h : Sched fibers posted (.back f) nextId) (hfiber : fibers f = some fiber) :
    Sched (Function.update fibers f none) posted .loop nextId := by
  have hnot := (h.back f rfl).1
  refine ⟨?_, h.nodup, ?_, nofun, nofun, h.fresh_update hfiber⟩
  · intro g hg
    have hgf : g ≠ f := fun heq => hnot (heq ▸ hg)
    rw [Function.update_of_ne hgf]
    exact h.ready g hg
  · intro g fiber' hg _ _
    obtain ⟨hgf, hg⟩ := of_update (P := fun x => x = some fiber') (Option.some_ne_none fiber').symm hg
    exact h.idle g fiber' hg nofun (by simpa using Ne.symm hgf)

/-- A new fiber is posted. -/
theorem spawn (h : Sched fibers posted control nextId) (hstate : fiber.state_ = .starting) :
    Sched (Function.update fibers nextId (some fiber)) (posted ++ [nextId]) control (nextId + 1) := by
  have hnone := h.fresh nextId (Nat.le_refl nextId)
  have hne : ∀ {g fiber'}, fibers g = some fiber' → g ≠ nextId := by
    rintro g fiber' hg rfl
    rw [hnone] at hg
    cases hg
  refine ⟨?_, ?_, ?_, ?_, ?_, ?_⟩
  · intro g hg
    rcases List.mem_append.mp hg with hg | hg
    · obtain ⟨fiber', hg', hready⟩ := h.ready g hg
      exact ⟨fiber', by rwa [Function.update_of_ne (hne hg')], hready⟩
    · obtain rfl := List.mem_singleton.mp hg
      exact ⟨fiber, Function.update_self .., .inl hstate⟩
  · apply nodup_snoc h.nodup
    intro hmem
    obtain ⟨fiber', hg, -⟩ := h.ready nextId hmem
    exact hne hg rfl
  · intro g fiber' hg hfiber hback
    by_cases hgn : g = nextId
    · exact .inl (by simp [hgn])
    · rw [Function.update_of_ne hgn] at hg
      rcases h.idle g fiber' hg hfiber hback with hmem | hsuspended
      · exact .inl (List.mem_append_left _ hmem)
      · exact .inr hsuspended
  · intro g hg
    obtain ⟨fiber', hg', hrunning⟩ := h.running g hg
    exact ⟨fiber', by rwa [Function.update_of_ne (hne hg')], hrunning⟩
  · intro g hg
    obtain ⟨hnot, fiber', hg', hback⟩ := h.back g hg
    refine ⟨by simp [hnot, hne hg'], fiber', ?_, hback⟩
    rwa [Function.update_of_ne (hne hg')]
  · intro g hg
    have hgn : g ≠ nextId := Nat.ne_of_gt hg
    rw [Function.update_of_ne hgn]
    exact h.fresh g (Nat.le_of_succ_le hg)

/-- The watcher of a fiber changes. -/
theorem watch (h : Sched fibers posted control nextId) (hfiber : fibers f = some fiber) {fiber' : Fiber}
    (hstate : fiber'.state_ = fiber.state_) :
    Sched (Function.update fibers f (some fiber')) posted control nextId := by
  -- every fiber is in the state it was in
  have hstates : ∀ g fiber₁, Function.update fibers f (some fiber') g = some fiber₁ →
      ∃ fiber₀, fibers g = some fiber₀ ∧ fiber₁.state_ = fiber₀.state_ := by
    intro g fiber₁ hg
    by_cases hgf : g = f
    · subst hgf
      rw [Function.update_self] at hg
      cases hg
      exact ⟨fiber, hfiber, hstate⟩
    · rw [Function.update_of_ne hgf] at hg
      exact ⟨fiber₁, hg, rfl⟩
  have hexists : ∀ g fiber₀, fibers g = some fiber₀ →
      ∃ fiber₁, Function.update fibers f (some fiber') g = some fiber₁ ∧ fiber₁.state_ = fiber₀.state_ := by
    intro g fiber₀ hg
    by_cases hgf : g = f
    · subst hgf
      obtain rfl := Option.some.inj (hg.symm.trans hfiber)
      exact ⟨fiber', Function.update_self .., hstate⟩
    · exact ⟨fiber₀, by rwa [Function.update_of_ne hgf], rfl⟩
  refine ⟨?_, h.nodup, ?_, ?_, ?_, h.fresh_update hfiber⟩
  · intro g hg
    obtain ⟨fiber₀, hg, hready⟩ := h.ready g hg
    obtain ⟨fiber₁, hg, heq⟩ := hexists g fiber₀ hg
    exact ⟨fiber₁, hg, heq ▸ hready⟩
  · intro g fiber₁ hg hcontrol hback
    obtain ⟨fiber₀, hg, heq⟩ := hstates g fiber₁ hg
    rw [heq]
    exact h.idle g fiber₀ hg hcontrol hback
  · intro g hg
    obtain ⟨fiber₀, hg, hrunning⟩ := h.running g hg
    obtain ⟨fiber₁, hg, heq⟩ := hexists g fiber₀ hg
    exact ⟨fiber₁, hg, heq ▸ hrunning⟩
  · intro g hg
    obtain ⟨hnot, fiber₀, hg, hback⟩ := h.back g hg
    obtain ⟨fiber₁, hg, heq⟩ := hexists g fiber₀ hg
    exact ⟨hnot, fiber₁, hg, heq ▸ hback⟩

end Sched

/-! ## A handle and the fiber it watches -/

structure Watch (fibers : FiberId → Option Fiber) (handles : HandleId → Option JoinHandle)
    (nextId : FiberId) (nextHandle : HandleId) : Prop where
  watched : ∀ f fiber h, fibers f = some fiber → fiber.watcher_ = some h →
    ∃ handle, handles h = some handle ∧ handle.fiber_ = some f ∧ handle.completed_ = false
  watching : ∀ h handle f, handles h = some handle → handle.fiber_ = some f → handle.completed_ = false →
    ∃ fiber, fibers f = some fiber ∧ fiber.watcher_ = some h
  completed : ∀ h handle f, handles h = some handle → handle.fiber_ = some f → handle.completed_ = true →
    fibers f = none
  known : ∀ h handle f, handles h = some handle → handle.fiber_ = some f → f < nextId
  joined : ∀ f fiber h handle, fibers f = some fiber → fiber.point = .join h → fiber.state_ ≠ .suspended →
    handles h = some handle → handle.completed_ = true
  joins : ∀ f fiber h, fibers f = some fiber → fiber.point = .join h → h < nextHandle
  fresh : ∀ h, nextHandle ≤ h → handles h = none

namespace Watch

variable {fibers : FiberId → Option Fiber} {handles : HandleId → Option JoinHandle} {nextId : FiberId}
  {nextHandle : HandleId} {f : FiberId} {fiber : Fiber} {h : HandleId} {handle : JoinHandle}

/-- A fiber is switched in or out, or resumed. -/
theorem setFiber (w : Watch fibers handles nextId nextHandle) (hfiber : fibers f = some fiber) {fiber' : Fiber}
    (hwatcher : fiber'.watcher_ = fiber.watcher_)
    (hjoin : ∀ h, fiber'.point = .join h → h < nextHandle ∧ (fiber'.state_ ≠ .suspended →
      ∀ handle, handles h = some handle → handle.completed_ = true)) :
    Watch (Function.update fibers f (some fiber')) handles nextId nextHandle := by
  obtain ⟨hwatched, hwatching, hcompleted, hknown, hjoined, hjoins, hfresh⟩ := w
  constructor <;> grind -linarith [Function.update_apply]

/-- A fiber comes to wait in a handle. -/
theorem setHandle (w : Watch fibers handles nextId nextHandle) (hhandle : handles h = some handle)
    {handle' : JoinHandle} (hfiber : handle'.fiber_ = handle.fiber_)
    (hcompleted : handle'.completed_ = handle.completed_) :
    Watch fibers (Function.update handles h (some handle')) nextId nextHandle := by
  obtain ⟨hwatched, hwatching, hcompleted, hknown, hjoined, hjoins, hfresh⟩ := w
  constructor <;> grind -linarith [Function.update_apply]

/-- `Join` returns. -/
theorem leave (w : Watch fibers handles nextId nextHandle) (hhandle : handles h = some handle)
    (hdone : handle.completed_ = true) :
    Watch fibers (Function.update handles h (some { handle with fiber_ := none })) nextId nextHandle := by
  obtain ⟨hwatched, hwatching, hcompleted, hknown, hjoined, hjoins, hfresh⟩ := w
  constructor <;> grind -linarith [Function.update_apply]

/-- A handle that was joined or detached goes out of scope. -/
theorem drop (w : Watch fibers handles nextId nextHandle) (hhandle : handles h = some handle)
    (hnone : handle.fiber_ = none) : Watch fibers (Function.update handles h none) nextId nextHandle := by
  obtain ⟨hwatched, hwatching, hcompleted, hknown, hjoined, hjoins, hfresh⟩ := w
  constructor <;> grind -linarith [Function.update_apply]

/-- No fiber has the number `f`. -/
theorem ne_of_none {g : FiberId} {fiber : Fiber} (hnone : fibers f = none) (hg : fibers g = some fiber) : g ≠ f := by
  rintro rfl
  rw [hnone] at hg
  cases hg

/-- A new fiber and its handle. -/
theorem spawn (w : Watch fibers handles nextId nextHandle) (hnew : fibers nextId = none) :
    Watch (Function.update fibers nextId (some { watcher_ := some nextHandle }))
      (Function.update handles nextHandle (some { fiber_ := some nextId })) (nextId + 1) (nextHandle + 1) := by
  have hfiber : Function.update fibers nextId (some { watcher_ := some nextHandle }) nextId =
      some { watcher_ := some nextHandle } := Function.update_self ..
  have hhandle : Function.update handles nextHandle (some { fiber_ := some nextId }) nextHandle =
      some { fiber_ := some nextId } := Function.update_self ..
  have hne : ∀ g fiber, fibers g = some fiber → g ≠ nextId := fun _ _ => ne_of_none hnew
  have hnone := w.fresh nextHandle (Nat.le_refl _)
  obtain ⟨hwatched, hwatching, hcompleted, hknown, hjoined, hjoins, hfresh⟩ := w
  constructor <;> grind -linarith [Function.update_apply]

/-- A new fiber that nobody watches. -/
theorem spawnNone (w : Watch fibers handles nextId nextHandle) (hnew : fibers nextId = none) :
    Watch (Function.update fibers nextId (some {})) handles (nextId + 1) nextHandle := by
  have hne : ∀ g fiber, fibers g = some fiber → g ≠ nextId := fun _ _ => ne_of_none hnew
  obtain ⟨hwatched, hwatching, hcompleted, hknown, hjoined, hjoins, hfresh⟩ := w
  constructor <;> grind -linarith [Function.update_apply]

/-- `Detach` while the fiber is there. -/
theorem detach (w : Watch fibers handles nextId nextHandle) (hhandle : handles h = some handle)
    (hattached : handle.fiber_ = some f) (hfiber : fibers f = some fiber) :
    Watch (Function.update fibers f (some { fiber with watcher_ := none }))
      (Function.update handles h (some { handle with fiber_ := none })) nextId nextHandle := by
  obtain ⟨hwatched, hwatching, hcompleted, hknown, hjoined, hjoins, hfresh⟩ := w
  constructor <;> grind -linarith [Function.update_apply]

/-- A move while the fiber is there: it is watched by the new handle, and no longer by the old one. -/
theorem move (w : Watch fibers handles nextId nextHandle) (hhandle : handles h = some handle)
    (hwatches : handle.completed_ = false) (hattached : handle.fiber_ = some f) (hfiber : fibers f = some fiber) :
    Watch (Function.update fibers f (some { fiber with watcher_ := some nextHandle }))
      (Function.update (Function.update handles h (some { handle with fiber_ := none })) nextHandle
        (some { fiber_ := handle.fiber_, completed_ := handle.completed_ })) nextId (nextHandle + 1) := by
  obtain ⟨hwatched, hwatching, hcompleted, hknown, hjoined, hjoins, hfresh⟩ := w
  constructor <;> grind -linarith [Function.update_apply]

/-- A move after the fiber has completed. -/
theorem moveCompleted (w : Watch fibers handles nextId nextHandle) (hhandle : handles h = some handle)
    (hdone : handle.completed_ = true) :
    Watch fibers (Function.update (Function.update handles h (some { handle with fiber_ := none })) nextHandle
      (some { fiber_ := handle.fiber_, completed_ := handle.completed_ })) nextId (nextHandle + 1) := by
  obtain ⟨hwatched, hwatching, hcompleted, hknown, hjoined, hjoins, hfresh⟩ := w
  constructor <;> grind -linarith [Function.update_apply]

/-- `~Fiber`: the one handle that watches the fiber is completed. -/
theorem delete (w : Watch fibers handles nextId nextHandle) (hfiber : fibers f = some fiber)
    (hwatcher : fiber.watcher_ = some h) (hhandle : handles h = some handle) :
    Watch (Function.update fibers f none)
      (Function.update handles h (some { handle with completed_ := true })) nextId nextHandle := by
  obtain ⟨hwatched, hwatching, hcompleted, hknown, hjoined, hjoins, hfresh⟩ := w
  constructor <;> grind -linarith [Function.update_apply]

/-- `~Fiber` of a fiber that nobody watches. -/
theorem deleteNone (w : Watch fibers handles nextId nextHandle) (hfiber : fibers f = some fiber)
    (hwatcher : fiber.watcher_ = none) :
    Watch (Function.update fibers f none) handles nextId nextHandle := by
  obtain ⟨hwatched, hwatching, hcompleted, hknown, hjoined, hjoins, hfresh⟩ := w
  constructor <;> grind -linarith [Function.update_apply]

end Watch

/-! ## What resumes a fiber -/

/-- Something will resume fiber `f`, which it expects at `point`. -/
def State.Refers (s : State V E) : Point → FiberId → Prop
  | .sleep, f => f ∈ s.timers
  | .queue q, f => f ∈ s.queues q
  | .join h, f => ∃ handle, s.handles h = some handle ∧ handle.completed_ = false ∧ handle.waitee_.waitee_ = some f
  | .get p, f => (s.futures p).result_ = none ∧ (s.futures p).wait_for_promise_.waitee_ = some f
  | .start, _ => False
  | .routine, _ => False

/-- What will resume a fiber finds it suspended where it expects it. -/
def Refs (fibers : FiberId → Option Fiber) (refers : Point → FiberId → Prop) : Prop :=
  ∀ point f, refers point f → ∃ fiber, fibers f = some fiber ∧ fiber.state_ = .suspended ∧ fiber.point = point

namespace Refs

variable {fibers : FiberId → Option Fiber} {refers refers' : Point → FiberId → Prop} {f : FiberId} {fiber : Fiber}
  {point point' : Point}

theorem mono (h : Refs fibers refers) (hsub : ∀ point f, refers' point f → refers point f) : Refs fibers refers' :=
  fun point f hf => h point f (hsub point f hf)

/-- At most one thing will resume a fiber. -/
theorem unique (h : Refs fibers refers) (hf : refers point f) (hf' : refers point' f) : point = point' := by
  obtain ⟨fiber, hfiber, -, rfl⟩ := h point f hf
  obtain ⟨fiber', hfiber', -, rfl⟩ := h point' f hf'
  obtain rfl := Option.some.inj (hfiber.symm.trans hfiber')
  rfl

/-- Nothing will resume a fiber that is not suspended. -/
theorem free (h : Refs fibers refers) (hfiber : fibers f = some fiber) (hstate : fiber.state_ ≠ .suspended)
    (point : Point) : ¬ refers point f := by
  intro hf
  obtain ⟨fiber', hfiber', hsuspended, -⟩ := h point f hf
  obtain rfl := Option.some.inj (hfiber.symm.trans hfiber')
  exact hstate hsuspended

/-- Nothing will resume a fiber that does not exist. -/
theorem free_of_none (h : Refs fibers refers) (hnone : fibers f = none) (point : Point) : ¬ refers point f := by
  intro hf
  obtain ⟨fiber, hfiber, -⟩ := h point f hf
  rw [hnone] at hfiber
  cases hfiber

/-- A fiber that nothing will resume changes in any way. -/
theorem update (h : Refs fibers refers) (hfree : ∀ point, ¬ refers point f) (x : Option Fiber) :
    Refs (Function.update fibers f x) refers := by
  intro point g hg
  have hgf : g ≠ f := by
    rintro rfl
    exact hfree point hg
  rw [Function.update_of_ne hgf]
  exact h point g hg

/-- The watcher of a fiber changes. -/
theorem watch (h : Refs fibers refers) (hfiber : fibers f = some fiber) {fiber' : Fiber}
    (hstate : fiber'.state_ = fiber.state_) (hpoint : fiber'.point = fiber.point) :
    Refs (Function.update fibers f (some fiber')) refers := by
  intro point g hg
  obtain ⟨fiber₀, hfiber₀, hsuspended, heq⟩ := h point g hg
  by_cases hgf : g = f
  · subst hgf
    obtain rfl := Option.some.inj (hfiber₀.symm.trans hfiber)
    exact ⟨fiber', Function.update_self .., hstate.trans hsuspended, hpoint.trans heq⟩
  · exact ⟨fiber₀, by rwa [Function.update_of_ne hgf], hsuspended, heq⟩

/-- A fiber is suspended, and there is something that will resume it. -/
theorem suspend (h : Refs fibers refers) (hfree : ∀ point, ¬ refers point f) {fiber' : Fiber}
    (hstate : fiber'.state_ = .suspended) (hpoint : fiber'.point = point)
    (hsub : ∀ point' g, refers' point' g → refers point' g ∨ point' = point ∧ g = f) :
    Refs (Function.update fibers f (some fiber')) refers' := by
  intro point' g hg
  rcases hsub point' g hg with hg | ⟨rfl, rfl⟩
  · exact h.update hfree _ point' g hg
  · exact ⟨fiber', Function.update_self .., hstate, hpoint⟩

/-- A reference that goes leaves nothing that will resume its fiber. -/
theorem unref (h : Refs fibers refers) (hf : refers point f) (hsub : ∀ point f, refers' point f → refers point f)
    (hgone : ¬ refers' point f) (point' : Point) : ¬ refers' point' f := by
  intro hf'
  obtain rfl := h.unique hf (hsub point' f hf')
  exact hgone hf'

end Refs

/-! ## Pending socket operations, results and history -/

structure Pending (operations : List Nat) (nextOperation : Nat) (futures : FutureId → Future V E) : Prop where
  nodup : operations.Nodup
  unset : ∀ n ∈ operations, n < nextOperation ∧ (futures (.operation n)).result_ = none
  fresh : ∀ n, nextOperation ≤ n → futures (.operation n) = {}

structure Results (fibers : FiberId → Option Fiber) (futures : FutureId → Future V E)
    (returned : List (FutureId × Option (Result V E))) : Prop where
  got : ∀ f fiber p, fibers f = some fiber → fiber.point = .get p → fiber.state_ ≠ .suspended →
    (futures p).result_ ≠ none
  returned : ∀ p result, (p, result) ∈ returned → result ≠ none ∧ result = (futures p).result_

/-- The fiber that has finished and is about to be destroyed. -/
def dying (fibers : FiberId → Option Fiber) : Control → List FiberId
  | .back f =>
      match fibers f with
      | some fiber => if fiber.state_ = .terminated then [f] else []
      | none => []
  | _ => []

structure Logs (fibers : FiberId → Option Fiber) (control : Control) (nextId : FiberId)
    (finished destroyed : List FiberId) : Prop where
  nodup : destroyed.Nodup
  gone : ∀ f ∈ destroyed, f < nextId ∧ fibers f = none
  lost : ∀ f < nextId, fibers f = none → f ∈ destroyed
  finished : finished = destroyed ++ dying fibers control

namespace Results

variable {fibers : FiberId → Option Fiber} {futures : FutureId → Future V E}
  {returned : List (FutureId × Option (Result V E))} {f : FiberId} {p : FutureId}

theorem update (h : Results fibers futures returned) {fiber' : Fiber}
    (hgot : ∀ p, fiber'.point = .get p → fiber'.state_ ≠ .suspended → (futures p).result_ ≠ none) :
    Results (Function.update fibers f (some fiber')) futures returned := by
  refine ⟨?_, h.returned⟩
  intro g fiber p hg hpoint hstate
  by_cases hgf : g = f
  · subst hgf
    rw [Function.update_self] at hg
    cases hg
    exact hgot p hpoint hstate
  · rw [Function.update_of_ne hgf] at hg
    exact h.got g fiber p hg hpoint hstate

theorem delete (h : Results fibers futures returned) : Results (Function.update fibers f none) futures returned := by
  refine ⟨?_, h.returned⟩
  intro g fiber p hg hpoint hstate
  obtain ⟨-, hg⟩ := of_update (P := fun x => x = some fiber) (Option.some_ne_none fiber).symm hg
  exact h.got g fiber p hg hpoint hstate

/-- A future that has no result yet changes. -/
theorem future (h : Results fibers futures returned) (hunset : (futures p).result_ = none)
    (future' : Future V E) : Results fibers (Function.update futures p future') returned := by
  constructor
  · intro g fiber p' hg hpoint hstate
    have hgot := h.got g fiber p' hg hpoint hstate
    have hne : p' ≠ p := by
      rintro rfl
      exact hgot hunset
    rwa [Function.update_of_ne hne]
  · intro p' result hmem
    obtain ⟨hsome, hresult⟩ := h.returned p' result hmem
    have hne : p' ≠ p := by
      rintro rfl
      exact hsome (hresult.trans hunset)
    rw [Function.update_of_ne hne]
    exact ⟨hsome, hresult⟩

/-- A fiber parks in `Get`. -/
theorem park (h : Results fibers futures returned) (lot : ParkingLot) :
    Results fibers (Function.update futures p { futures p with wait_for_promise_ := lot }) returned := by
  have hresult : ∀ p', (Function.update futures p { futures p with wait_for_promise_ := lot } p').result_ =
      (futures p').result_ := update_same (q := Future.result_) rfl
  constructor
  · intro g fiber p' hg hpoint hstate
    rw [hresult]
    exact h.got g fiber p' hg hpoint hstate
  · intro p' result hmem
    rw [hresult]
    exact h.returned p' result hmem

/-- `Get` returns. -/
theorem get (h : Results fibers futures returned) (hset : (futures p).result_ ≠ none) :
    Results fibers futures (returned ++ [(p, (futures p).result_)]) := by
  refine ⟨h.got, ?_⟩
  intro p' result hmem
  rcases List.mem_append.mp hmem with hmem | hmem
  · exact h.returned p' result hmem
  · cases List.mem_singleton.mp hmem
    exact ⟨hset, rfl⟩

end Results

namespace Logs

variable {fibers : FiberId → Option Fiber} {control : Control} {nextId : FiberId}
  {finished destroyed : List FiberId} {f : FiberId} {fiber : Fiber}

theorem dying_back (hfiber : fibers f = some fiber) :
    dying fibers (.back f) = if fiber.state_ = .terminated then [f] else [] := by
  simp only [dying, hfiber]

theorem dying_update (hcontrol : control ≠ .back f) (x : Option Fiber) :
    dying (Function.update fibers f x) control = dying fibers control := by
  cases control with
  | loop => rfl
  | fiber g => rfl
  | back g =>
      have hgf : g ≠ f := fun heq => hcontrol (heq ▸ rfl)
      simp only [dying, Function.update_of_ne hgf]

/-- A fiber changes, and it is not one that has finished. -/
theorem update (h : Logs fibers control nextId finished destroyed) (hfiber : fibers f = some fiber)
    {control' : Control} {fiber' : Fiber}
    (hdying : dying (Function.update fibers f (some fiber')) control' = dying fibers control) :
    Logs (Function.update fibers f (some fiber')) control' nextId finished destroyed := by
  refine ⟨h.nodup, ?_, ?_, hdying ▸ h.finished⟩
  · intro g hg
    obtain ⟨hlt, hnone⟩ := h.gone g hg
    have hgf : g ≠ f := by
      rintro rfl
      rw [hnone] at hfiber
      cases hfiber
    rw [Function.update_of_ne hgf]
    exact ⟨hlt, hnone⟩
  · intro g hg hnone
    have hgf : g ≠ f := by
      rintro rfl
      rw [Function.update_self] at hnone
      cases hnone
    rw [Function.update_of_ne hgf] at hnone
    exact h.lost g hg hnone

/-- A new fiber. -/
theorem spawn (h : Logs fibers control nextId finished destroyed) (hcontrol : control ≠ .back nextId)
    (fiber' : Fiber) : Logs (Function.update fibers nextId (some fiber')) control (nextId + 1) finished destroyed := by
  refine ⟨h.nodup, ?_, ?_, ?_⟩
  · intro g hg
    obtain ⟨hlt, hnone⟩ := h.gone g hg
    rw [Function.update_of_ne (Nat.ne_of_lt hlt)]
    exact ⟨Nat.lt_succ_of_lt hlt, hnone⟩
  · intro g hg hnone
    have hgn : g ≠ nextId := by
      rintro rfl
      rw [Function.update_self] at hnone
      cases hnone
    rw [Function.update_of_ne hgn] at hnone
    exact h.lost g (Nat.lt_of_le_of_ne (Nat.le_of_lt_succ hg) hgn) hnone
  · rw [dying_update hcontrol]
    exact h.finished

/-- The running fiber is switched out. -/
theorem switch (h : Logs fibers (.fiber f) nextId finished destroyed) (hfiber : fibers f = some fiber)
    {fiber' : Fiber} (hstate : fiber'.state_ ≠ .terminated) :
    Logs (Function.update fibers f (some fiber')) (.back f) nextId finished destroyed := by
  refine h.update hfiber ?_
  rw [dying_back (Function.update_self ..), if_neg hstate]
  rfl

/-- The routine of the running fiber returns. -/
theorem finish (h : Logs fibers (.fiber f) nextId finished destroyed) (hfiber : fibers f = some fiber)
    {fiber' : Fiber} (hstate : fiber'.state_ = .terminated) :
    Logs (Function.update fibers f (some fiber')) (.back f) nextId (finished ++ [f]) destroyed := by
  have hfiber' : Logs (Function.update fibers f (some fiber')) (.fiber f) nextId finished destroyed :=
    h.update hfiber rfl
  refine ⟨h.nodup, hfiber'.gone, hfiber'.lost, ?_⟩
  rw [dying_back (Function.update_self ..), if_pos hstate, h.finished]
  simp [dying]

/-- A fiber that has finished is destroyed. -/
theorem delete (h : Logs fibers (.back f) nextId finished destroyed) (hfiber : fibers f = some fiber)
    (hstate : fiber.state_ = .terminated) (hlt : f < nextId) :
    Logs (Function.update fibers f none) .loop nextId finished (destroyed ++ [f]) := by
  have hfinished := h.finished
  rw [dying_back hfiber, if_pos hstate] at hfinished
  refine ⟨?_, ?_, ?_, ?_⟩
  · apply nodup_snoc h.nodup
    intro hmem
    rw [(h.gone f hmem).2] at hfiber
    cases hfiber
  · intro g hg
    by_cases hgf : g = f
    · subst hgf
      exact ⟨hlt, Function.update_self ..⟩
    · rw [Function.update_of_ne hgf]
      rcases List.mem_append.mp hg with hg | hg
      · exact h.gone g hg
      · exact (hgf (List.mem_singleton.mp hg)).elim
  · intro g hg hnone
    by_cases hgf : g = f
    · simp [hgf]
    · rw [Function.update_of_ne hgf] at hnone
      exact List.mem_append_left _ (h.lost g hg hnone)
  · rw [hfinished]
    simp [dying]

/-- Back from a fiber that has not finished. -/
theorem back (h : Logs fibers (.back f) nextId finished destroyed) (hfiber : fibers f = some fiber)
    (hstate : fiber.state_ ≠ .terminated) : Logs fibers .loop nextId finished destroyed := by
  have hfinished := h.finished
  rw [dying_back hfiber, if_neg hstate] at hfinished
  exact ⟨h.nodup, h.gone, h.lost, hfinished⟩

end Logs

/-- The invariant, but for what resumes a fiber. -/
structure Base (s : State V E) : Prop where
  sched : Sched s.fibers s.posted s.control s.nextId
  watch : Watch s.fibers s.handles s.nextId s.nextHandle
  timers : s.timers.Nodup
  queues : ∀ q, (s.queues q).Nodup
  pending : Pending s.operations s.nextOperation s.futures
  results : Results s.fibers s.futures s.returned
  logs : Logs s.fibers s.control s.nextId s.finished s.destroyed

/-- **The invariant of the scheduler.** -/
structure Inv (s : State V E) : Prop extends Base s where
  refs : Refs s.fibers s.Refers

end Tinyfibers
end Tpcc
