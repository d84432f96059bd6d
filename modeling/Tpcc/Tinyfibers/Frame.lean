import Tpcc.Tinyfibers.Scheduler

/-!
# `Tinyfibers.Frame` — what resuming fibers leaves alone

`Resume` and what calls it (`ParkingLot::Wake`, `WakeOne`, `WakeAll`, `Set`) change the states of fibers and post them;
which fibers there are, and where they go on, stays. `After` says what holds of the state in which an operation ends, if it
does not end in a fault.
-/

namespace Tpcc
namespace Tinyfibers

variable {V E : Type} {s s' s'' : State V E} {c : Except Fault (State V E)} {P Q : State V E → Prop} {f : FiberId}
  {fiber : Fiber}

/-- If the operation ends in a state, it is one with `P`. -/
def After (P : State V E → Prop) (c : Except Fault (State V E)) : Prop := ∀ s', c = .ok s' → P s'

namespace After

theorem ok (h : P s) : After P (.ok s) := by
  rintro _ ⟨⟩
  exact h

theorem error {fault : Fault} : After P (.error fault) := nofun

theorem mono (h : After P c) (hPQ : ∀ s, P s → Q s) : After Q c := fun s' hs' => hPQ s' (h s' hs')

theorem bind (h : After P c) {g : State V E → Except Fault (State V E)} (hg : ∀ s', P s' → After Q (g s')) :
    After Q (c.bind g) := by
  intro s' hs'
  cases c with
  | error fault => cases hs'
  | ok s₁ => exact hg s₁ (h s₁ rfl) s' hs'

theorem map (h : After P c) {g : State V E → State V E} (hg : ∀ s', P s' → Q (g s')) : After Q (c.map g) := by
  intro s' hs'
  cases c with
  | error fault => cases hs'
  | ok s₁ =>
      cases hs'
      exact hg s₁ (h s₁ rfl)

end After

/-- Fibers have been resumed. -/
structure Resumes (s s' : State V E) : Prop where
  nextId : s'.nextId = s.nextId
  control : s'.control = s.control
  handles : s'.handles = s.handles
  nextHandle : s'.nextHandle = s.nextHandle
  futures : s'.futures = s.futures
  operations : s'.operations = s.operations
  nextOperation : s'.nextOperation = s.nextOperation
  points : ∀ f, (s'.fibers f).map Fiber.point = (s.fibers f).map Fiber.point

namespace Resumes

theorem refl (s : State V E) : Resumes s s := ⟨rfl, rfl, rfl, rfl, rfl, rfl, rfl, fun _ => rfl⟩

theorem trans (h : Resumes s s') (h' : Resumes s' s'') : Resumes s s'' where
  nextId := h'.nextId.trans h.nextId
  control := h'.control.trans h.control
  handles := h'.handles.trans h.handles
  nextHandle := h'.nextHandle.trans h.nextHandle
  futures := h'.futures.trans h.futures
  operations := h'.operations.trans h.operations
  nextOperation := h'.nextOperation.trans h.nextOperation
  points f := (h'.points f).trans (h.points f)

/-- The same fibers are there. -/
theorem fibers_none (h : Resumes s s') (f : FiberId) : s'.fibers f = none ↔ s.fibers f = none := by
  rw [← Option.map_eq_none_iff (f := Fiber.point), h.points, Option.map_eq_none_iff]

end Resumes

namespace State

theorem resume_resumes (s : State V E) (f : FiberId) : After (Resumes s) (s.resume f) := by
  unfold resume
  cases hfiber : s.fibers f with
  | none => exact .error
  | some fiber =>
      simp only
      split
      · refine .ok ⟨rfl, rfl, rfl, rfl, rfl, rfl, rfl, fun g => ?_⟩
        show (Function.update s.fibers f _ g).map Fiber.point = _
        by_cases hg : g = f
        · subst hg
          rw [Function.update_self, hfiber]
          rfl
        · rw [Function.update_of_ne hg]
      · exact .error

theorem wake_resumes (s : State V E) (lot : ParkingLot) : After (Resumes s) (s.wake lot) := by
  unfold wake
  cases lot.waitee_ with
  | none => exact .ok (.refl s)
  | some f => exact s.resume_resumes f

/-- A change of the wait queues alone. -/
theorem resumes_queues (s : State V E) (queues : QueueId → List FiberId) : Resumes s { s with queues } :=
  ⟨rfl, rfl, rfl, rfl, rfl, rfl, rfl, fun _ => rfl⟩

theorem wakeOne_resumes (s : State V E) (q : QueueId) : After (Resumes s) (s.wakeOne q) := by
  unfold wakeOne
  cases s.queues q with
  | nil => exact .ok (.refl s)
  | cons f rest => exact (resume_resumes _ f).mono fun _ h => (s.resumes_queues _).trans h

theorem wakeAllLoop_resumes (q : QueueId) (queue : List FiberId) (s : State V E) :
    After (Resumes s) (wakeAllLoop q queue s) := by
  induction queue generalizing s with
  | nil => exact .ok (.refl s)
  | cons f rest ih =>
      have hresume := resume_resumes { s with queues := Function.update s.queues q rest } f
      exact hresume.bind fun s' hs' => (ih s').mono fun _ h => ((s.resumes_queues _).trans hs').trans h

theorem set_resumes (s : State V E) (p : FutureId) (result : Result V E) :
    After (Resumes (s.setFuture p { s.futures p with result_ := some result })) (s.set p result) :=
  wake_resumes _ _

end State

end Tinyfibers
end Tpcc
