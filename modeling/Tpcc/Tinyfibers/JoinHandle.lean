import Tpcc.Tinyfibers.Sets

/-!
# `Tinyfibers.JoinHandle` — when a handle follows `fiber_`

`Join` and the move constructor look at `completed_` before they follow `fiber_`; `Detach` does not, and the
move constructor takes a handle that was detached for one that watches. A careful program (`careful`) calls
neither there, and then no handle follows a pointer to a destroyed fiber or a null one. `~Fiber` finds its
watcher in every program. A future may be set again, as long as that wakes only a fiber that is parked in `Get` of
it (`wakesParked`).
-/

namespace Tpcc
namespace Tinyfibers

open Transition

variable {V E : Type} {s : State V E}

/-- The handle is joined or detached for the first time. -/
def once (s : State V E) : Action V E → Bool
  | .call (.join h) => (s.handles h).all fun handle => handle.fiber_.isSome && handle.waitee_.waitee_.isNone
  | .call (.detach h) => (s.handles h).all fun handle => handle.fiber_.isSome && handle.waitee_.waitee_.isNone
  | _ => true

/-- A handle is used where it must not follow `fiber_`. -/
def Dangles : Except Fault (State V E) → Prop
  | .error .danglingHandle => True
  | .error .nullHandle => True
  | _ => False

/-- An attached handle whose fiber has completed is detached. -/
theorem detach_dangles (h : s.Settled) {k : HandleId} {handle : JoinHandle} (hhandle : s.handles k = some handle)
    (hattached : handle.fiber_ ≠ none) (hdone : handle.completed_ = true) : Dangles (s.detach k handle) := by
  obtain ⟨f, hf⟩ := Option.ne_none_iff_exists'.mp hattached
  have hgone : s.fibers f = none := h.watch.completed k handle f hhandle hf hdone
  simp [State.detach, State.setWatcher, hf, hgone, Except.map, Dangles]

/-- A handle that was detached before its fiber has completed is moved. -/
theorem move_dangles {k : HandleId} {handle : JoinHandle} (hnone : handle.fiber_ = none)
    (hwatches : handle.completed_ = false) : Dangles (s.move k handle) := by
  simp [State.move, State.setWatcher, hnone, hwatches, Dangles]

/-- A careful action, and the faults it can end in. -/
theorem not_dangles {a : Action V E} (ha : careful s a = true) {fault : Fault} (h : Blamed s a fault) :
    ¬ Dangles (.error fault : Except Fault (State V E)) := by
  obtain ⟨hdangling, hnull⟩ := h.2 ha
  intro hdangles
  unfold Dangles at hdangles
  split at hdangles
  · next heq =>
      cases heq
      exact hdangling rfl
  · next heq =>
      cases heq
      exact hnull rfl
  · exact hdangles

theorem ne_deadWatcher {a : Action V E} {fault : Fault} (h : Blamed s a fault) :
    (.error fault : Except Fault (State V E)) ≠ .error .deadWatcher := by
  rintro ⟨⟩
  cases h.1

/-- **An action that is not careful** makes a handle follow `fiber_` where it must not. -/
theorem dangles_of_not_careful (h : s.Settled) {a : Action V E} (ha : careful s a = false)
    {c : Except Fault (State V E)} (hc : next s a = some c) : Dangles c := by
  unfold careful at ha
  split at ha
  · next k =>
      simp only [next] at hc
      split at hc
      · obtain ⟨fiber, -, hc⟩ := Option.bind_eq_some_iff.mp hc
        obtain ⟨handle, hhandle, rfl⟩ := Option.map_eq_some_iff.mp hc
        simp only [hhandle, Option.all_some, Bool.or_eq_false_iff, Bool.not_eq_false'] at ha
        exact detach_dangles h hhandle (by simpa [Option.isSome_iff_ne_none] using ha.1) ha.2
      · cases hc
  · next k =>
      simp only [next] at hc
      split at hc
      · obtain ⟨fiber, -, hc⟩ := Option.bind_eq_some_iff.mp hc
        obtain ⟨handle, hhandle, rfl⟩ := Option.map_eq_some_iff.mp hc
        simp only [hhandle, Option.all_some, Bool.or_eq_false_iff] at ha
        exact move_dangles (by simpa using ha.1) ha.2
      · cases hc
  · cases ha

/-- **Handles are safe in a careful program**: no handle follows a pointer to a destroyed fiber, or a null one,
    and `~Fiber` calls no destroyed handle. From a state that any program reaches, an action leads to such a
    fault exactly if it is not careful. -/
theorem handles_safe (V E : Type) :
    (∀ c : Except Fault (State V E), (system fun s a => wakesParked s a && careful s a).Reachable c →
      ¬ Dangles c ∧ c ≠ .error .deadWatcher) ∧
    ∀ (s : State V E) (a : Action V E) (c : Except Fault (State V E)), (system wakesParked).Reachable (.ok s) →
      wakesParked s a = true → next s a = some c → (careful s a = true ↔ ¬ Dangles c) ∧ c ≠ .error .deadWatcher := by
  constructor
  · intro c hc
    have hkept := reachable_orderly (fun s a hok => orderly_of_wakesParked (Bool.and_eq_true_iff.mp hok).1) hc
    cases c with
    | ok s => exact ⟨id, nofun⟩
    | error fault =>
        obtain ⟨s, a, hok, hblamed⟩ := hkept
        exact ⟨not_dangles (Bool.and_eq_true_iff.mp hok).2 hblamed, ne_deadWatcher hblamed⟩
  · intro s a c hs hparked hc
    have hinv : s.Settled := reachable_settled (fun _ _ hparked => hparked) hs
    have hkept := hinv.next_orderly (orderly_of_wakesParked hparked) hc
    refine ⟨⟨?_, ?_⟩, ?_⟩
    · intro ha
      cases c with
      | ok s' => exact id
      | error fault => exact not_dangles ha hkept
    · intro hsafe
      by_contra ha
      exact hsafe (dangles_of_not_careful hinv (Bool.eq_false_iff.mpr ha) hc)
    · cases c with
      | ok s' => exact nofun
      | error fault => exact ne_deadWatcher hkept

/-- Fiber 0 sets a future twice, detaches a handle that it has moved, and fiber 1 returns. -/
def detached : List (Action Unit Unit) :=
  [.event .posted, .call (.set 0 (.ok ())), .call (.set 0 (.ok ())), .call .spawn, .call (.move 0), .call (.detach 1),
    .call (.drop 1), .call (.drop 0), .call .yield, .reschedule, .event .posted, .call .ret, .reschedule]

theorem handles_safe_detached : ∃ s : State Unit Unit,
    (system fun s a => wakesParked s a && careful s a).Reachable (.ok s) ∧ s.destroyed = [1] ∧
      ¬ Dangles (.ok s : Except Fault (State Unit Unit)) := by
  have hrun : ∃ s : State Unit Unit, System.runWhile (meets fun s a => wakesParked s a && careful s a) step
      (.ok (initial Unit Unit)) detached = some (.ok s) ∧ s.destroyed = [1] := ⟨_, rfl, rfl⟩
  obtain ⟨s, hs, hdestroyed⟩ := hrun
  have hreach := reachable_of_run detached hs
  exact ⟨s, hreach, hdestroyed, ((handles_safe Unit Unit).1 _ hreach).1⟩

/-- Fiber 1 returns before fiber 0 detaches its handle. -/
def late : List (Action Unit Unit) :=
  [.event .posted, .call .spawn, .call .yield, .reschedule, .event .posted, .call .ret, .reschedule, .event .posted,
    .call (.detach 0)]

theorem late_dangles : ¬ ∀ c : Except Fault (State Unit Unit),
    (system fun s a => setOnce s a && once s a).Reachable c → ¬ Dangles c ∧ c ≠ .error .deadWatcher := by
  intro h
  have hrun : System.runWhile (meets fun s a => setOnce s a && once s a) step (.ok (initial Unit Unit)) late =
      some (.error .danglingHandle) := rfl
  exact (h _ (reachable_of_run late hrun)).1 trivial

end Tinyfibers
end Tpcc
