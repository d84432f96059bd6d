import Tpcc.Tinyfibers.Operations

/-!
# `Tinyfibers.Sets` — futures that are set again

A `ParkingLot` never forgets whom it woke, so a `Set` of a future that was set before would wake that fiber
wherever it is parked now. A future may be set any number of times as long as each `Set` wakes a fiber that is
parked in `Get` of it, or nobody (`wakesParked`): the invariant of the scheduler still holds of everything but the
results that `Get` has returned, and of those of the futures that are set once (`orderly`).

## Contents
- **The conditions.** `lotParked`, `wakesParked`, `orderly`.
- **Without the history.** `forget`: what `Get` has returned decides nothing.
- **The invariant.** One step, and all runs (`reachable_orderly`, `reachable_settled`).
-/

namespace Tpcc
namespace Tinyfibers

open Transition

variable {V E : Type} {s : State V E} {f : FiberId} {fiber : Fiber} {kept : FutureId → Bool}

/-! ## The conditions -/

/-- The parking lot of the future is empty, or has a fiber that is parked in `Get` of it. -/
def State.lotParked (s : State V E) (p : FutureId) : Bool :=
  match (s.futures p).wait_for_promise_.waitee_ with
  | none => true
  | some f => (s.fibers f).any fun fiber => fiber.state_ = .suspended ∧ fiber.point = .get p

/-- A `Set` wakes a fiber that is parked in `Get` of its future, or nobody. -/
def wakesParked (s : State V E) : Action V E → Bool
  | .call (.set n _) => s.lotParked (.shared n)
  | .event (.set n _) => s.lotParked (.shared n)
  | _ => true

/-- A future in `kept` is set once; a `Set` of any other wakes a fiber that is parked in `Get` of it, or nobody. -/
def orderly (kept : FutureId → Bool) (s : State V E) : Action V E → Bool
  | .call (.set n _) =>
      if kept (.shared n) then (s.futures (.shared n)).result_.isNone else s.lotParked (.shared n)
  | .event (.set n _) =>
      if kept (.shared n) then (s.futures (.shared n)).result_.isNone else s.lotParked (.shared n)
  | _ => true

/-! ## Without the history -/

/-- The history of `Get` is forgotten, but for the futures in `kept`. -/
def State.forget (kept : FutureId → Bool) (s : State V E) : State V E :=
  { s with returned := s.returned.filter fun entry => kept entry.1 }

namespace State

@[simp] theorem forget_fibers (s : State V E) : (s.forget kept).fibers = s.fibers := rfl
@[simp] theorem forget_handles (s : State V E) : (s.forget kept).handles = s.handles := rfl
@[simp] theorem forget_queues (s : State V E) : (s.forget kept).queues = s.queues := rfl
@[simp] theorem forget_posted (s : State V E) : (s.forget kept).posted = s.posted := rfl
@[simp] theorem forget_timers (s : State V E) : (s.forget kept).timers = s.timers := rfl
@[simp] theorem forget_operations (s : State V E) : (s.forget kept).operations = s.operations := rfl
@[simp] theorem forget_control (s : State V E) : (s.forget kept).control = s.control := rfl

@[simp] theorem forget_forget (s : State V E) : (s.forget kept).forget kept = s.forget kept := by
  simp [forget]

@[simp] theorem map_forget_forget (r : Except Fault (State V E)) :
    (r.map (forget kept)).map (forget kept) = r.map (forget kept) := by
  cases r with
  | ok s => exact congrArg Except.ok (forget_forget s)
  | error fault => rfl

theorem resume_forget (s : State V E) (f : FiberId) : (s.forget kept).resume f = (s.resume f).map (forget kept) := by
  unfold resume
  rw [forget_fibers]
  cases s.fibers f with
  | none => rfl
  | some fiber =>
      by_cases hsuspended : fiber.state_ = .suspended
      · simp only [hsuspended, if_true]
        rfl
      · simp only [hsuspended, if_false]
        rfl

theorem wake_forget (s : State V E) (lot : ParkingLot) :
    (s.forget kept).wake lot = (s.wake lot).map (forget kept) := by
  unfold wake
  split
  · rfl
  · exact resume_forget s _

theorem setWatcher_forget (s : State V E) (fiber_ : Option FiberId) (watcher : Option HandleId) :
    (s.forget kept).setWatcher fiber_ watcher = (s.setWatcher fiber_ watcher).map (forget kept) := by
  cases fiber_ with
  | none => rfl
  | some f =>
      simp only [setWatcher, forget_fibers]
      cases s.fibers f <;> rfl

theorem move_forget (s : State V E) (h : HandleId) (that : JoinHandle) :
    (s.forget kept).move h that = (s.move h that).map (forget kept) := by
  unfold move
  split
  · rfl
  · exact setWatcher_forget ({ (s.setHandle h { that with fiber_ := none }).setHandle s.nextHandle
      { fiber_ := that.fiber_, completed_ := that.completed_ } with nextHandle := s.nextHandle + 1 }) _ _

theorem join_forget (s : State V E) (f : FiberId) (fiber : Fiber) (h : HandleId) (handle : JoinHandle) :
    (s.forget kept).join f fiber h handle = (s.join f fiber h handle).map (forget kept) := by
  unfold join
  split
  · rfl
  · split <;> rfl

theorem detach_forget (s : State V E) (h : HandleId) (handle : JoinHandle) :
    (s.forget kept).detach h handle = (s.detach h handle).map (forget kept) := by
  unfold detach
  split
  · rfl
  · rw [setWatcher_forget]
    cases s.setWatcher handle.fiber_ none <;> rfl

theorem drop_forget (s : State V E) (h : HandleId) (handle : JoinHandle) :
    (s.forget kept).drop h handle = (s.drop h handle).map (forget kept) := by
  unfold drop
  split <;> rfl

theorem onCompleted_forget (s : State V E) (h : HandleId) :
    (s.forget kept).onCompleted h = (s.onCompleted h).map (forget kept) := by
  unfold onCompleted
  rw [forget_handles]
  cases s.handles h with
  | none => rfl
  | some handle => exact wake_forget (s.setHandle h { handle with completed_ := true }) _

theorem destroy_forget (s : State V E) (f : FiberId) (fiber : Fiber) :
    (s.forget kept).destroy f fiber = (s.destroy f fiber).map (forget kept) := by
  unfold destroy
  split
  · rfl
  · next h _ =>
      rw [onCompleted_forget]
      cases s.onCompleted h <;> rfl

theorem reschedule_forget (s : State V E) (f : FiberId) :
    (s.forget kept).reschedule f = (s.reschedule f).map (forget kept) := by
  unfold reschedule
  rw [forget_fibers]
  cases s.fibers f with
  | none => rfl
  | some fiber =>
      cases hstate : fiber.state_ with
      | runnable | suspended | starting | running => simp only [hstate]; rfl
      | terminated =>
          simp only [hstate]
          exact destroy_forget s f fiber

theorem wakeAllLoop_forget (q : QueueId) (queue : List FiberId) (s : State V E) :
    wakeAllLoop q queue (s.forget kept) = (wakeAllLoop q queue s).map (forget kept) := by
  induction queue generalizing s with
  | nil => rfl
  | cons f rest ih =>
      unfold wakeAllLoop
      show Except.bind ({ s with queues := Function.update s.queues q rest }.forget kept |>.resume f) _ = _
      rw [resume_forget]
      cases { s with queues := Function.update s.queues q rest }.resume f with
      | error fault => rfl
      | ok s' => exact ih s'

theorem wakeOne_forget (s : State V E) (q : QueueId) :
    (s.forget kept).wakeOne q = (s.wakeOne q).map (forget kept) := by
  unfold wakeOne
  rw [forget_queues]
  cases s.queues q with
  | nil => rfl
  | cons f rest => exact resume_forget { s with queues := Function.update s.queues q rest } f

theorem set_forget (s : State V E) (p : FutureId) (result : Result V E) :
    (s.forget kept).set p result = (s.set p result).map (forget kept) :=
  wake_forget (s.setFuture p { s.futures p with result_ := some result }) _

/-- A fiber that goes on may add to the history. -/
theorem goOn_forget (s : State V E) (point : Point) :
    ((s.forget kept).goOn point).map (forget kept) = (s.goOn point).map (forget kept) := by
  cases point with
  | join h =>
      simp only [goOn, forget_handles]
      cases s.handles h with
      | none => rfl
      | some handle => exact congrArg Except.ok (forget_forget (s.setHandle h { handle with fiber_ := none }))
  | get p => simp [goOn, Except.map, forget]
  | start | routine | sleep | queue => exact congrArg Except.ok (forget_forget s)

theorem step_forget (s : State V E) (f : FiberId) :
    ((s.forget kept).step f).map (forget kept) = (s.step f).map (forget kept) := by
  unfold step
  rw [forget_fibers]
  cases s.fibers f with
  | none => rfl
  | some fiber =>
      exact goOn_forget { s.setFiber f { fiber with state_ := .running, point := .routine } with control := .fiber f } _

theorem some_map_forget {r r' : Except Fault (State V E)} (h : r' = r.map (forget kept)) :
    some (r'.map (forget kept)) = some (r.map (forget kept)) := by
  rw [h, map_forget_forget]

/-- A call on a handle. -/
theorem handle_forget {x : Option JoinHandle} {op op' : JoinHandle → Except Fault (State V E)}
    (h : ∀ handle, op' handle = (op handle).map (forget kept)) :
    (x.map op').map (Except.map (forget kept)) = (x.map op).map (Except.map (forget kept)) := by
  cases x with
  | none => rfl
  | some handle => exact some_map_forget (h handle)

theorem call_forget (s : State V E) (f : FiberId) (fiber : Fiber) (c : Call V E) :
    (call (s.forget kept) f fiber c).map (Except.map (forget kept)) =
      (call s f fiber c).map (Except.map (forget kept)) := by
  cases c with
  | spawn =>
      have hspawn : (s.forget kept).spawn.newHandle s.nextId = (s.spawn.newHandle s.nextId).map (forget kept) := by
        rw [spawn_newHandle s, show (s.forget kept).spawn.newHandle s.nextId = _ from spawn_newHandle (s.forget kept)]
        rfl
      exact some_map_forget hspawn
  | yield | sleepFor | park | get | operation | ret => exact some_map_forget rfl
  | wakeOne q => exact some_map_forget (wakeOne_forget s q)
  | wakeAll q => exact some_map_forget (wakeAllLoop_forget q (s.queues q) s)
  | set n result => exact some_map_forget (set_forget s _ result)
  | join h => exact handle_forget (join_forget s f fiber h)
  | detach h => exact handle_forget (detach_forget s h)
  | move h => exact handle_forget (move_forget s h)
  | drop h => exact handle_forget (drop_forget s h)

theorem event_forget (s : State V E) (e : Event V E) :
    (event (s.forget kept) e).map (Except.map (forget kept)) = (event s e).map (Except.map (forget kept)) := by
  cases e with
  | posted =>
      simp only [event, forget_posted]
      cases s.posted with
      | nil => rfl
      | cons f rest => exact congrArg some (step_forget { s with posted := rest } f)
  | timer f =>
      by_cases hmem : f ∈ s.timers
      · simp only [event, forget_timers, hmem, if_true]
        exact some_map_forget (resume_forget { s with timers := s.timers.erase f } f)
      · simp only [event, forget_timers, hmem, if_false]
  | complete n result =>
      by_cases hmem : n ∈ s.operations
      · simp only [event, forget_operations, hmem, if_true]
        exact some_map_forget (set_forget { s with operations := s.operations.erase n } _ result)
      · simp only [event, forget_operations, hmem, if_false]
  | wakeOne q => exact some_map_forget (wakeOne_forget s q)
  | wakeAll q => exact some_map_forget (wakeAllLoop_forget q (s.queues q) s)
  | set n result => exact some_map_forget (set_forget s _ result)

/-- **The history decides nothing.** -/
theorem next_forget (kept : FutureId → Bool) (s : State V E) (a : Action V E) :
    (next (s.forget kept) a).map (Except.map (forget kept)) = (next s a).map (Except.map (forget kept)) := by
  cases a with
  | call c =>
      simp only [next, forget_control, forget_fibers]
      split
      · next f _ =>
          cases s.fibers f with
          | none => rfl
          | some fiber => exact call_forget s f fiber c
      · rfl
  | event e =>
      simp only [next, forget_control]
      split
      · exact event_forget s e
      · rfl
  | reschedule =>
      simp only [next, forget_control]
      split
      · next f _ =>
          have hback : ((s.forget kept).reschedule f).map (fun s => { s with control := .loop }) =
              ((s.reschedule f).map fun s => { s with control := .loop }).map (forget kept) := by
            rw [reschedule_forget]
            cases s.reschedule f <;> rfl
          exact some_map_forget hback
      · rfl

/-- What a step leads to, it leads to without the history. -/
theorem exists_next_forget (kept : FutureId → Bool) {s : State V E} {a : Action V E} {r : Except Fault (State V E)}
    (h : next s a = some r) :
    ∃ r', next (s.forget kept) a = some r' ∧ r'.map (forget kept) = r.map (forget kept) := by
  have hforget := next_forget kept s a
  rw [h] at hforget
  exact Option.map_eq_some_iff.mp hforget

end State

/-! ## The invariant -/

/-- The invariant, but for the results that `Get` has returned. -/
abbrev State.Settled (s : State V E) : Prop := Inv (s.forget fun _ => false)

theorem Inv.forget (h : Inv s) (kept : FutureId → Bool) : Inv (s.forget kept) := by
  refine ⟨⟨h.sched, h.watch, h.timers, h.queues, h.pending, ⟨h.results.got, ?_⟩, h.logs⟩, h.refs⟩
  intro p result hmem
  exact h.results.returned p result (List.mem_filter.mp hmem).1

/-- A future is set, perhaps again, before any `Get` of it has returned. -/
theorem Inv.setResult (h : Inv s) {n : Nat} (hreturned : ∀ result, (.shared n, result) ∉ s.returned)
    (result : Result V E) :
    Inv (s.setFuture (.shared n) { s.futures (.shared n) with result_ := some result }) := by
  refine ⟨⟨h.sched, h.watch, h.timers, h.queues, h.pending.shared n _, ⟨?_, ?_⟩, h.logs⟩,
    h.refs.mono fun point g hg => (State.refers_set hg).1⟩
  · intro g fiber p hg hpoint hstate
    show (Function.update s.futures (.shared n) _ p).result_ ≠ none
    by_cases hp : p = .shared n
    · rw [hp, Function.update_self]
      exact Option.some_ne_none result
    · rw [Function.update_of_ne hp]
      exact h.results.got g fiber p hg hpoint hstate
  · intro p result' hmem
    have hp : p ≠ .shared n := by
      rintro rfl
      exact hreturned result' hmem
    show _ ∧ result' = (Function.update s.futures (.shared n) _ p).result_
    rw [Function.update_of_ne hp]
    exact h.results.returned p result' hmem

/-- **A `Set` that finds whom it wakes parked in `Get`** keeps the invariant, if no `Get` of the future is in the
    history. -/
theorem Inv.setParked (h : Inv s) {n : Nat} (hreturned : ∀ result, (.shared n, result) ∉ s.returned)
    (hcontrol : ∀ g, s.control ≠ .back g) (hlot : s.lotParked (.shared n) = true) (result : Result V E)
    {blame : Fault → Prop} : Kept blame (s.set (.shared n) result) := by
  have hinv := h.setResult hreturned result
  unfold State.lotParked at hlot
  unfold State.set State.wake
  cases hwaitee : (s.futures (.shared n)).wait_for_promise_.waitee_ with
  | none => exact hinv
  | some f =>
      simp only [hwaitee, Option.any_eq_true, decide_eq_true_eq] at hlot
      obtain ⟨fiber, hfiber, hsuspended, hpoint⟩ := hlot
      show Kept blame ((s.setFuture (.shared n) _).resume f)
      rw [State.resume_eq (s := s.setFuture _ _) hfiber hsuspended]
      refine hinv.resume hfiber hsuspended (hcontrol f) ?_ ?_ ?_
      · -- only the future could, and it has a result
        intro point hf
        obtain ⟨fiber', hfiber', -, rfl⟩ := h.refs point f (State.refers_set hf).1
        obtain rfl := Option.some.inj (hfiber'.symm.trans hfiber)
        exact (State.refers_set hf).2 hpoint
      · intro k hk
        rw [hpoint] at hk
        cases hk
      · intro p hp
        obtain rfl := Point.get.inj (hpoint.symm.trans hp)
        rw [show (s.setFuture (.shared n) _).futures (.shared n) = _ from Function.update_self ..]
        exact Option.some_ne_none result

theorem State.not_mem_forget {p : FutureId} (hp : kept p = false) (result : Option (Result V E)) :
    (p, result) ∉ (s.forget kept).returned := by
  intro hmem
  have hkept := (List.mem_filter.mp hmem).2
  rw [show kept p = false from hp] at hkept
  cases hkept

/-- An orderly action sets a future for the first time, or it is a `Set` that wakes only whom it finds in `Get`. -/
theorem orderly_cases {a : Action V E} (ha : orderly kept s a = true) :
    setOnce s a = true ∨ ∃ n result, (a = .call (.set n result) ∨ a = .event (.set n result)) ∧
      kept (.shared n) = false ∧ s.lotParked (.shared n) = true := by
  unfold orderly at ha
  split at ha
  · next n result =>
      split at ha
      · exact .inl ha
      · next hkept => exact .inr ⟨n, result, .inl rfl, Bool.eq_false_iff.mpr hkept, ha⟩
  · next n result =>
      split at ha
      · exact .inl ha
      · next hkept => exact .inr ⟨n, result, .inr rfl, Bool.eq_false_iff.mpr hkept, ha⟩
  · next hcall hevent =>
      left
      unfold setOnce
      split
      · next n result => exact (hcall n result rfl).elim
      · next n result => exact (hevent n result rfl).elim
      · rfl

/-- **One orderly step keeps the invariant**, but for the history of the futures that are set again. -/
theorem Inv.next_orderly (h : Inv (s.forget kept)) {a : Action V E} (ha : orderly kept s a = true)
    {r : Except Fault (State V E)} (hr : Tinyfibers.next s a = some r) :
    Kept (Blamed s a) (r.map (State.forget kept)) := by
  obtain ⟨r', hr', hforget⟩ := State.exists_next_forget kept hr
  rw [← hforget]
  have hkept : Kept (Blamed s a) r' := by
    rcases orderly_cases ha with honce | ⟨n, result, hset, hkept, hlot⟩
    · exact h.next (a := a) honce hr'
    · rcases hset with rfl | rfl
      · simp only [Tinyfibers.next] at hr'
        split at hr'
        · next g hcontrol =>
            obtain ⟨fiber, -, hset⟩ := Option.bind_eq_some_iff.mp hr'
            obtain rfl := Option.some.inj hset
            have hback : ∀ f, (s.forget kept).control ≠ .back f := by
              intro f hback
              cases hcontrol.symm.trans hback
            exact h.setParked (State.not_mem_forget hkept) hback hlot result
        · cases hr'
      · simp only [Tinyfibers.next] at hr'
        split at hr'
        · next hcontrol =>
            obtain rfl := Option.some.inj hr'
            have hback : ∀ f, (s.forget kept).control ≠ .back f := by
              intro f hback
              cases hcontrol.symm.trans hback
            exact h.setParked (State.not_mem_forget hkept) hback hlot result
        · cases hr'
  cases r' with
  | ok s' => exact Inv.forget hkept kept
  | error fault => exact hkept

theorem reachable_orderly {ok : State V E → Action V E → Bool} (hok : ∀ s a, ok s a = true → orderly kept s a = true)
    {c : Except Fault (State V E)} (h : (system ok).Reachable c) :
    Kept (fun fault => ∃ s a, ok s a = true ∧ Blamed s a fault) (c.map (State.forget kept)) := by
  apply h.invariant
  · rintro c rfl
    exact Inv.init.forget kept
  · rintro c c' hc ⟨a, ha, hstep⟩
    cases c with
    | error fault => cases hstep
    | ok s =>
        have hkept := Inv.next_orderly hc (hok s a ha) hstep
        cases c' with
        | ok s' => exact hkept
        | error fault => exact ⟨s, a, ha, hkept⟩

/-! ### No result is kept -/

theorem orderly_of_wakesParked {a : Action V E} (ha : wakesParked s a = true) :
    orderly (fun _ => false) s a = true := by
  unfold wakesParked at ha
  unfold orderly
  split <;> first | exact ha | rfl

/-- **One step keeps the invariant**, but for the history, if a `Set` wakes only a fiber that is parked in `Get`. -/
theorem State.Settled.next (h : s.Settled) {a : Action V E} (ha : wakesParked s a = true) {s' : State V E}
    (hnext : Tinyfibers.next s a = some (.ok s')) : s'.Settled :=
  Inv.next_orderly h (orderly_of_wakesParked ha) hnext

theorem reachable_settled {ok : State V E → Action V E → Bool} (hok : ∀ s a, ok s a = true → wakesParked s a = true)
    (h : (system ok).Reachable (.ok s)) : s.Settled :=
  reachable_orderly (fun s a hmeets => orderly_of_wakesParked (hok s a hmeets)) h

end Tinyfibers
end Tpcc
