import Tpcc.Tinyfibers.Sets

/-!
# `Tinyfibers.Future` — which `Get` is delivered

`Get` parks whether or not there is a result, and the `ParkingLot` of a future has one place, without memory
of a `Wake`. So every `Get` that returns has the result that was set (`setOnceAt`), but only one that is called
before the `Set`, and before any other `Get`, is sure to return (`getFirstAt`). The `Get` of a socket operation is:
its future is its own, and the operation completes later.
-/

namespace Tpcc
namespace Tinyfibers

open Transition

variable {V E : Type} {s : State V E} {f : FiberId} {fiber : Fiber} {p : FutureId} {n : Nat}

/-- Future `n` is set once. A `Set` of another wakes a fiber that is parked in `Get` of that one, or nobody. -/
def setOnceAt (n : Nat) : State V E → Action V E → Bool := orderly fun p => p = .shared n

/-- `Get` of future `n` is called before its `Set`, and for the first time. -/
def getFirstAt (n : Nat) (s : State V E) : Action V E → Bool
  | .call (.get m) => m ≠ n || (s.futures (.shared n)).result_.isNone &&
      (s.futures (.shared n)).wait_for_promise_.waitee_.isNone
  | _ => true

/-- A fiber is parked in `Get` of future `p`. -/
def State.ParkedIn (s : State V E) (f : FiberId) (p : FutureId) : Prop :=
  ∃ fiber, s.fibers f = some fiber ∧ fiber.state_ = .suspended ∧ fiber.point = .get p

/-- Every fiber parked in `Get` of future `p` is the one that the future will wake. -/
def Gets (p : FutureId) (fibers : FiberId → Option Fiber) (futures : FutureId → Future V E) : Prop :=
  ∀ f fiber, fibers f = some fiber → fiber.state_ = .suspended → fiber.point = .get p →
    (futures p).result_ = none ∧ (futures p).wait_for_promise_.waitee_ = some f

namespace Gets

variable {fibers : FiberId → Option Fiber} {futures : FutureId → Future V E} {q : FutureId}

/-- A fiber goes on, or parks elsewhere. -/
theorem update (h : Gets p fibers futures) {x : Option Fiber}
    (hx : ∀ fiber', x = some fiber' → fiber'.state_ = .suspended → fiber'.point = .get p →
      (futures p).result_ = none ∧ (futures p).wait_for_promise_.waitee_ = some f) :
    Gets p (Function.update fibers f x) futures := by
  intro g fiber hg hsuspended hpoint
  by_cases hgf : g = f
  · subst hgf
    rw [Function.update_self] at hg
    exact hx fiber hg hsuspended hpoint
  · rw [Function.update_of_ne hgf] at hg
    exact h g fiber hg hsuspended hpoint

/-- A fiber goes on. -/
theorem awake (h : Gets p fibers futures) {fiber' : Fiber} (hawake : fiber'.state_ ≠ .suspended) :
    Gets p (Function.update fibers f (some fiber')) futures := by
  apply h.update
  rintro _ ⟨⟩ hsuspended
  exact (hawake hsuspended).elim

/-- Another future changes. -/
theorem of_ne (h : Gets p fibers futures) (hq : p ≠ q) (future : Future V E) :
    Gets p fibers (Function.update futures q future) := by
  intro g fiber hg hsuspended hpoint
  rw [Function.update_of_ne hq]
  exact h g fiber hg hsuspended hpoint

/-- A fiber parks in `Get` of another future. -/
theorem elsewhere (h : Gets p fibers futures) (hq : p ≠ q) {fiber' : Fiber} (hpoint : fiber'.point = .get q)
    (future : Future V E) :
    Gets p (Function.update fibers f (some fiber')) (Function.update futures q future) := by
  apply (h.of_ne hq future).update
  rintro _ ⟨⟩ - hget
  rw [hpoint] at hget
  exact (hq (Point.get.inj hget).symm).elim

/-- The first fiber parks in `Get`, before the `Set`. -/
theorem park (h : Gets p fibers futures) {fiber' : Fiber} (hunset : (futures p).result_ = none)
    (hfirst : (futures p).wait_for_promise_.waitee_ = none) :
    Gets p (Function.update fibers f (some fiber'))
      (Function.update futures p { futures p with wait_for_promise_ := ⟨some f⟩ }) := by
  intro g fiber hg hsuspended hget
  by_cases hgf : g = f
  · subst hgf
    rw [Function.update_self]
    exact ⟨hunset, rfl⟩
  · rw [Function.update_of_ne hgf] at hg
    have hwaitee := (h g fiber hg hsuspended hget).2
    rw [hfirst] at hwaitee
    cases hwaitee

/-- The future is set, and the fiber it wakes goes on. -/
theorem set (h : Gets p fibers futures) {fiber' : Fiber} (hawake : fiber'.state_ ≠ .suspended)
    (hwaitee : (futures p).wait_for_promise_.waitee_ = some f) (future : Future V E) :
    Gets p (Function.update fibers f (some fiber')) (Function.update futures p future) := by
  intro g fiber hg hsuspended hget
  by_cases hgf : g = f
  · subst hgf
    rw [Function.update_self] at hg
    cases hg
    exact (hawake hsuspended).elim
  · rw [Function.update_of_ne hgf] at hg
    have hwaitee' := (h g fiber hg hsuspended hget).2
    exact (hgf (Option.some.inj (hwaitee'.symm.trans hwaitee))).elim

/-- The future is set, and nobody waits for it. -/
theorem setNone (h : Gets p fibers futures) (hwaitee : (futures p).wait_for_promise_.waitee_ = none)
    (future : Future V E) : Gets p fibers (Function.update futures p future) := by
  intro g fiber hg hsuspended hget
  have hwaitee' := (h g fiber hg hsuspended hget).2
  rw [hwaitee] at hwaitee'
  cases hwaitee'

end Gets

/-! ## Every operation keeps it -/

/-- What an operation leads to has every parked fiber woken by its future. -/
def Delivers (p : FutureId) : Except Fault (State V E) → Prop
  | .ok s => Gets p s.fibers s.futures
  | .error _ => True

theorem delivers_resume (h : Gets p s.fibers s.futures) (f : FiberId) : Delivers p (s.resume f) := by
  unfold State.resume
  split
  · trivial
  · split
    · exact h.awake nofun
    · trivial

theorem delivers_wake (h : Gets p s.fibers s.futures) (lot : ParkingLot) : Delivers p (s.wake lot) := by
  unfold State.wake
  split
  · exact h
  · exact delivers_resume h _

theorem delivers_map {r : Except Fault (State V E)} (h : Delivers p r) {g : State V E → State V E}
    (hg : ∀ s, Gets p s.fibers s.futures → Gets p (g s).fibers (g s).futures) : Delivers p (r.map g) := by
  cases r with
  | ok s => exact hg s h
  | error fault => trivial

theorem delivers_wakeOne (h : Gets p s.fibers s.futures) (q : QueueId) : Delivers p (s.wakeOne q) := by
  unfold State.wakeOne
  split
  · exact h
  · next f rest hqueue => exact delivers_resume (s := { s with queues := Function.update s.queues q rest }) h f

theorem delivers_wakeAllLoop {q : QueueId} {queue : List FiberId} (h : Gets p s.fibers s.futures) :
    Delivers p (State.wakeAllLoop q queue s) := by
  induction queue generalizing s with
  | nil => exact h
  | cons f rest ih =>
      unfold State.wakeAllLoop
      have hresume := delivers_resume (s := { s with queues := Function.update s.queues q rest }) h f
      cases hr : { s with queues := Function.update s.queues q rest }.resume f with
      | error fault => trivial
      | ok s' =>
          rw [hr] at hresume
          exact ih hresume

theorem delivers_set (h : Gets p s.fibers s.futures) (q : FutureId) (result : Result V E) :
    Delivers p (s.set q result) := by
  by_cases hq : p = q
  · subst hq
    unfold State.set State.wake
    split
    · next hwaitee => exact h.setNone hwaitee _
    · next f hwaitee =>
        unfold State.resume
        split
        · trivial
        · split
          · refine h.set ?_ hwaitee _
            exact nofun
          · trivial
  · exact delivers_wake (s := s.setFuture q _) (h.of_ne hq _) _

theorem delivers_setWatcher (h : Gets p s.fibers s.futures) (fiber_ : Option FiberId) (watcher : Option HandleId) :
    Delivers p (s.setWatcher fiber_ watcher) := by
  unfold State.setWatcher
  split
  · trivial
  · next f =>
      split
      · trivial
      · next fiber hfiber =>
          refine h.update ?_
          rintro _ ⟨⟩ hsuspended hpoint
          exact h f fiber hfiber hsuspended hpoint

theorem delivers_destroy (h : Gets p s.fibers s.futures) (f : FiberId) (fiber : Fiber) :
    Delivers p (s.destroy f fiber) := by
  unfold State.destroy
  split
  · exact h.update nofun
  · next k hwatcher =>
      have hcompleted : Delivers p (s.onCompleted k) := by
        unfold State.onCompleted
        split
        · trivial
        · next handle hhandle => exact delivers_wake (s := s.setHandle k { handle with completed_ := true }) h _
      refine delivers_map hcompleted ?_
      intro s hs
      exact hs.update nofun

theorem delivers_reschedule (h : Gets p s.fibers s.futures) (f : FiberId) : Delivers p (s.reschedule f) := by
  unfold State.reschedule
  split
  · trivial
  · split
    · exact h
    · exact h
    · exact delivers_destroy h f _
    · trivial
    · trivial

theorem delivers_step (h : Gets p s.fibers s.futures) (f : FiberId) : Delivers p (s.step f) := by
  unfold State.step
  split
  · trivial
  · next fiber hfiber =>
      have hrunning : Gets p (Function.update s.fibers f (some { fiber with state_ := .running, point := .routine }))
          s.futures := h.awake nofun
      unfold State.goOn
      split
      · split
        · trivial
        · exact hrunning
      · exact hrunning
      · exact hrunning
      · exact hrunning
      · exact hrunning
      · exact hrunning

theorem delivers_call (h : Gets (.shared n) s.fibers s.futures) {c : Call V E}
    (hc : getFirstAt n s (.call c) = true) {r : Except Fault (State V E)} (hr : call s f fiber c = some r) :
    Delivers (.shared n) r := by
  cases c with
  | spawn =>
      cases hr
      rw [State.spawn_newHandle]
      exact h.update nofun
  | yield | sleepFor | park q | ret =>
      cases hr
      refine h.update ?_
      rintro _ ⟨⟩ ⟨⟩ ⟨⟩
  | wakeOne q =>
      cases hr
      exact delivers_wakeOne h q
  | wakeAll q =>
      cases hr
      exact delivers_wakeAllLoop h
  | join k =>
      obtain ⟨handle, -, rfl⟩ := Option.map_eq_some_iff.mp hr
      unfold State.join
      split
      · trivial
      · split
        · exact h
        · refine h.update ?_
          rintro _ ⟨⟩ ⟨⟩ ⟨⟩
  | detach k =>
      obtain ⟨handle, -, rfl⟩ := Option.map_eq_some_iff.mp hr
      unfold State.detach
      split
      · trivial
      · exact delivers_map (delivers_setWatcher h _ _) fun s hs => hs
  | move k =>
      obtain ⟨handle, -, rfl⟩ := Option.map_eq_some_iff.mp hr
      unfold State.move
      split
      · exact h
      · exact delivers_setWatcher (s := { (s.setHandle k { handle with fiber_ := none }).setHandle s.nextHandle
          { fiber_ := handle.fiber_, completed_ := handle.completed_ } with nextHandle := s.nextHandle + 1 }) h _ _
  | drop k =>
      obtain ⟨handle, -, rfl⟩ := Option.map_eq_some_iff.mp hr
      unfold State.drop
      split
      · exact h
      · trivial
  | get m =>
      cases hr
      by_cases hm : m = n
      · subst hm
        simp only [getFirstAt, ne_eq, not_true_eq_false, decide_false, Bool.false_or, Bool.and_eq_true,
          Option.isNone_iff_eq_none] at hc
        exact h.park hc.1 hc.2
      · exact h.elsewhere (fun heq => hm (FutureId.shared.inj heq).symm) rfl _
  | set m result =>
      cases hr
      exact delivers_set h _ result
  | operation =>
      cases hr
      have hne : FutureId.shared n ≠ .operation s.nextOperation := by simp
      exact h.elsewhere hne rfl { s.futures (.operation s.nextOperation) with wait_for_promise_ := ⟨some f⟩ }

theorem delivers_event (h : Gets p s.fibers s.futures) {e : Event V E} {r : Except Fault (State V E)}
    (hr : event s e = some r) : Delivers p r := by
  cases e with
  | posted =>
      simp only [event] at hr
      split at hr
      · cases hr
      · next f rest hposted =>
          cases hr
          exact delivers_step (s := { s with posted := rest }) h f
  | timer f =>
      simp only [event, Option.ite_none_right_eq_some, Option.some.injEq] at hr
      obtain ⟨-, rfl⟩ := hr
      exact delivers_resume (s := { s with timers := s.timers.erase f }) h f
  | complete n result =>
      simp only [event, Option.ite_none_right_eq_some, Option.some.injEq] at hr
      obtain ⟨-, rfl⟩ := hr
      exact delivers_set (s := { s with operations := s.operations.erase n }) h _ result
  | wakeOne q =>
      cases hr
      exact delivers_wakeOne h q
  | wakeAll q =>
      cases hr
      exact delivers_wakeAllLoop h
  | set n result =>
      cases hr
      exact delivers_set h _ result

theorem delivers_next (h : Gets (.shared n) s.fibers s.futures) {a : Action V E} (ha : getFirstAt n s a = true)
    {c : Except Fault (State V E)} (hc : next s a = some c) : Delivers (.shared n) c := by
  cases a with
  | call b =>
      simp only [next] at hc
      split at hc
      · obtain ⟨fiber, -, hc⟩ := Option.bind_eq_some_iff.mp hc
        exact delivers_call h ha hc
      · cases hc
  | event e =>
      simp only [next] at hc
      split at hc
      · exact delivers_event h hc
      · cases hc
  | reschedule =>
      simp only [next] at hc
      split at hc
      · cases hc
        exact delivers_map (delivers_reschedule h _) fun s hs => hs
      · cases hc

/-! ## All runs -/

/-- The condition under which every `Get` of future `n` is delivered. -/
def inOrder (n : Nat) (s : State V E) (a : Action V E) : Bool := setOnceAt n s a && getFirstAt n s a

theorem reachable_delivers {ok : State V E → Action V E → Bool} (hok : ∀ s a, ok s a = true → getFirstAt n s a = true)
    {c : Except Fault (State V E)} (h : (system ok).Reachable c) : Delivers (.shared n) c := by
  apply h.invariant
  · rintro c rfl
    have hnone : Gets (.shared n) (fun _ => none) (initial V E).futures := nofun
    exact hnone.awake nofun
  · rintro c c' hc ⟨a, ha, hstep⟩
    cases c with
    | error fault => cases hstep
    | ok s => exact delivers_next hc (hok s a ha) hstep

/-- What `Get` of a future that is set once has returned. -/
theorem returned_of_reachable {ok : State V E → Action V E → Bool}
    (hok : ∀ s a, ok s a = true → setOnceAt n s a = true) (h : (system ok).Reachable (.ok s))
    {result : Option (Result V E)} (hmem : (.shared n, result) ∈ s.returned) :
    result ≠ none ∧ result = (s.futures (.shared n)).result_ := by
  have hinv : Inv (s.forget fun p => p = .shared n) := reachable_orderly hok h
  exact hinv.results.returned (.shared n) result (List.mem_filter.mpr ⟨hmem, decide_eq_true rfl⟩)

/-- No handler is posted, no fiber runs, and a fiber is parked in `Get` of future `n`, which has been set. -/
def State.Undelivered (s : State V E) (n : Nat) : Prop :=
  s.control = .loop ∧ s.posted = [] ∧ ∃ f, s.ParkedIn f (.shared n) ∧ (s.futures (.shared n)).result_ ≠ none

/-- **Every `Get` that returns has the result that was set**, if the future is set once and a `Set` of any other
    wakes only a fiber that is parked in `Get` of that one. If every `Get` of it is called before the `Set`, and is
    the first, none stays parked behind the `Set`. -/
theorem gets_deliver (V E : Type) (n : Nat) :
    (∀ s : State V E, (system (setOnceAt n)).Reachable (.ok s) → ∀ result, (.shared n, result) ∈ s.returned →
      result ≠ none ∧ result = (s.futures (.shared n)).result_) ∧
    ∀ s : State V E, (system (inOrder n)).Reachable (.ok s) →
      (∀ result, (.shared n, result) ∈ s.returned → result ≠ none ∧ result = (s.futures (.shared n)).result_) ∧
        ¬ s.Undelivered n := by
  constructor
  · intro s hs result hmem
    exact returned_of_reachable (fun _ _ honce => honce) hs hmem
  · intro s hs
    constructor
    · intro result hmem
      exact returned_of_reachable (fun s a hok => (Bool.and_eq_true_iff.mp hok).1) hs hmem
    · rintro ⟨-, -, f, ⟨fiber, hfiber, hsuspended, hpoint⟩, hset⟩
      have hgets : Gets (.shared n) s.fibers s.futures :=
        reachable_delivers (fun s a hok => (Bool.and_eq_true_iff.mp hok).2) hs
      exact hset (hgets f fiber hfiber hsuspended hpoint).1

/-- Fiber 0 calls `Get` of future 0, a handler of the run loop sets it, and `Get` returns. Then it parks in future 1,
    which is set twice. -/
def delivered : List (Action Nat Unit) :=
  [.event .posted, .call (.get 0), .reschedule, .event (.set 0 (.ok 7)), .event .posted, .call (.set 1 (.ok 3)),
    .call (.get 1), .reschedule, .event (.set 1 (.ok 4))]

theorem gets_deliver_delivered : ∃ s : State Nat Unit, (system (inOrder 0)).Reachable (.ok s) ∧
    s.returned = [(.shared 0, some (.ok 7))] ∧ ¬ s.Undelivered 0 := by
  have hrun : ∃ s : State Nat Unit, System.runWhile (meets (inOrder 0)) step (.ok (initial Nat Unit)) delivered =
      some (.ok s) ∧ s.returned = [(.shared 0, some (.ok 7))] := ⟨_, rfl, rfl⟩
  obtain ⟨s, hs, hreturned⟩ := hrun
  have hreach := reachable_of_run delivered hs
  exact ⟨s, hreach, hreturned, ((gets_deliver Nat Unit 0).2 s hreach).2⟩

/-- Fiber 0 sets the future, and then calls `Get`. -/
def setThenGet : List (Action Nat Unit) :=
  [.event .posted, .call (.set 0 (.ok 7)), .call (.get 0), .reschedule]

theorem get_undelivered :
    ¬ ∀ s : State Nat Unit, (system (setOnceAt 0)).Reachable (.ok s) → ¬ s.Undelivered 0 := by
  intro h
  have hrun : ∃ s : State Nat Unit, System.runWhile (meets (setOnceAt 0)) step (.ok (initial Nat Unit)) setThenGet =
      some (.ok s) ∧ s.Undelivered 0 :=
    ⟨_, rfl, rfl, rfl, 0, ⟨_, rfl, rfl, rfl⟩, nofun⟩
  obtain ⟨s, hs, hundelivered⟩ := hrun
  exact h s (reachable_of_run setThenGet hs) hundelivered

end Tinyfibers
end Tpcc
