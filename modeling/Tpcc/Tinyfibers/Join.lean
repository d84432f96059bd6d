import Tpcc.Tinyfibers.Sets

/-!
# `Tinyfibers.Join` — a fiber in `Join` waits for the fiber it watches

`~Fiber` calls `OnCompleted` of the one handle that watches, and that wakes the fiber parked in it. Nothing else
does, as long as each `Set` of a future wakes a fiber that is parked in `Get` of it, or nobody (`wakesParked`): the
`Set` of a future that was set before would wake whom it woke then, wherever that fiber is parked now.

## Contents
- **What an operation leaves alone.** `Keeps`: a fiber that does not act stays where it is, and a handle as it is.
- **The life of a `Join`.** `Parked`, `Resumed`, `Returned`; one step, all runs, and the result `join_waits`.
-/

namespace Tpcc
namespace Tinyfibers

open Transition

variable {V E : Type} {s : State V E} {f : FiberId} {fiber : Fiber}

/-! ## What an operation leaves alone -/

/-- Where fiber `f` goes on when it is switched to. -/
def State.pointOf (s : State V E) (f : FiberId) : Option Point := (s.fibers f).map Fiber.point

namespace State

theorem pointOf_eq (hfiber : s.fibers f = some fiber) : s.pointOf f = some fiber.point := by
  unfold pointOf
  rw [hfiber]
  rfl

theorem pointOf_setFiber {g : FiberId} (hfiber : s.fibers g = some fiber) (fiber' : Fiber)
    (hpoint : fiber'.point = fiber.point) (f : FiberId) : (s.setFiber g fiber').pointOf f = s.pointOf f := by
  show Option.map Fiber.point (Function.update s.fibers g (some fiber') f) = _
  by_cases hfg : f = g
  · subst hfg
    rw [Function.update_self, pointOf_eq hfiber, ← hpoint]
    rfl
  · rw [Function.update_of_ne hfg]
    rfl

theorem pointOf_update {g : FiberId} (x : Option Fiber) (hfg : f ≠ g) :
    (Function.update s.fibers g x f).map Fiber.point = s.pointOf f := by
  rw [Function.update_of_ne hfg]
  rfl

end State

/-- What is destroyed stays so, and numbers are not used again. -/
structure Grows (s s' : State V E) : Prop where
  destroyed : ∀ g ∈ s.destroyed, g ∈ s'.destroyed
  nextId : s.nextId ≤ s'.nextId

theorem Grows.trans {s s' s'' : State V E} (h : Grows s s') (h' : Grows s' s'') : Grows s s'' :=
  ⟨fun g hg => h'.destroyed g (h.destroyed g hg), Nat.le_trans h.nextId h'.nextId⟩

/-- No posted handler goes, and no fiber goes on elsewhere. -/
structure Stays (s s' : State V E) : Prop extends Grows s s' where
  posted : ∀ g ∈ s.posted, g ∈ s'.posted
  point : ∀ f, s'.pointOf f = s.pointOf f

theorem Stays.refl (s : State V E) : Stays s s := ⟨⟨fun _ => id, Nat.le_refl _⟩, fun _ => id, fun _ => rfl⟩

theorem Stays.trans {s s' s'' : State V E} (h : Stays s s') (h' : Stays s' s'') : Stays s s'' :=
  ⟨h.toGrows.trans h'.toGrows, fun g hg => h'.posted g (h.posted g hg), fun f => (h'.point f).trans (h.point f)⟩

/-- The state changes elsewhere. -/
theorem Stays.of_eq {t : State V E} (hfibers : t.fibers = s.fibers) (hposted : t.posted = s.posted)
    (hdestroyed : t.destroyed = s.destroyed) (hnextId : t.nextId = s.nextId) : Stays s t := by
  refine ⟨⟨fun g hg => ?_, Nat.le_of_eq hnextId.symm⟩, fun g hg => ?_, fun f => ?_⟩
  · rw [hdestroyed]
    exact hg
  · rw [hposted]
    exact hg
  · unfold State.pointOf
    rw [hfibers]

/-- Fibers are resumed, or get another watcher. -/
structure Wakes (s s' : State V E) : Prop extends Stays s s' where
  handles : s'.handles = s.handles

theorem Wakes.refl (s : State V E) : Wakes s s := ⟨.refl s, rfl⟩

theorem Wakes.trans {s s' s'' : State V E} (h : Wakes s s') (h' : Wakes s' s'') : Wakes s s'' :=
  ⟨h.toStays.trans h'.toStays, h'.handles.trans h.handles⟩

/-- The operation leads to such a state, or ends in a fault. -/
def Leads (P : State V E → Prop) : Except Fault (State V E) → Prop
  | .ok s => P s
  | .error _ => True

theorem Leads.imp {P Q : State V E → Prop} {c : Except Fault (State V E)} (h : Leads P c) (himp : ∀ s, P s → Q s) :
    Leads Q c := by
  cases c with
  | ok s => exact himp s h
  | error fault => trivial

theorem Leads.map {P Q : State V E → Prop} {c : Except Fault (State V E)} (h : Leads P c) {op : State V E → State V E}
    (hop : ∀ s, P s → Q (op s)) : Leads Q (c.map op) := by
  cases c with
  | ok s => exact hop s h
  | error fault => trivial

theorem wakes_resume (s : State V E) (g : FiberId) : Leads (Wakes s) (s.resume g) := by
  unfold State.resume
  split
  · trivial
  · next fiber hfiber =>
      split
      · refine ⟨⟨⟨fun _ => id, Nat.le_refl _⟩, fun _ => List.mem_append_left _, ?_⟩, rfl⟩
        exact State.pointOf_setFiber hfiber { fiber with state_ := .runnable } rfl
      · trivial

theorem wakes_wake (s : State V E) (lot : ParkingLot) : Leads (Wakes s) (s.wake lot) := by
  unfold State.wake
  split
  · exact .refl s
  · exact wakes_resume s _

theorem wakes_setWatcher (s : State V E) (fiber_ : Option FiberId) (watcher : Option HandleId) :
    Leads (Wakes s) (s.setWatcher fiber_ watcher) := by
  unfold State.setWatcher
  split
  · trivial
  · next g =>
      split
      · trivial
      · next fiber hfiber =>
          refine ⟨⟨⟨fun _ => id, Nat.le_refl _⟩, fun _ => id, ?_⟩, rfl⟩
          exact State.pointOf_setFiber hfiber { fiber with watcher_ := watcher } rfl

/-- A queue changes before its fibers are resumed. -/
theorem wakes_queue (s : State V E) (q : QueueId) (queue : List FiberId) :
    Wakes s { s with queues := Function.update s.queues q queue } := ⟨.of_eq rfl rfl rfl rfl, rfl⟩

theorem wakes_wakeOne (s : State V E) (q : QueueId) : Leads (Wakes s) (s.wakeOne q) := by
  unfold State.wakeOne
  split
  · exact .refl s
  · next g rest _ => exact (wakes_resume _ g).imp fun s' hs' => (wakes_queue s q rest).trans hs'

theorem wakes_wakeAllLoop (q : QueueId) (queue : List FiberId) (s : State V E) :
    Leads (Wakes s) (State.wakeAllLoop q queue s) := by
  induction queue generalizing s with
  | nil => exact .refl s
  | cons g rest ih =>
      unfold State.wakeAllLoop
      have hresume := wakes_resume { s with queues := Function.update s.queues q rest } g
      cases hr : { s with queues := Function.update s.queues q rest }.resume g with
      | error fault => trivial
      | ok s' =>
          rw [hr] at hresume
          exact (ih s').imp fun s'' hs'' => ((wakes_queue s q rest).trans hresume).trans hs''

theorem wakes_set (s : State V E) (p : FutureId) (result : Result V E) : Leads (Wakes s) (s.set p result) := by
  have hset : Wakes s (s.setFuture p { s.futures p with result_ := some result }) :=
    ⟨.of_eq rfl rfl rfl rfl, rfl⟩
  exact (wakes_wake _ _).imp fun s' hs' => hset.trans hs'

/-! ### Where a fiber goes on -/

/-- Handle `k` is not joined, moved or detached. -/
def spares (k : HandleId) : Action V E → Bool
  | .call (.join h) => h != k
  | .call (.move h) => h != k
  | .call (.detach h) => h != k
  | _ => true

/-- Fiber `f` stays where it is, and its handler stays posted; or it is no longer in `Join` of `k`. -/
def Moves (f : FiberId) (k : HandleId) (s s' : State V E) : Prop :=
  Grows s s' ∧ (s'.pointOf f = s.pointOf f ∧ (f ∈ s.posted → f ∈ s'.posted) ∨ s'.pointOf f ≠ some (.join k))

theorem Stays.moves {s s' : State V E} (h : Stays s s') (f : FiberId) (k : HandleId) : Moves f k s s' :=
  ⟨h.toGrows, .inl ⟨h.point f, h.posted f⟩⟩

/-- A fiber changes, and will not go on in `Join` of `k` if it did not before. -/
theorem Stays.moves_update {s t : State V E} (h : Stays s t) (s' : State V E) {g : FiberId} {x : Option Fiber}
    {k : HandleId} (hfibers : s'.fibers = Function.update t.fibers g x) (hposted : ∀ g ∈ t.posted, g ∈ s'.posted)
    (hgrows : Grows t s') (hx : ∀ fiber', x = some fiber' → fiber'.point ≠ .join k) (f : FiberId) : Moves f k s s' := by
  refine ⟨h.toGrows.trans hgrows, ?_⟩
  by_cases hfg : f = g
  · right
    unfold State.pointOf
    rw [hfibers, hfg, Function.update_self]
    cases x with
    | none => exact nofun
    | some fiber' => exact fun heq => hx fiber' rfl (Option.some.inj heq)
  · left
    refine ⟨?_, fun hf => hposted f (h.posted f hf)⟩
    unfold State.pointOf
    rw [hfibers, Function.update_of_ne hfg]
    exact h.point f

/-- The caller parks at `point`, after the state has changed elsewhere. -/
theorem Stays.moves_suspend {s t : State V E} (h : Stays s t) {g : FiberId} (fiber : Fiber) {point : Point}
    {k : HandleId} (hpoint : point ≠ .join k) (f : FiberId) : Moves f k s (t.suspend g fiber point) := by
  refine h.moves_update (t.suspend g fiber point) rfl (fun _ => id) ⟨fun _ => id, Nat.le_refl _⟩ ?_ f
  rintro _ ⟨⟩
  exact hpoint

theorem call_moves {g : FiberId} {k : HandleId} {c : Call V E} (hspares : spares k (.call c : Action V E) = true)
    (hfiber : s.fibers g = some fiber) (hknown : f < s.nextId) {r : Except Fault (State V E)}
    (hr : call s g fiber c = some r) : Leads (Moves f k s) r := by
  cases c with
  | spawn =>
      cases hr
      rw [State.spawn_newHandle]
      exact ⟨⟨fun _ => id, Nat.le_succ _⟩, .inl ⟨State.pointOf_update _ (Nat.ne_of_lt hknown), List.mem_append_left _⟩⟩
  | yield =>
      cases hr
      -- it will go on in its routine
      refine (Stays.refl s).moves_update (s.switch g _) rfl (fun _ => id) ⟨fun _ => id, Nat.le_refl _⟩ ?_ f
      rintro _ ⟨⟩ ⟨⟩
  | sleepFor | park | get | operation =>
      cases hr
      apply Stays.moves_suspend
      · exact .of_eq rfl rfl rfl rfl
      · exact nofun
  | wakeOne q =>
      cases hr
      exact (wakes_wakeOne s q).imp fun s' hs' => hs'.moves f k
  | wakeAll q =>
      cases hr
      exact (wakes_wakeAllLoop q (s.queues q) s).imp fun s' hs' => hs'.moves f k
  | join h =>
      obtain ⟨handle, -, rfl⟩ := Option.map_eq_some_iff.mp hr
      have hne : h ≠ k := bne_iff_ne.mp hspares
      unfold State.join
      split
      · trivial
      · split
        · apply Stays.moves
          exact .of_eq rfl rfl rfl rfl
        · apply Stays.moves_suspend
          · exact .of_eq rfl rfl rfl rfl
          · exact fun heq => hne (Point.join.inj heq)
  | detach h =>
      obtain ⟨handle, -, rfl⟩ := Option.map_eq_some_iff.mp hr
      unfold State.detach
      split
      · trivial
      · apply (wakes_setWatcher s handle.fiber_ none).map
        intro t ht
        apply Stays.moves
        exact ht.toStays.trans (.of_eq rfl rfl rfl rfl)
  | move h =>
      obtain ⟨handle, -, rfl⟩ := Option.map_eq_some_iff.mp hr
      unfold State.move
      split
      · apply Stays.moves
        exact .of_eq rfl rfl rfl rfl
      · apply (wakes_setWatcher _ handle.fiber_ (some s.nextHandle)).imp
        intro t ht
        apply Stays.moves
        refine Stays.trans ?_ ht.toStays
        exact .of_eq rfl rfl rfl rfl
  | drop h =>
      obtain ⟨handle, -, rfl⟩ := Option.map_eq_some_iff.mp hr
      unfold State.drop
      split
      · apply Stays.moves
        exact .of_eq rfl rfl rfl rfl
      · trivial
  | set n result =>
      cases hr
      exact (wakes_set s _ result).imp fun s' hs' => hs'.moves f k
  | ret =>
      cases hr
      apply Stays.moves
      refine ⟨⟨fun _ => id, Nat.le_refl _⟩, fun _ => id, ?_⟩
      exact State.pointOf_setFiber hfiber { fiber with state_ := .terminated } rfl

theorem step_moves {g : FiberId} {rest : List FiberId} (hposted : s.posted = g :: rest) (f : FiberId) (k : HandleId) :
    Leads (Moves f k s) ({ s with posted := rest }.step g) := by
  unfold State.step
  split
  · trivial
  · next fiber hfiber =>
      -- the fiber that is switched to goes on in its routine
      have hmoves : ∀ {s' : State V E}, s'.fibers = Function.update s.fibers g
          (some { fiber with state_ := .running, point := .routine }) → s'.posted = rest → s'.destroyed = s.destroyed →
          s'.nextId = s.nextId → Moves f k s s' := by
        intro s' hfibers' hposted' hdestroyed' hnextId'
        refine ⟨⟨fun h hh => by rw [hdestroyed']; exact hh, Nat.le_of_eq hnextId'.symm⟩, ?_⟩
        unfold State.pointOf
        rw [hfibers']
        by_cases hfg : f = g
        · right
          rw [hfg, Function.update_self]
          exact nofun
        · left
          rw [Function.update_of_ne hfg]
          refine ⟨rfl, fun hf => ?_⟩
          rw [hposted] at hf
          rw [hposted']
          exact (List.mem_cons.mp hf).resolve_left hfg
      unfold State.goOn
      split
      · split
        · trivial
        · exact hmoves rfl rfl rfl rfl
      · exact hmoves rfl rfl rfl rfl
      · exact hmoves rfl rfl rfl rfl
      · exact hmoves rfl rfl rfl rfl
      · exact hmoves rfl rfl rfl rfl
      · exact hmoves rfl rfl rfl rfl

theorem event_moves {e : Event V E} {r : Except Fault (State V E)} (hr : event s e = some r) (f : FiberId)
    (k : HandleId) : Leads (Moves f k s) r := by
  cases e with
  | posted =>
      simp only [event] at hr
      split at hr
      · cases hr
      · next g rest hposted =>
          cases hr
          exact step_moves hposted f k
  | timer g =>
      simp only [event, Option.ite_none_right_eq_some, Option.some.injEq] at hr
      obtain ⟨-, rfl⟩ := hr
      apply (wakes_resume _ g).imp
      intro s' hs'
      apply Stays.moves
      refine Stays.trans ?_ hs'.toStays
      exact .of_eq rfl rfl rfl rfl
  | complete n result =>
      simp only [event, Option.ite_none_right_eq_some, Option.some.injEq] at hr
      obtain ⟨-, rfl⟩ := hr
      apply (wakes_set _ (.operation n) result).imp
      intro s' hs'
      apply Stays.moves
      refine Stays.trans ?_ hs'.toStays
      exact .of_eq rfl rfl rfl rfl
  | wakeOne q =>
      cases hr
      exact (wakes_wakeOne s q).imp fun s' hs' => hs'.moves f k
  | wakeAll q =>
      cases hr
      exact (wakes_wakeAllLoop q (s.queues q) s).imp fun s' hs' => hs'.moves f k
  | set n result =>
      cases hr
      exact (wakes_set s _ result).imp fun s' hs' => hs'.moves f k

theorem reschedule_moves (s : State V E) (g : FiberId) (f : FiberId) (k : HandleId) :
    Leads (Moves f k s) (s.reschedule g) := by
  have hdelete : ∀ {t : State V E}, Stays s t → Moves f k s (t.delete g) := by
    intro t ht
    exact ht.moves_update (t.delete g) rfl (fun _ => id) ⟨fun _ => List.mem_append_left _, Nat.le_refl _⟩ nofun f
  unfold State.reschedule
  split
  · trivial
  · next fiber hfiber =>
      split
      · -- `kRunnable`: it is posted behind the others
        exact ⟨⟨fun _ => id, Nat.le_refl _⟩, .inl ⟨rfl, List.mem_append_left _⟩⟩
      · exact (Stays.refl s).moves f k
      · unfold State.destroy
        split
        · exact hdelete (.refl s)
        · next h _ =>
            have hcompleted : Leads (Stays s) (s.onCompleted h) := by
              unfold State.onCompleted
              split
              · trivial
              · apply (wakes_wake _ _).imp
                intro t ht
                refine Stays.trans ?_ ht.toStays
                exact .of_eq rfl rfl rfl rfl
            exact hcompleted.map fun t => hdelete
      · trivial
      · trivial

/-- **A step leaves a fiber that is posted in `Join` where it is, or it is the one that takes it out.** -/
theorem next_moves {a : Action V E} {k : HandleId} (hspares : spares k a = true) (hknown : f < s.nextId)
    {s' : State V E} (hnext : next s a = some (.ok s')) : Moves f k s s' := by
  have hleads : ∀ {c : Except Fault (State V E)}, next s a = some c → Leads (Moves f k s) c := by
    intro c hc
    cases a with
    | call c =>
        simp only [next] at hc
        split at hc
        · obtain ⟨fiber, hfiber, hc⟩ := Option.bind_eq_some_iff.mp hc
          exact call_moves hspares hfiber hknown hc
        · cases hc
    | event e =>
        simp only [next] at hc
        split at hc
        · exact event_moves hc f k
        · cases hc
    | reschedule =>
        simp only [next] at hc
        split at hc
        · next g _ =>
            cases hc
            exact (reschedule_moves s g f k).map fun t ht => ⟨⟨ht.1.destroyed, ht.1.nextId⟩, ht.2⟩
        · cases hc
  exact hleads hnext

/-! ### A handle that a fiber waits in -/

/-- The operation leaves handle `k` as it is. -/
def Spared (k : HandleId) (s s' : State V E) : Prop := s'.handles k = s.handles k

theorem spared_setHandle {k k' : HandleId} (hne : k' ≠ k) (s : State V E) (handle : JoinHandle) :
    Spared k s (s.setHandle k' handle) := Function.update_of_ne hne.symm ..

theorem call_spared {g : FiberId} {k : HandleId} {handle : JoinHandle} {c : Call V E}
    (hspares : spares k (.call c : Action V E) = true) (hhandle : s.handles k = some handle)
    (hattached : handle.fiber_ ≠ none) (hknown : k < s.nextHandle) {r : Except Fault (State V E)}
    (hr : call s g fiber c = some r) : Leads (Spared k s) r := by
  have hnew : s.nextHandle ≠ k := Nat.ne_of_gt hknown
  cases c with
  | spawn =>
      cases hr
      rw [State.spawn_newHandle]
      exact Function.update_of_ne hnew.symm ..
  | yield | sleepFor | park | get | operation | ret =>
      cases hr
      rfl
  | wakeOne q =>
      cases hr
      exact (wakes_wakeOne s q).imp fun s' hs' => congrFun hs'.handles k
  | wakeAll q =>
      cases hr
      exact (wakes_wakeAllLoop q (s.queues q) s).imp fun s' hs' => congrFun hs'.handles k
  | set n result =>
      cases hr
      exact (wakes_set s _ result).imp fun s' hs' => congrFun hs'.handles k
  | join h =>
      obtain ⟨handle', -, rfl⟩ := Option.map_eq_some_iff.mp hr
      have hne : h ≠ k := bne_iff_ne.mp hspares
      unfold State.join
      split
      · trivial
      · split
        · exact spared_setHandle hne s _
        · exact spared_setHandle hne s _
  | detach h =>
      obtain ⟨handle', -, rfl⟩ := Option.map_eq_some_iff.mp hr
      have hne : h ≠ k := bne_iff_ne.mp hspares
      unfold State.detach
      split
      · trivial
      · apply (wakes_setWatcher s handle'.fiber_ none).map
        intro t ht
        exact (spared_setHandle hne t _).trans (congrFun ht.handles k)
  | move h =>
      obtain ⟨handle', -, rfl⟩ := Option.map_eq_some_iff.mp hr
      have hne : h ≠ k := bne_iff_ne.mp hspares
      have hmoved : ∀ moved left, Spared k s ((s.setHandle h left).setHandle s.nextHandle moved) := fun moved left =>
        (spared_setHandle hnew _ moved).trans (spared_setHandle hne s left)
      unfold State.move
      split
      · exact hmoved _ _
      · apply (wakes_setWatcher _ handle'.fiber_ (some s.nextHandle)).imp
        intro t ht
        exact (congrFun ht.handles k).trans (hmoved _ _)
  | drop h =>
      obtain ⟨handle', hhandle', rfl⟩ := Option.map_eq_some_iff.mp hr
      unfold State.drop
      split
      · next hnone =>
          -- a handle that a fiber waits in is attached
          have hne : h ≠ k := by
            rintro rfl
            obtain rfl := Option.some.inj (hhandle'.symm.trans hhandle)
            exact hattached hnone
          exact Function.update_of_ne hne.symm ..
      · trivial

theorem step_spared (h : s.Settled) {g : FiberId} {rest : List FiberId} (hposted : s.posted = g :: rest)
    {k : HandleId} {handle : JoinHandle} (hhandle : s.handles k = some handle)
    (hwatches : handle.completed_ = false) : Leads (Spared k s) ({ s with posted := rest }.step g) := by
  have hsched : Sched s.fibers s.posted s.control s.nextId := h.sched
  obtain ⟨fiber, hfiber, hready⟩ := hsched.ready g (by rw [hposted]; exact List.mem_cons_self)
  have hawake : fiber.state_ ≠ .suspended := by
    rcases hready with hready | hready <;> rw [hready] <;> exact nofun
  simp only [State.step, hfiber]
  cases hpoint : fiber.point with
  | start | routine | sleep | queue | get => rfl
  | join k' =>
      -- a fiber goes on in `Join` only once the handle is completed
      have hne : k' ≠ k := by
        rintro rfl
        have hdone := h.watch.joined g fiber k' handle hfiber hpoint hawake hhandle
        rw [hwatches] at hdone
        cases hdone
      simp only [State.goOn]
      split
      · trivial
      · exact spared_setHandle hne _ _

theorem event_spared (h : s.Settled) {k : HandleId} {handle : JoinHandle} (hhandle : s.handles k = some handle)
    (hwatches : handle.completed_ = false) {e : Event V E}
    {r : Except Fault (State V E)} (hr : event s e = some r) : Leads (Spared k s) r := by
  cases e with
  | posted =>
      simp only [event] at hr
      split at hr
      · cases hr
      · next g rest hposted =>
          cases hr
          exact step_spared h hposted hhandle hwatches
  | timer g =>
      simp only [event, Option.ite_none_right_eq_some, Option.some.injEq] at hr
      obtain ⟨-, rfl⟩ := hr
      exact (wakes_resume _ g).imp fun s' hs' => congrFun hs'.handles k
  | complete n result =>
      simp only [event, Option.ite_none_right_eq_some, Option.some.injEq] at hr
      obtain ⟨-, rfl⟩ := hr
      exact (wakes_set _ (.operation n) result).imp fun s' hs' => congrFun hs'.handles k
  | wakeOne q =>
      cases hr
      exact (wakes_wakeOne s q).imp fun s' hs' => congrFun hs'.handles k
  | wakeAll q =>
      cases hr
      exact (wakes_wakeAllLoop q (s.queues q) s).imp fun s' hs' => congrFun hs'.handles k
  | set n result =>
      cases hr
      exact (wakes_set s _ result).imp fun s' hs' => congrFun hs'.handles k

theorem reschedule_spared (h : s.Settled) {g g' : FiberId} (hne : g' ≠ g) {k : HandleId} {handle : JoinHandle}
    (hhandle : s.handles k = some handle) (hwatching : handle.fiber_ = some g) :
    Leads (Spared k s) (s.reschedule g') := by
  unfold State.reschedule
  split
  · trivial
  · next fiber hfiber =>
      split
      · rfl
      · rfl
      · unfold State.destroy
        split
        · rfl
        · next k' hwatcher =>
            -- the handle that watches `g'` is another one
            have hk : k' ≠ k := by
              rintro rfl
              obtain ⟨handle', hhandle', hfiber', -⟩ := h.watch.watched g' fiber k' hfiber hwatcher
              obtain rfl := Option.some.inj (hhandle'.symm.trans hhandle)
              exact hne (Option.some.inj (hfiber'.symm.trans hwatching))
            have hcompleted : Leads (Spared k s) (s.onCompleted k') := by
              unfold State.onCompleted
              split
              · trivial
              · apply (wakes_wake _ _).imp
                intro t ht
                exact (congrFun ht.handles k).trans (spared_setHandle hk s _)
            exact hcompleted.map fun t ht => ht
      · trivial
      · trivial

/-! ## The life of a `Join` -/

namespace State

/-- Fiber `f` is parked in `Join` of handle `k`, and fiber `g`, which the handle watches, is there. -/
structure JoinParked (s : State V E) (f : FiberId) (k : HandleId) (g : FiberId) : Prop where
  fiber : ∃ fiber, s.fibers f = some fiber ∧ fiber.state_ = .suspended ∧ fiber.point = .join k
  posted : f ∉ s.posted
  handle : s.handles k = some ⟨some g, false, ⟨some f⟩⟩
  watched : ∃ fiber, s.fibers g = some fiber ∧ fiber.watcher_ = some k
  alive : g ∉ s.destroyed

/-- Fiber `g` has returned and is destroyed, and fiber `f` has been resumed, once, to return from `Join` of `k`. -/
structure JoinResumed (s : State V E) (f : FiberId) (k : HandleId) (g : FiberId) : Prop where
  point : s.pointOf f = some (.join k)
  posted : s.posted.count f = 1
  finished : g ∈ s.finished
  destroyed : g ∈ s.destroyed

/-- Fiber `g` has returned and is destroyed, and fiber `f` is not in `Join` of `k`. -/
structure JoinReturned (s : State V E) (f : FiberId) (k : HandleId) (g : FiberId) : Prop where
  known : f < s.nextId
  point : s.pointOf f ≠ some (.join k)
  finished : g ∈ s.finished
  destroyed : g ∈ s.destroyed

end State

variable {k : HandleId} {g : FiberId}

theorem State.Settled.finished_of_destroyed (h : s.Settled) (hg : g ∈ s.destroyed) : g ∈ s.finished := by
  have hfinished := h.logs.finished
  show g ∈ (s.forget fun _ => false).finished
  rw [hfinished]
  exact List.mem_append_left _ hg

/-- **The handle says it all.** -/
theorem State.Settled.joinParked (h : s.Settled) (hhandle : s.handles k = some ⟨some g, false, ⟨some f⟩⟩) :
    s.JoinParked f k g := by
  have hrefers : (s.forget fun _ => false).Refers (.join k) f := ⟨_, hhandle, rfl, rfl⟩
  obtain ⟨fiber, hfiber, hsuspended, hpoint⟩ := h.refs (.join k) f hrefers
  obtain ⟨watched, hwatched, hwatcher⟩ := h.watch.watching k _ g hhandle rfl rfl
  refine ⟨⟨fiber, hfiber, hsuspended, hpoint⟩, ?_, hhandle, ⟨watched, hwatched, hwatcher⟩, fun hdestroyed => ?_⟩
  · exact h.sched.not_posted hfiber (by rw [hsuspended]; exact nofun) (by rw [hsuspended]; exact nofun)
  · have hgone := (h.logs.gone g hdestroyed).2
    rw [hwatched] at hgone
    cases hgone

theorem State.Settled.joinResumed (h : s.Settled) (hpoint : s.pointOf f = some (.join k)) (hf : f ∈ s.posted)
    (hg : g ∈ s.destroyed) : s.JoinResumed f k g :=
  ⟨hpoint, List.count_eq_one_of_mem h.sched.nodup hf, h.finished_of_destroyed hg, hg⟩

/-- **`~Fiber` of the watched fiber resumes the fiber that is parked in `Join`.** -/
theorem State.JoinParked.complete (hparked : s.JoinParked f k g) {s' : State V E} (h' : s'.Settled)
    (hs' : (s.reschedule g).map (fun s => { s with control := .loop }) = .ok s') :
    s'.handles k = s.handles k ∨ s'.JoinResumed f k g := by
  obtain ⟨watched, hwatched, hwatcher⟩ := hparked.watched
  obtain ⟨fiber, hfiber, hsuspended, hpoint⟩ := hparked.fiber
  simp only [State.reschedule, hwatched] at hs'
  cases hstate : watched.state_ with
  | starting | running =>
      simp only [hstate] at hs'
      cases hs'
  | runnable | suspended =>
      simp only [hstate] at hs'
      obtain rfl := Except.ok.inj hs'
      exact .inl rfl
  | terminated =>
      -- a fiber that waits for itself is parked, and does not get here
      have hfg : f ≠ g := by
        rintro rfl
        obtain rfl := Option.some.inj (hfiber.symm.trans hwatched)
        rw [hsuspended] at hstate
        cases hstate
      simp only [hstate, State.destroy, hwatcher, State.onCompleted, hparked.handle, State.wake] at hs'
      rw [State.resume_eq (s := s.setHandle k _) hfiber hsuspended] at hs'
      obtain rfl := Except.ok.inj hs'
      right
      apply h'.joinResumed
      · show Option.map Fiber.point (Function.update (Function.update s.fibers f _) g none f) = _
        rw [Function.update_of_ne hfg, Function.update_self, ← hpoint]
        rfl
      · exact List.mem_append_right _ (List.mem_singleton_self f)
      · exact List.mem_append_right _ (List.mem_singleton_self g)

/-- **Only the destruction of the watched fiber resumes a fiber that is parked in `Join`.** -/
theorem State.JoinParked.next (hparked : s.JoinParked f k g) (h : s.Settled) {a : Action V E}
    (ha : wakesParked s a = true) (hspares : spares k a = true) {s' : State V E}
    (hnext : Tinyfibers.next s a = some (.ok s')) :
    s'.JoinParked f k g ∨ a = .reschedule ∧ s.control = .back g ∧ s'.JoinResumed f k g := by
  have h' := h.next ha hnext
  have hhandle := hparked.handle
  have hkept : Spared k s s' → s'.JoinParked f k g := fun hspared => h'.joinParked (hspared.trans hhandle)
  have hknown : k < s.nextHandle := by
    by_contra hge
    rw [show s.handles k = none from h.watch.fresh k (Nat.le_of_not_lt hge)] at hhandle
    cases hhandle
  cases a with
  | call c =>
      simp only [Tinyfibers.next] at hnext
      split at hnext
      · obtain ⟨fiber, -, hr⟩ := Option.bind_eq_some_iff.mp hnext
        exact .inl (hkept (call_spared hspares hhandle (Option.some_ne_none g) hknown hr))
      · cases hnext
  | event e =>
      simp only [Tinyfibers.next] at hnext
      split at hnext
      · exact .inl (hkept (event_spared h hhandle rfl hnext))
      · cases hnext
  | reschedule =>
      simp only [Tinyfibers.next] at hnext
      split at hnext
      · next g' hcontrol =>
          have hr := Option.some.inj hnext
          by_cases hg : g' = g
          · rw [hg] at hr
            exact (hparked.complete h' hr).imp hkept fun hresumed => ⟨rfl, hg ▸ hcontrol, hresumed⟩
          · have hspared : Leads (Spared k s) ((s.reschedule g').map fun s => { s with control := .loop }) :=
              (reschedule_spared h hg hhandle rfl).map fun t ht => ht
            rw [hr] at hspared
            exact .inl (hkept hspared)
      · cases hnext

/-- A fiber that is posted in `Join` stays so until it goes on. -/
theorem State.JoinResumed.next (hresumed : s.JoinResumed f k g) (h : s.Settled) {a : Action V E}
    (ha : wakesParked s a = true) (hspares : spares k a = true) {s' : State V E}
    (hnext : Tinyfibers.next s a = some (.ok s')) : s'.JoinResumed f k g ∨ s'.JoinReturned f k g := by
  have h' := h.next ha hnext
  have hposted : f ∈ s.posted := List.count_pos_iff.mp (by rw [hresumed.posted]; exact Nat.one_pos)
  have hknown : f < s.nextId := by
    obtain ⟨fiber, hfiber, -⟩ := h.sched.ready f hposted
    by_contra hge
    rw [h.sched.fresh f (Nat.le_of_not_lt hge)] at hfiber
    cases hfiber
  obtain ⟨hgrows, hmoves⟩ := next_moves hspares hknown hnext
  have hg := hgrows.destroyed g hresumed.destroyed
  rcases hmoves with ⟨hpoint, hkept⟩ | hpoint
  · exact .inl (h'.joinResumed (hpoint.trans hresumed.point) (hkept hposted) hg)
  · exact .inr ⟨Nat.lt_of_lt_of_le hknown hgrows.nextId, hpoint, h'.finished_of_destroyed hg, hg⟩

/-- The handle is not joined again. -/
theorem State.JoinReturned.next (hreturned : s.JoinReturned f k g) (h : s.Settled) {a : Action V E}
    (ha : wakesParked s a = true) (hspares : spares k a = true) {s' : State V E}
    (hnext : Tinyfibers.next s a = some (.ok s')) : s'.JoinReturned f k g := by
  have h' := h.next ha hnext
  obtain ⟨hgrows, hmoves⟩ := next_moves hspares hreturned.known hnext
  have hg := hgrows.destroyed g hreturned.destroyed
  refine ⟨Nat.lt_of_lt_of_le hreturned.known hgrows.nextId, ?_, h'.finished_of_destroyed hg, hg⟩
  rcases hmoves with ⟨hpoint, -⟩ | hpoint
  · rw [hpoint]
    exact hreturned.point
  · exact hpoint

/-! ## All runs -/

/-- What becomes of fiber `f` in `Join` of `k`. -/
def State.InJoin (s : State V E) (f : FiberId) (k : HandleId) (g : FiberId) : Prop :=
  s.JoinParked f k g ∨ s.JoinResumed f k g ∨ s.JoinReturned f k g

/-- Along a run, and in front of each step that it can take. -/
theorem steps_inJoin {s₁ s : State V E} (h : s₁.Settled) (hjoin : s₁.InJoin f k g)
    (hsteps : (system fun s a => wakesParked s a && spares k a).Steps (.ok s₁) (.ok s)) :
    s.Settled ∧ s.InJoin f k g := by
  have hrun : ∀ {c : Except Fault (State V E)}, (system fun s a => wakesParked s a && spares k a).Steps (.ok s₁) c →
      Leads (fun s => s.Settled ∧ s.InJoin f k g) c := by
    intro c hc
    induction hc with
    | refl => exact ⟨h, hjoin⟩
    | @tail c c' _ hstep ih =>
        obtain ⟨a, ha, hnext⟩ := hstep
        cases c with
        | error fault => cases hnext
        | ok t =>
            cases c' with
            | error fault => trivial
            | ok t' =>
                obtain ⟨ht, hphase⟩ := ih
                obtain ⟨hparked, hspares⟩ := Bool.and_eq_true_iff.mp ha
                refine ⟨ht.next hparked hnext, ?_⟩
                rcases hphase with hphase | hphase | hphase
                · rcases hphase.next ht hparked hspares hnext with hphase' | ⟨-, -, hphase'⟩
                  · exact .inl hphase'
                  · exact .inr (.inl hphase')
                · exact .inr (hphase.next ht hparked hspares hnext)
                · exact .inr (.inr (hphase.next ht hparked hspares hnext))
  exact hrun hsteps

/-- Fiber `f` calls `Join` of handle `k`, which watches fiber `g`. If `g` is destroyed, the call returns at once. If
    it is not, `f` is parked; and whatever the program `ok` does then, other than join, move or detach the handle
    again, `f` is parked as long as `g` is there, the handler that destroys `g` is the only one that resumes it, and
    it goes on after that. -/
def JoinWaits (ok : State V E → Action V E → Bool) (s₀ : State V E) (f : FiberId) (k : HandleId) (g : FiberId) : Prop :=
  ∃ s₁, next s₀ (.call (.join k)) = some (.ok s₁) ∧
    (g ∈ s₀.destroyed → s₁.control = .fiber f ∧ s₁.fibers = s₀.fibers) ∧
    (g ∉ s₀.destroyed → s₁.JoinParked f k g ∧
      ∀ s, (system fun s a => ok s a && spares k a).Steps (.ok s₁) (.ok s) → s.InJoin f k g ∧
        ∀ a s', ok s a = true → spares k a = true → next s a = some (.ok s') → s.JoinParked f k g →
          s'.JoinParked f k g ∨ a = .reschedule ∧ s.control = .back g ∧ s'.JoinResumed f k g)

/-- **`Join` waits exactly for the end of the fiber it watches**, in every program each `Set` of which wakes a fiber
    that is parked in `Get` of that future, or nobody. -/
theorem join_waits {s₀ : State V E} (h₀ : (system wakesParked).Reachable (.ok s₀)) {f g : FiberId} {k : HandleId}
    {handle : JoinHandle} (hcontrol : s₀.control = .fiber f) (hhandle : s₀.handles k = some handle)
    (hattached : handle.fiber_ = some g) : JoinWaits wakesParked s₀ f k g := by
  have h : s₀.Settled := reachable_settled (fun _ _ hparked => hparked) h₀
  obtain ⟨fiber, hfiber, -⟩ := h.sched.running f hcontrol
  have hfiber₀ : s₀.fibers f = some fiber := hfiber
  have hcall : next s₀ (.call (.join k)) = some (s₀.join f fiber k handle) := by
    simp only [next, hcontrol, hfiber₀, Option.bind_some, call, hhandle, Option.map_some]
  have hjoin : s₀.join f fiber k handle = if handle.completed_ then .ok (s₀.setHandle k { handle with fiber_ := none })
      else .ok ((s₀.setHandle k { handle with waitee_ := ⟨some f⟩ }).suspend f fiber (.join k)) := by
    unfold State.join
    rw [if_neg (by rw [hattached]; exact Option.some_ne_none g)]
  -- the handle is completed exactly if the fiber is destroyed
  cases hdone : handle.completed_ with
  | true =>
      rw [hjoin, hdone] at hcall
      have hgone := h.watch.completed k handle g hhandle hattached hdone
      have hdestroyed := h.logs.lost g (h.watch.known k handle g hhandle hattached) hgone
      exact ⟨_, hcall, fun _ => ⟨hcontrol, rfl⟩, fun hnot => absurd hdestroyed hnot⟩
  | false =>
      rw [hjoin, hdone] at hcall
      obtain ⟨watched, hwatched, -⟩ := h.watch.watching k handle g hhandle hattached hdone
      have hnot : g ∉ s₀.destroyed := by
        intro hdestroyed
        have hgone := (h.logs.gone g hdestroyed).2
        rw [hwatched] at hgone
        cases hgone
      refine ⟨_, hcall, fun hdestroyed => absurd hdestroyed hnot, fun _ => ?_⟩
      have h₁ := h.next rfl hcall
      have hparked := h₁.joinParked (f := f) (k := k) (g := g) (by
        show Function.update s₀.handles k _ k = _
        rw [Function.update_self, hattached])
      refine ⟨hparked, fun s hsteps => ?_⟩
      obtain ⟨hs, hphase⟩ := steps_inJoin h₁ (.inl hparked) hsteps
      exact ⟨hphase, fun a s' ha hspares hnext hparked' => hparked'.next hs ha hspares hnext⟩

/-- Fiber 0 moves the handle of fiber 1, and calls `Join` of it while fiber 1 sleeps. -/
def moved : List (Action Unit Unit) :=
  [.event .posted, .call .spawn, .call (.move 0), .call .yield, .reschedule, .event .posted, .call .sleepFor, .reschedule,
    .event .posted]

theorem join_waits_moved : ∃ s₀ : State Unit Unit, (system wakesParked).Reachable (.ok s₀) ∧ s₀.control = .fiber 0 ∧
    JoinWaits wakesParked s₀ 0 1 1 := by
  have hrun : ∃ s : State Unit Unit, System.runWhile (meets wakesParked) step (.ok (initial Unit Unit)) moved =
      some (.ok s) ∧ s.control = .fiber 0 ∧ s.handles 1 = some { fiber_ := some 1 } := ⟨_, rfl, rfl, rfl⟩
  obtain ⟨s₀, hs₀, hcontrol, hhandle⟩ := hrun
  have hreach : (system wakesParked).Reachable (.ok s₀) := reachable_of_run moved hs₀
  exact ⟨s₀, hreach, hcontrol, join_waits hreach hcontrol hhandle rfl⟩

/-- Fiber 0 returns from `Get` of a future, and spawns fiber 1. -/
def spawned : List (Action Unit Unit) :=
  [.event .posted, .call (.get 0), .reschedule, .event (.set 0 (.ok ())), .event .posted, .call .spawn]

/-- Fiber 0 is parked in `Join`, fiber 1 sleeps, and the future is set again: `Join` returns. -/
def setAgain : List (Action Unit Unit) :=
  [.reschedule, .event .posted, .call .sleepFor, .reschedule, .event (.set 0 (.ok ())), .event .posted]

theorem join_overtaken : ¬ ∀ (s₀ : State Unit Unit) (f g : FiberId) (k : HandleId) (handle : JoinHandle),
    (system fun _ _ => true).Reachable (.ok s₀) → s₀.control = .fiber f → s₀.handles k = some handle →
      handle.fiber_ = some g → f ≠ g → JoinWaits (fun _ _ => true) s₀ f k g := by
  intro h
  have hrun : ∃ s₀ s₁ s : State Unit Unit,
      System.runWhile (meets fun _ _ => true) step (.ok (initial Unit Unit)) spawned = some (.ok s₀) ∧
        s₀.control = .fiber 0 ∧ s₀.handles 0 = some { fiber_ := some 1 } ∧ s₀.destroyed = [] ∧
        next s₀ (.call (.join 0)) = some (.ok s₁) ∧
        System.runWhile (meets fun _ a => true && spares 0 a) step (.ok s₁) setAgain = some (.ok s) ∧
        s.pointOf 0 = some .routine ∧ s.destroyed = [] :=
    ⟨_, _, _, rfl, rfl, rfl, rfl, rfl, rfl, rfl, rfl⟩
  obtain ⟨s₀, s₁, s, hs₀, hcontrol, hhandle, hnone, hs₁, hs, hpoint, hlive⟩ := hrun
  obtain ⟨t, ht, -, hwaits⟩ := h s₀ 0 1 0 _ (reachable_of_run spawned hs₀) hcontrol hhandle rfl nofun
  obtain rfl := Except.ok.inj (Option.some.inj (hs₁.symm.trans ht))
  obtain ⟨hphase, -⟩ := (hwaits (by rw [hnone]; exact List.not_mem_nil)).2 s
    (System.steps_of_runWhile (fun _ _ hok => hok) hs)
  rcases hphase with hparked | hresumed | hreturned
  · obtain ⟨fiber, hfiber, -, hjoin⟩ := hparked.fiber
    rw [State.pointOf_eq hfiber, hjoin] at hpoint
    cases hpoint
  · rw [hresumed.point] at hpoint
    cases hpoint
  · have hdestroyed := hreturned.destroyed
    rw [hlive] at hdestroyed
    cases hdestroyed

end Tinyfibers
end Tpcc
