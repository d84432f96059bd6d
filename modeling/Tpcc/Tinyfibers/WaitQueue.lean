import Mathlib.Data.List.Induction
import Tpcc.Tinyfibers.Join
import Tpcc.Transition.Loop
import Tpcc.Transition.Trace

/-!
# `Tinyfibers.WaitQueue` — parked fibers, in the order of their waking

`WaitQueue::Impl::Park`, `WakeOne` and `WakeAll`, over the runs of the scheduler in which no future is set twice.
What happens to the wait queues is noted along a run (`note`): who parked, who was woken, whose `Park` returned.

## Contents
- **What a step does** to the wait queues and the run queue: `Effect`, and one inversion lemma for all actions
  (`next_effect`).
- **The log.** `cycle`: where a fiber is in the life of a `Park`, read off the log alone.
- **Order.** `Links`: the log says of every queue and every fiber what the state says.
- **Waking**, and the loop of `WakeAll` as the source has it (`wakeAllWhile`).
-/

namespace Tpcc
namespace Tinyfibers

open Transition

variable {V E : Type} {s s' s'' : State V E} {f : FiberId} {fiber : Fiber}

/-! ## What a step does -/

/-- Fiber `f` is in `Park` of wait queue `q`. -/
def State.InPark (s : State V E) (f : FiberId) (q : QueueId) : Prop := s.pointOf f = some (.queue q)

/-- Handlers may be posted; the wait queues are as they were, and who is in `Park`. -/
structure Quiet (s s' : State V E) : Prop where
  posted : s.posted <+: s'.posted
  queues : s'.queues = s.queues
  inPark : ∀ f q, s'.InPark f q ↔ s.InPark f q

theorem Quiet.refl (s : State V E) : Quiet s s := ⟨List.prefix_rfl, rfl, fun _ _ => Iff.rfl⟩

theorem Quiet.trans (h : Quiet s s') (h' : Quiet s' s'') : Quiet s s'' :=
  ⟨h.posted.trans h'.posted, h'.queues.trans h.queues, fun f q => (h'.inPark f q).trans (h.inPark f q)⟩

/-- The state changes elsewhere. -/
theorem Quiet.of_eq {t : State V E} (hfibers : t.fibers = s.fibers) (hposted : t.posted = s.posted)
    (hqueues : t.queues = s.queues) : Quiet s t := by
  refine ⟨hposted ▸ List.prefix_rfl, hqueues, ?_⟩
  intro f q
  unfold State.InPark State.pointOf
  rw [hfibers]

/-- A fiber changes, or is made or destroyed, outside `Park`. -/
theorem Quiet.update {t : State V E} {x : Option Fiber} (h : Quiet s t)
    (hbefore : ∀ q, ¬ s.InPark f q) (hafter : ∀ q fiber', x = some fiber' → fiber'.point ≠ .queue q)
    (hfibers : s'.fibers = Function.update t.fibers f x) (hposted : s'.posted = t.posted)
    (hqueues : s'.queues = t.queues) : Quiet s s' := by
  refine ⟨hposted ▸ h.posted, hqueues.trans h.queues, ?_⟩
  intro g q
  unfold State.InPark State.pointOf
  rw [hfibers]
  by_cases hg : g = f
  · subst hg
    rw [Function.update_self]
    constructor
    · intro hpark
      obtain ⟨fiber', hx, hpoint⟩ := Option.map_eq_some_iff.mp hpark
      exact absurd hpoint (hafter q fiber' hx)
    · intro hpark
      exact absurd hpark (hbefore q)
  · rw [Function.update_of_ne hg]
    exact h.inPark g q

/-- A fiber changes, but not where it goes on. -/
theorem Quiet.setFiber (hfiber : s.fibers f = some fiber) {fiber' : Fiber} (hpoint : fiber'.point = fiber.point) :
    Quiet s (s.setFiber f fiber') := by
  refine ⟨List.prefix_rfl, rfl, ?_⟩
  intro g q
  unfold State.InPark
  rw [State.pointOf_setFiber hfiber fiber' hpoint]

theorem Quiet.schedule (s : State V E) (f : FiberId) : Quiet s (s.schedule f) :=
  ⟨List.prefix_append _ _, rfl, fun _ _ => Iff.rfl⟩

theorem quiet_resume (s : State V E) (f : FiberId) : Leads (Quiet s) (s.resume f) := by
  unfold State.resume
  split
  · trivial
  · next fiber hfiber =>
      split
      · have hstate : Quiet s (s.setFiber f { fiber with state_ := .runnable }) := .setFiber hfiber rfl
        exact hstate.trans (.schedule _ f)
      · trivial

theorem quiet_wake (s : State V E) (lot : ParkingLot) : Leads (Quiet s) (s.wake lot) := by
  unfold State.wake
  split
  · exact .refl s
  · exact quiet_resume s _

theorem quiet_setWatcher (s : State V E) (fiber_ : Option FiberId) (watcher : Option HandleId) :
    Leads (Quiet s) (s.setWatcher fiber_ watcher) := by
  unfold State.setWatcher
  split
  · trivial
  · split
    · trivial
    · next fiber hfiber => exact Quiet.setFiber hfiber rfl

theorem quiet_set (s : State V E) (p : FutureId) (result : Result V E) : Leads (Quiet s) (s.set p result) :=
  (quiet_wake _ _).imp fun _ h => (Quiet.of_eq rfl rfl rfl : Quiet s (s.setFuture p _)).trans h

theorem quiet_detach (s : State V E) (h : HandleId) (handle : JoinHandle) : Leads (Quiet s) (s.detach h handle) := by
  unfold State.detach
  split
  · trivial
  · exact (quiet_setWatcher s _ _).map fun _ hs => hs.trans (.of_eq rfl rfl rfl)

theorem quiet_move (s : State V E) (h : HandleId) (that : JoinHandle) : Leads (Quiet s) (s.move h that) := by
  have hmoved : Quiet s { (s.setHandle h { that with fiber_ := none }).setHandle s.nextHandle
      { fiber_ := that.fiber_, completed_ := that.completed_ } with nextHandle := s.nextHandle + 1 } :=
    .of_eq rfl rfl rfl
  unfold State.move
  split
  · exact hmoved
  · exact (quiet_setWatcher _ _ _).imp fun _ h => hmoved.trans h

theorem quiet_drop (s : State V E) (h : HandleId) (handle : JoinHandle) : Leads (Quiet s) (s.drop h handle) := by
  unfold State.drop
  split
  · exact .of_eq rfl rfl rfl
  · trivial

theorem quiet_onCompleted (s : State V E) (h : HandleId) : Leads (Quiet s) (s.onCompleted h) := by
  unfold State.onCompleted
  split
  · trivial
  · next handle _ =>
      exact (quiet_wake _ _).imp fun _ hs =>
        (Quiet.of_eq rfl rfl rfl : Quiet s (s.setHandle h { handle with completed_ := true })).trans hs

/-- A fiber outside `Park` is switched out, to go on outside `Park`. -/
theorem quiet_switch {t : State V E} (h : Quiet s t) (hbefore : ∀ q, ¬ s.InPark f q) {fiber' : Fiber}
    (hafter : ∀ q, fiber'.point ≠ .queue q) : Quiet s (t.switch f fiber') := by
  refine h.update (f := f) (x := some fiber') hbefore ?_ rfl rfl rfl
  rintro q _ ⟨⟩
  exact hafter q

/-- A fiber is suspended elsewhere. -/
theorem quiet_suspend {t : State V E} (h : Quiet s t) (hbefore : ∀ q, ¬ s.InPark f q) {point : Point}
    (hpoint : ∀ q, point ≠ .queue q) : Quiet s (t.suspend f fiber point) :=
  quiet_switch h hbefore hpoint

theorem quiet_join (hbefore : ∀ q, ¬ s.InPark f q) (h : HandleId) (handle : JoinHandle) :
    Leads (Quiet s) (s.join f fiber h handle) := by
  have hhandle : Quiet s (s.setHandle h { handle with waitee_ := ⟨some f⟩ }) := .of_eq rfl rfl rfl
  unfold State.join
  split
  · trivial
  · split
    · exact .of_eq rfl rfl rfl
    · exact quiet_suspend hhandle hbefore nofun

theorem quiet_get {t : State V E} (h : Quiet s t) (hbefore : ∀ q, ¬ s.InPark f q) (p : FutureId) :
    Quiet s (t.get f fiber p) := by
  have hfuture : Quiet t (t.setFuture p { t.futures p with wait_for_promise_ := ⟨some f⟩ }) := .of_eq rfl rfl rfl
  exact quiet_suspend (h.trans hfuture) hbefore nofun

theorem quiet_destroy (hbefore : ∀ q, ¬ s.InPark f q) : Leads (Quiet s) (s.destroy f fiber) := by
  have hdelete : ∀ t, Quiet s t → Quiet s (t.delete f) := by
    intro t h
    refine h.update (f := f) (x := none) hbefore ?_ rfl rfl rfl
    intro q fiber' hx
    cases hx
  unfold State.destroy
  split
  · exact hdelete s (.refl s)
  · exact (quiet_onCompleted s _).map hdelete

/-! ### The log -/

/-- What happens to a fiber in a wait queue. -/
inductive Link where
  | parked (q : QueueId) (f : FiberId)
  | woken (q : QueueId) (f : FiberId)
  | returned (q : QueueId) (f : FiberId)
  deriving DecidableEq

/-- The fibers that `WakeOne` pops, and those that `WakeAll` pops. -/
def notePopped (q : QueueId) (fs : List FiberId) : List Link := fs.map (.woken q)

/-- The fiber that goes on may return from `Park`. -/
def noteReturn (s : State V E) (f : FiberId) : List Link :=
  match s.pointOf f with
  | some (.queue q) => [.returned q f]
  | _ => []

/-- What happens to the wait queues in a step. -/
def note (s : State V E) : Action V E → List Link
  | .call (.park q) =>
      match s.control with
      | .fiber f => [.parked q f]
      | _ => []
  | .call (.wakeOne q) => notePopped q ((s.queues q).take 1)
  | .call (.wakeAll q) => notePopped q (s.queues q)
  | .event (.wakeOne q) => notePopped q ((s.queues q).take 1)
  | .event (.wakeAll q) => notePopped q (s.queues q)
  | .event .posted =>
      match s.posted with
      | f :: _ => noteReturn s f
      | [] => []
  | _ => []

/-- The fiber that a step of the run loop switches to. -/
def stepped (s : State V E) : Action V E → List FiberId
  | .event .posted => s.posted.take 1
  | _ => []

/-- The kinds of step, by what they do to the wait queues and the run queue. -/
inductive Effect (s : State V E) : State V E → List FiberId → List Link → Prop where
  | quiet {s' : State V E} (h : Quiet s s') : Effect s s' [] []
  | park {s' : State V E} (f : FiberId) (q : QueueId) (hcontrol : s.control = .fiber f)
      (hposted : s'.posted = s.posted) (hqueues : s'.queues = Function.update s.queues q (s.queues q ++ [f]))
      (hself : s'.InPark f q) (hothers : ∀ g p, g ≠ f → (s'.InPark g p ↔ s.InPark g p)) :
      Effect s s' [] [.parked q f]
  | wake {s' : State V E} (q : QueueId) (fs rest : List FiberId) (hsplit : s.queues q = fs ++ rest)
      (hposted : s'.posted = s.posted ++ fs) (hqueues : s'.queues = Function.update s.queues q rest)
      (hinPark : ∀ g p, s'.InPark g p ↔ s.InPark g p) : Effect s s' [] (notePopped q fs)
  | step {s' : State V E} (f : FiberId) (rest : List FiberId) (hsplit : s.posted = f :: rest)
      (hposted : s'.posted = rest) (hqueues : s'.queues = s.queues) (hself : ∀ p, ¬ s'.InPark f p)
      (hothers : ∀ g p, g ≠ f → (s'.InPark g p ↔ s.InPark g p)) : Effect s s' [f] (noteReturn s f)

/-! ### Waking -/

/-- The fibers `fs` leave the front of queue `q`, become runnable, and are posted in their order. -/
structure Pops (s : State V E) (q : QueueId) (fs rest : List FiberId) (s' : State V E) : Prop where
  posted : s'.posted = s.posted ++ fs
  queues : s'.queues = Function.update s.queues q rest
  runnable : ∀ g ∈ fs, ∃ fiber, s.fibers g = some fiber ∧ s'.fibers g = some { fiber with state_ := .runnable }
  others : ∀ g, g ∉ fs → s'.fibers g = s.fibers g

theorem Pops.pointOf {q : QueueId} {fs rest : List FiberId} (h : Pops s q fs rest s') (g : FiberId) :
    s'.pointOf g = s.pointOf g := by
  by_cases hg : g ∈ fs
  · obtain ⟨fiber, hfiber, hfiber'⟩ := h.runnable g hg
    rw [State.pointOf_eq hfiber, State.pointOf_eq hfiber']
  · unfold State.pointOf
    rw [h.others g hg]

theorem Pops.effect {q : QueueId} {fs rest : List FiberId} (h : Pops s q fs rest s') (hsplit : s.queues q = fs ++ rest) :
    Effect s s' [] (notePopped q fs) := by
  refine .wake q fs rest hsplit h.posted h.queues ?_
  intro g p
  unfold State.InPark
  rw [h.pointOf]

/-- `PopFront` and `Resume`, of a suspended fiber. -/
theorem pops_resume (hfiber : s.fibers f = some fiber) (hsuspended : fiber.state_ = .suspended) (q : QueueId)
    (rest : List FiberId) :
    ∃ s', ({ s with queues := Function.update s.queues q rest } : State V E).resume f = .ok s' ∧
      Pops s q [f] rest s' := by
  refine ⟨_, State.resume_eq hfiber hsuspended, rfl, rfl, ?_, ?_⟩
  · intro g hg
    obtain rfl := List.mem_singleton.mp hg
    exact ⟨fiber, hfiber, Function.update_self ..⟩
  · intro g hg
    exact Function.update_of_ne (fun heq => hg (List.mem_singleton.mpr heq)) ..

theorem Pops.cons {q : QueueId} {rest : List FiberId} (h : Pops s q [f] rest s') (h' : Pops s' q rest [] s'')
    (hnot : f ∉ rest) : Pops s q (f :: rest) [] s'' := by
  refine ⟨?_, ?_, ?_, ?_⟩
  · rw [h'.posted, h.posted, List.append_assoc]
    rfl
  · rw [h'.queues, h.queues, Function.update_idem]
  · intro g hg
    rcases List.mem_cons.mp hg with rfl | hg
    · rw [h'.others g hnot]
      exact h.runnable g List.mem_cons_self
    · have hgf : g ∉ [f] := by
        intro hmem
        exact hnot (List.mem_singleton.mp hmem ▸ hg)
      rw [← h.others g hgf]
      exact h'.runnable g hg
  · intro g hg
    obtain ⟨hgf, hg⟩ := not_or.mp (mt List.mem_cons.mpr hg)
    rw [h'.others g hg, h.others g (fun hmem => hgf (List.mem_singleton.mp hmem))]

/-- One turn of the loop of `WaitQueue::Impl::WakeAll`. -/
def wakeAllTurn (q : QueueId) (s : State V E) : Turn (State V E) (Except Fault (State V E)) :=
  match s.queues q with
  | [] => .done (.ok s)
  | f :: rest =>
      match ({ s with queues := Function.update s.queues q rest } : State V E).resume f with
      | .ok s' => .again s'
      | .error fault => .done (.error fault)

/-- `WaitQueue::Impl::WakeAll`, which looks at its queue again in each turn. -/
def wakeAllWhile (q : QueueId) (fuel : Nat) (s : State V E) : Option (Except Fault (State V E)) :=
  loop (wakeAllTurn q) fuel s

/-- **The loop of `WakeAll`.** It returns, and pops each fiber that was parked when it was called. -/
theorem wakeAllLoop_pops {q : QueueId} {fs : List FiberId} (hqueue : s.queues q = fs) (hnodup : fs.Nodup)
    (hsuspended : ∀ g ∈ fs, ∃ fiber, s.fibers g = some fiber ∧ fiber.state_ = .suspended) :
    ∃ s', State.wakeAllLoop q fs s = .ok s' ∧ Pops s q fs [] s' ∧
      ∀ fuel, fs.length < fuel → wakeAllWhile q fuel s = some (.ok s') := by
  induction fs generalizing s with
  | nil =>
      refine ⟨s, rfl, ⟨(List.append_nil _).symm, ?_, ?_, fun _ _ => rfl⟩, ?_⟩
      · rw [← hqueue, Function.update_eq_self]
      · intro g hg
        cases hg
      · intro fuel hfuel
        obtain ⟨fuel, rfl⟩ := Nat.exists_eq_add_of_le' hfuel
        exact loop_done (by simp only [wakeAllTurn, hqueue]) fuel
  | cons f rest ih =>
      obtain ⟨hnot, hnodup⟩ := List.nodup_cons.mp hnodup
      obtain ⟨fiber, hfiber, hstate⟩ := hsuspended f List.mem_cons_self
      obtain ⟨s₁, hs₁, hpop⟩ := pops_resume hfiber hstate q rest
      have hqueue₁ : s₁.queues q = rest := by rw [hpop.queues, Function.update_self]
      have hsuspended₁ : ∀ g ∈ rest, ∃ fiber, s₁.fibers g = some fiber ∧ fiber.state_ = .suspended := by
        intro g hg
        have hgf : g ∉ [f] := fun hmem => hnot (List.mem_singleton.mp hmem ▸ hg)
        rw [hpop.others g hgf]
        exact hsuspended g (List.mem_cons_of_mem f hg)
      obtain ⟨s', hs', hpops, hloop⟩ := ih hqueue₁ hnodup hsuspended₁
      refine ⟨s', ?_, hpop.cons hpops hnot, ?_⟩
      · rw [State.wakeAllLoop, hs₁]
        exact hs'
      · intro fuel hfuel
        obtain ⟨fuel, rfl⟩ := Nat.exists_eq_add_of_le' (Nat.one_le_of_lt hfuel)
        have hturn : wakeAllTurn q s = .again s₁ := by simp only [wakeAllTurn, hqueue, hs₁]
        exact (loop_again hturn fuel).trans (hloop fuel (Nat.lt_of_succ_lt_succ hfuel))

/-- Who is linked in a wait queue is suspended in its `Park`. -/
theorem Inv.linked (h : Inv s) {q : QueueId} (hf : f ∈ s.queues q) :
    (∃ fiber, s.fibers f = some fiber ∧ fiber.state_ = .suspended) ∧ s.InPark f q := by
  obtain ⟨fiber, hfiber, hsuspended, hpoint⟩ := h.refs (.queue q) f hf
  refine ⟨⟨fiber, hfiber, hsuspended⟩, ?_⟩
  rw [State.InPark, State.pointOf_eq hfiber, hpoint]

theorem Inv.wakeOne_pops (h : Inv s) {q : QueueId} {rest : List FiberId} (hqueue : s.queues q = f :: rest) :
    ∃ s', s.wakeOne q = .ok s' ∧ Pops s q [f] rest s' := by
  have hmem : f ∈ s.queues q := hqueue ▸ List.mem_cons_self
  obtain ⟨⟨fiber, hfiber, hsuspended⟩, -⟩ := h.linked hmem
  unfold State.wakeOne
  rw [hqueue]
  exact pops_resume hfiber hsuspended q rest

theorem Inv.wakeAll_pops (h : Inv s) (q : QueueId) :
    ∃ s', s.wakeAll q = .ok s' ∧ Pops s q (s.queues q) [] s' ∧
      ∀ fuel, (s.queues q).length < fuel → wakeAllWhile q fuel s = some (.ok s') :=
  wakeAllLoop_pops rfl (h.queues q) fun _ hg => (h.linked hg).1

/-- `WakeOne`, of a queue that may be empty. -/
theorem Inv.wakeOne_effect (h : Inv s) (q : QueueId) :
    Leads (fun s' => Effect s s' [] (notePopped q ((s.queues q).take 1))) (s.wakeOne q) := by
  cases hqueue : s.queues q with
  | nil =>
      unfold State.wakeOne
      rw [hqueue]
      exact .quiet (.refl s)
  | cons f rest =>
      obtain ⟨s', hs', hpops⟩ := h.wakeOne_pops hqueue
      rw [hs']
      exact hpops.effect hqueue

theorem Inv.wakeAll_effect (h : Inv s) (q : QueueId) :
    Leads (fun s' => Effect s s' [] (notePopped q (s.queues q))) (s.wakeAll q) := by
  obtain ⟨s', hs', hpops, -⟩ := h.wakeAll_pops q
  rw [hs']
  exact hpops.effect (List.append_nil _).symm

/-! ### All steps -/

/-- Who is in `Park` is linked in its queue, or woken and posted. -/
def State.Awaits (s : State V E) : Prop := ∀ f q, s.InPark f q → f ∈ s.queues q ∨ f ∈ s.posted

/-- A fiber that is neither suspended nor posted is not in `Park`. -/
theorem Inv.not_inPark (h : Inv s) (hawaits : s.Awaits) (hfiber : s.fibers f = some fiber)
    (hstate : fiber.state_ ≠ .suspended) (hposted : f ∉ s.posted) (q : QueueId) : ¬ s.InPark f q := by
  intro hpark
  rcases hawaits f q hpark with hlinked | hmem
  · obtain ⟨⟨fiber', hfiber', hsuspended⟩, -⟩ := h.linked hlinked
    obtain rfl := Option.some.inj (hfiber.symm.trans hfiber')
    exact hstate hsuspended
  · exact hposted hmem

theorem Inv.call_effect (h : Inv s) (hawaits : s.Awaits) (hcontrol : s.control = .fiber f)
    (hfiber : s.fibers f = some fiber) {c : Call V E} {r : Except Fault (State V E)}
    (hr : Tinyfibers.call s f fiber c = some r) : Leads (fun s' => Effect s s' [] (note s (.call c))) r := by
  have hrunning := h.running hcontrol hfiber
  have hnot : ∀ q, ¬ s.InPark f q := by
    apply h.not_inPark hawaits hfiber
    · rw [hrunning]
      exact FiberState.noConfusion
    · apply h.sched.not_posted hfiber <;> rw [hrunning] <;> exact FiberState.noConfusion
  cases c with
  | spawn =>
      cases hr
      rw [State.spawn_newHandle]
      have hnone := h.sched.fresh s.nextId (Nat.le_refl _)
      have hposted : Quiet s { s with posted := s.posted ++ [s.nextId] } :=
        ⟨List.prefix_append _ _, rfl, fun _ _ => Iff.rfl⟩
      refine Effect.quiet (hposted.update (f := s.nextId) ?_ ?_ rfl rfl rfl)
      · intro q hq
        rw [State.InPark, State.pointOf, hnone] at hq
        cases hq
      · rintro q _ ⟨⟩ hq
        cases hq
  | yield =>
      cases hr
      exact .quiet (quiet_switch (.refl s) hnot nofun)
  | sleepFor =>
      cases hr
      have htimers : Quiet s { s with timers := f :: s.timers } := .of_eq rfl rfl rfl
      exact .quiet (quiet_suspend htimers hnot nofun)
  | park q =>
      cases hr
      simp only [note, hcontrol]
      refine .park f q hcontrol rfl rfl ?_ ?_
      · show Option.map Fiber.point (Function.update s.fibers f _ f) = _
        rw [Function.update_self]
        rfl
      · intro g p hgf
        show Option.map Fiber.point (Function.update s.fibers f _ g) = _ ↔ _
        rw [State.pointOf_update _ hgf]
        exact Iff.rfl
  | wakeOne q =>
      cases hr
      exact h.wakeOne_effect q
  | wakeAll q =>
      cases hr
      exact h.wakeAll_effect q
  | join k =>
      obtain ⟨handle, hhandle, rfl⟩ := Option.map_eq_some_iff.mp hr
      exact (quiet_join hnot k handle).imp fun _ => .quiet
  | detach k =>
      obtain ⟨handle, hhandle, rfl⟩ := Option.map_eq_some_iff.mp hr
      exact (quiet_detach s k handle).imp fun _ => .quiet
  | move k =>
      obtain ⟨handle, hhandle, rfl⟩ := Option.map_eq_some_iff.mp hr
      exact (quiet_move s k handle).imp fun _ => .quiet
  | drop k =>
      obtain ⟨handle, hhandle, rfl⟩ := Option.map_eq_some_iff.mp hr
      exact (quiet_drop s k handle).imp fun _ => .quiet
  | get n =>
      cases hr
      exact .quiet (quiet_get (.refl s) hnot _)
  | set n result =>
      cases hr
      exact (quiet_set s _ result).imp fun _ => .quiet
  | operation =>
      cases hr
      have hoperations : Quiet s { s with
          operations := s.nextOperation :: s.operations, nextOperation := s.nextOperation + 1 } := .of_eq rfl rfl rfl
      exact .quiet (quiet_get hoperations hnot _)
  | ret =>
      cases hr
      have hswitch : Quiet s (s.switch f { fiber with state_ := .terminated }) := by
        apply quiet_switch (.refl s) hnot
        intro q hq
        apply hnot q
        rw [State.InPark, State.pointOf_eq hfiber]
        exact congrArg some hq
      exact .quiet (hswitch.trans (.of_eq rfl rfl rfl))

/-- The next posted handler. -/
theorem step_effect {rest : List FiberId} (hsplit : s.posted = f :: rest) :
    Leads (fun s' => Effect s s' [f] (noteReturn s f)) ({ s with posted := rest }.step f) := by
  unfold State.step
  split
  · trivial
  · next fiber hfiber =>
      -- the fiber goes on in its routine, whatever it returns from
      have heffect : ∀ s' : State V E, s'.fibers = Function.update s.fibers f
          (some { fiber with state_ := .running, point := .routine }) → s'.posted = rest → s'.queues = s.queues →
          Effect s s' [f] (noteReturn s f) := by
        intro s' hfibers hposted hqueues
        refine .step f rest hsplit hposted hqueues ?_ ?_
        · intro p hp
          rw [State.InPark, State.pointOf, hfibers, Function.update_self] at hp
          cases hp
        · intro g p hgf
          unfold State.InPark State.pointOf
          rw [hfibers, Function.update_of_ne hgf]
      cases hpoint : fiber.point with
      | join k =>
          simp only [State.goOn]
          split
          · trivial
          · exact heffect _ rfl rfl rfl
      | start => exact heffect _ rfl rfl rfl
      | routine => exact heffect _ rfl rfl rfl
      | sleep => exact heffect _ rfl rfl rfl
      | queue q => exact heffect _ rfl rfl rfl
      | get p => exact heffect _ rfl rfl rfl

theorem Inv.event_effect (h : Inv s) {e : Event V E} {r : Except Fault (State V E)}
    (hr : Tinyfibers.event s e = some r) :
    Leads (fun s' => Effect s s' (stepped s (.event e)) (note s (.event e))) r := by
  cases e with
  | posted =>
      simp only [Tinyfibers.event] at hr
      split at hr
      · cases hr
      · next f rest hsplit =>
          cases hr
          simp only [stepped, note, hsplit]
          exact step_effect hsplit
  | timer f =>
      simp only [Tinyfibers.event, Option.ite_none_right_eq_some, Option.some.injEq] at hr
      obtain ⟨-, rfl⟩ := hr
      have htimers : Quiet s { s with timers := s.timers.erase f } := .of_eq rfl rfl rfl
      exact (quiet_resume _ f).imp fun _ hs => .quiet (htimers.trans hs)
  | complete n result =>
      simp only [Tinyfibers.event, Option.ite_none_right_eq_some, Option.some.injEq] at hr
      obtain ⟨-, rfl⟩ := hr
      have hoperations : Quiet s { s with operations := s.operations.erase n } := .of_eq rfl rfl rfl
      exact (quiet_set _ _ result).imp fun _ hs => .quiet (hoperations.trans hs)
  | wakeOne q =>
      cases hr
      exact h.wakeOne_effect q
  | wakeAll q =>
      cases hr
      exact h.wakeAll_effect q
  | set n result =>
      cases hr
      exact (quiet_set s _ result).imp fun _ => .quiet

theorem Inv.reschedule_effect (h : Inv s) (hawaits : s.Awaits) (hcontrol : s.control = .back f) :
    Leads (Quiet s) (s.reschedule f) := by
  obtain ⟨hposted, -⟩ := h.sched.back f hcontrol
  unfold State.reschedule
  split
  · trivial
  · next fiber hfiber =>
      split
      · exact .schedule s f
      · exact .refl s
      · next hstate =>
          apply quiet_destroy
          apply h.not_inPark hawaits hfiber _ hposted
          rw [hstate]
          exact FiberState.noConfusion
      · trivial
      · trivial

/-- **What a step does.** -/
theorem Inv.next_effect (h : Inv s) (hawaits : s.Awaits) {a : Action V E}
    (hnext : Tinyfibers.next s a = some (.ok s')) : Effect s s' (stepped s a) (note s a) := by
  cases a with
  | call c =>
      simp only [Tinyfibers.next] at hnext
      split at hnext
      · next f hcontrol =>
          obtain ⟨fiber, hfiber, hr⟩ := Option.bind_eq_some_iff.mp hnext
          exact h.call_effect hawaits hcontrol hfiber hr
      · cases hnext
  | event e =>
      simp only [Tinyfibers.next] at hnext
      split at hnext
      · exact h.event_effect hnext
      · cases hnext
  | reschedule =>
      simp only [Tinyfibers.next] at hnext
      split at hnext
      · next f hcontrol =>
          have hquiet : Leads (Quiet s) ((s.reschedule f).map fun s => { s with control := .loop }) :=
            (h.reschedule_effect hawaits hcontrol).map fun _ hs => hs.trans (.of_eq rfl rfl rfl)
          rw [Option.some.inj hnext] at hquiet
          exact .quiet hquiet
      · cases hnext

/-! ## The log -/

/-- Where a fiber is in the life of a `Park`. -/
inductive Phase where
  /-- In no `Park`. -/
  | out
  /-- Linked in queue `q`. -/
  | linked (q : QueueId)
  /-- Popped from queue `q`, and not back from `Park`. -/
  | woken (q : QueueId)
  deriving DecidableEq

/-- Park, wake, return: fiber `f` does each once, from the same queue. -/
def advance (f : FiberId) (p : Phase) : Link → Option Phase
  | .parked q g => if g = f then if p = .out then some (.linked q) else none else some p
  | .woken q g => if g = f then if p = .linked q then some (.woken q) else none else some p
  | .returned q g => if g = f then if p = .woken q then some .out else none else some p

/-- Where a log leaves fiber `f`; `none` if it is not the log of a life. -/
def cycle (f : FiberId) (log : List Link) : Option Phase := log.foldlM (advance f) .out

/-- The fibers that have parked on queue `q`, and those that have been popped from it, in order. -/
def parkedOn (q : QueueId) (log : List Link) : List FiberId :=
  log.filterMap fun
    | .parked p f => if p = q then some f else none
    | _ => none

def poppedFrom (q : QueueId) (log : List Link) : List FiberId :=
  log.filterMap fun
    | .woken p f => if p = q then some f else none
    | _ => none

variable {log es : List Link} {p : Phase} {q : QueueId}

theorem cycle_append (h : cycle f log = some p) : cycle f (log ++ es) = es.foldlM (advance f) p := by
  rw [cycle, List.foldlM_append]
  exact (congrArg (· >>= fun p => es.foldlM (advance f) p) h).trans (Option.bind_some ..)

theorem cycle_snoc {e : Link} (h : cycle f log = some p) : cycle f (log ++ [e]) = advance f p e := by
  rw [cycle_append h, List.foldlM_cons]
  exact bind_pure _

/-- The pops of other fibers. -/
theorem foldlM_notePopped_of_not_mem {fs : List FiberId} (hf : f ∉ fs) :
    (notePopped q fs).foldlM (advance f) p = some p := by
  induction fs with
  | nil => rfl
  | cons g fs ih =>
      obtain ⟨hne, hf⟩ := not_or.mp (mt List.mem_cons.mpr hf)
      have hadvance : advance f p (.woken q g) = some p := if_neg (Ne.symm hne)
      rw [notePopped, List.map_cons, List.foldlM_cons, hadvance]
      exact ih hf

/-- Fiber `f` is popped, once. -/
theorem foldlM_notePopped_of_mem {fs : List FiberId} (hf : f ∈ fs) (hnodup : fs.Nodup) :
    (notePopped q fs).foldlM (advance f) (.linked q) = some (.woken q) := by
  induction fs with
  | nil => cases hf
  | cons g fs ih =>
      obtain ⟨hnot, hnodup⟩ := List.nodup_cons.mp hnodup
      rw [notePopped, List.map_cons, List.foldlM_cons]
      rcases List.mem_cons.mp hf with rfl | hf
      · have hadvance : advance f (.linked q) (.woken q f) = some (.woken q) := by simp [advance]
        rw [hadvance]
        exact foldlM_notePopped_of_not_mem hnot
      · have hne : g ≠ f := by
          rintro rfl
          exact hnot hf
        have hadvance : advance f (.linked q) (.woken q g) = some (.linked q) := if_neg hne
        rw [hadvance]
        exact ih hf hnodup

/-- Each wake of a fiber lets one `Park` return. -/
theorem count_woken (h : cycle f log = some p) (q : QueueId) :
    log.count (.woken q f) = log.count (.returned q f) + if p = .woken q then 1 else 0 := by
  induction log using List.reverseRecOn generalizing p with
  | nil =>
      cases h
      rfl
  | append_singleton log e ih =>
      cases hlog : cycle f log with
      | none =>
          rw [cycle, List.foldlM_append] at h
          rw [show log.foldlM (advance f) .out = none from hlog] at h
          cases h
      | some p₀ =>
          have hcount := ih hlog
          rw [cycle_snoc hlog] at h
          rw [List.count_append, List.count_append, hcount]
          cases e with
          | parked q' g => grind [advance]
          | woken q' g => grind [advance]
          | returned q' g => grind [advance]

theorem parkedOn_append (q : QueueId) (log es : List Link) :
    parkedOn q (log ++ es) = parkedOn q log ++ parkedOn q es := List.filterMap_append

theorem poppedFrom_append (q : QueueId) (log es : List Link) :
    poppedFrom q (log ++ es) = poppedFrom q log ++ poppedFrom q es := List.filterMap_append

theorem parkedOn_notePopped (q p : QueueId) (fs : List FiberId) : parkedOn p (notePopped q fs) = [] := by
  induction fs with
  | nil => rfl
  | cons f fs ih => exact ih

theorem poppedFrom_notePopped (q p : QueueId) (fs : List FiberId) :
    poppedFrom p (notePopped q fs) = if q = p then fs else [] := by
  induction fs with
  | nil => simp [notePopped, poppedFrom]
  | cons f fs ih =>
      unfold poppedFrom notePopped at ih ⊢
      rw [List.map_cons, List.filterMap_cons, ih]
      split <;> simp_all

/-! ## Order -/

/-- The log says what the state says. -/
structure Links (s : State V E) (log : List Link) : Prop where
  order : ∀ q, parkedOn q log = poppedFrom q log ++ s.queues q
  out : ∀ f, (∀ q, ¬ s.InPark f q) → cycle f log = some .out
  linked : ∀ f q, f ∈ s.queues q → cycle f log = some (.linked q)
  woken : ∀ f q, s.InPark f q → f ∉ s.queues q → cycle f log = some (.woken q)
  awaits : s.Awaits

theorem inPark_unique {q q' : QueueId} (h : s.InPark f q) (h' : s.InPark f q') : q = q' := by
  cases h.symm.trans h'
  rfl

theorem Links.quiet (l : Links s log) (hquiet : Quiet s s') : Links s' (log ++ []) := by
  rw [List.append_nil]
  refine ⟨?_, ?_, ?_, ?_, ?_⟩
  · intro q
    rw [hquiet.queues]
    exact l.order q
  · intro f hout
    exact l.out f fun q hpark => hout q ((hquiet.inPark f q).mpr hpark)
  · intro f q hf
    rw [hquiet.queues] at hf
    exact l.linked f q hf
  · intro f q hpark hnot
    rw [hquiet.queues] at hnot
    exact l.woken f q ((hquiet.inPark f q).mp hpark) hnot
  · intro f q hpark
    rw [hquiet.queues]
    exact (l.awaits f q ((hquiet.inPark f q).mp hpark)).imp_right fun hf => hquiet.posted.subset hf

/-- Fiber `f` parks on queue `q`. -/
theorem Links.park (l : Links s log) (h : Inv s) (hnot : ∀ p, ¬ s.InPark f p) {q : QueueId}
    (hposted : s'.posted = s.posted) (hqueues : s'.queues = Function.update s.queues q (s.queues q ++ [f]))
    (hself : s'.InPark f q) (hothers : ∀ g p, g ≠ f → (s'.InPark g p ↔ s.InPark g p)) :
    Links s' (log ++ [.parked q f]) := by
  have hcycle : cycle f (log ++ [.parked q f]) = some (.linked q) := by
    rw [cycle_snoc (l.out f hnot)]
    simp [advance]
  have hcycles : ∀ {g p}, g ≠ f → cycle g log = some p → cycle g (log ++ [.parked q f]) = some p := by
    intro g p hgf hp
    rw [cycle_snoc hp]
    exact if_neg (Ne.symm hgf)
  have hmem : ∀ {g p}, g ∈ s'.queues p ↔ g ∈ s.queues p ∨ p = q ∧ g = f := by
    intro g p
    rw [hqueues]
    by_cases hp : p = q
    · subst hp
      simp [Function.update_self]
    · simp [hp]
  refine ⟨?_, ?_, ?_, ?_, ?_⟩
  · intro p
    rw [parkedOn_append, poppedFrom_append, l.order p, hqueues]
    by_cases hp : p = q
    · subst hp
      simp [parkedOn, poppedFrom, Function.update_self]
    · simp [parkedOn, poppedFrom, Function.update_of_ne hp, Ne.symm hp]
  · intro g hout
    have hgf : g ≠ f := by
      rintro rfl
      exact hout q hself
    exact hcycles hgf (l.out g fun p hpark => hout p ((hothers g p hgf).mpr hpark))
  · intro g p hg
    by_cases hgf : g = f
    · subst hgf
      rcases hmem.mp hg with hg | ⟨rfl, -⟩
      · exact absurd (h.linked hg).2 (hnot p)
      · exact hcycle
    · have hg' := (hmem.mp hg).resolve_right fun heq => hgf heq.2
      exact hcycles hgf (l.linked g p hg')
  · intro g p hpark hg
    have hgf : g ≠ f := by
      rintro rfl
      exact hg (hmem.mpr (.inr ⟨inPark_unique hpark hself, rfl⟩))
    exact hcycles hgf (l.woken g p ((hothers g p hgf).mp hpark) fun hg' => hg (hmem.mpr (.inl hg')))
  · intro g p hpark
    rw [hposted]
    by_cases hgf : g = f
    · subst hgf
      exact .inl (hmem.mpr (.inr ⟨inPark_unique hpark hself, rfl⟩))
    · exact (l.awaits g p ((hothers g p hgf).mp hpark)).imp_left fun hg => hmem.mpr (.inl hg)

/-- The fibers `fs` are popped from the front of queue `q`. -/
theorem Links.wake (l : Links s log) (h : Inv s) {q : QueueId} {fs rest : List FiberId}
    (hsplit : s.queues q = fs ++ rest) (hposted : s'.posted = s.posted ++ fs)
    (hqueues : s'.queues = Function.update s.queues q rest) (hinPark : ∀ g p, s'.InPark g p ↔ s.InPark g p) :
    Links s' (log ++ notePopped q fs) := by
  have hnodup := h.queues q
  rw [hsplit] at hnodup
  obtain ⟨hnodupFs, -, hdisjoint⟩ := List.nodup_append.mp hnodup
  have hfs : ∀ {g}, g ∈ fs → g ∈ s.queues q := fun hg => hsplit ▸ List.mem_append_left _ hg
  have hcycles : ∀ {g p}, g ∉ fs → cycle g log = some p → cycle g (log ++ notePopped q fs) = some p := by
    intro g p hg hp
    rw [cycle_append hp]
    exact foldlM_notePopped_of_not_mem hg
  -- a fiber that is still linked is not among those popped
  have hstays : ∀ {g p}, g ∈ s'.queues p → g ∈ s.queues p ∧ g ∉ fs := by
    intro g p hg
    rw [hqueues] at hg
    by_cases hp : p = q
    · subst hp
      rw [Function.update_self] at hg
      exact ⟨hsplit ▸ List.mem_append_right _ hg, fun hg' => hdisjoint g hg' g hg rfl⟩
    · rw [Function.update_of_ne hp] at hg
      exact ⟨hg, fun hg' => hp (inPark_unique (h.linked hg).2 (h.linked (hfs hg')).2)⟩
  have hleaves : ∀ {g p}, g ∈ s.queues p → g ∉ fs → g ∈ s'.queues p := by
    intro g p hg hnot
    rw [hqueues]
    by_cases hp : p = q
    · subst hp
      rw [Function.update_self]
      rw [hsplit] at hg
      exact (List.mem_append.mp hg).resolve_left hnot
    · rwa [Function.update_of_ne hp]
  refine ⟨?_, ?_, ?_, ?_, ?_⟩
  · intro p
    rw [parkedOn_append, poppedFrom_append, parkedOn_notePopped, poppedFrom_notePopped, l.order p, hqueues]
    by_cases hp : p = q
    · subst hp
      simp [Function.update_self, hsplit]
    · simp [Function.update_of_ne hp, Ne.symm hp]
  · intro g hout
    have hg : g ∉ fs := fun hg => hout q ((hinPark g q).mpr (h.linked (hfs hg)).2)
    exact hcycles hg (l.out g fun p hpark => hout p ((hinPark g p).mpr hpark))
  · intro g p hg
    obtain ⟨hg, hnot⟩ := hstays hg
    exact hcycles hnot (l.linked g p hg)
  · intro g p hpark hnot
    have hpark := (hinPark g p).mp hpark
    by_cases hg : g ∈ fs
    · obtain rfl := inPark_unique hpark (h.linked (hfs hg)).2
      rw [cycle_append (l.linked g p (hfs hg))]
      exact foldlM_notePopped_of_mem hg hnodupFs
    · exact hcycles hg (l.woken g p hpark fun hlinked => hnot (hleaves hlinked hg))
  · intro g p hpark
    rw [hposted]
    by_cases hg : g ∈ fs
    · exact .inr (List.mem_append_right _ hg)
    · rcases l.awaits g p ((hinPark g p).mp hpark) with hlinked | hmem
      · exact .inl (hleaves hlinked hg)
      · exact .inr (List.mem_append_left _ hmem)

/-- A posted fiber goes on, and returns from its `Park` if it is in one. -/
theorem Links.step (l : Links s log) (h : Inv s) {rest : List FiberId} (hsplit : s.posted = f :: rest)
    (hposted : s'.posted = rest) (hqueues : s'.queues = s.queues) (hself : ∀ p, ¬ s'.InPark f p)
    (hothers : ∀ g p, g ≠ f → (s'.InPark g p ↔ s.InPark g p)) : Links s' (log ++ noteReturn s f) := by
  obtain ⟨fiber, hfiber, hready⟩ := h.sched.ready f (hsplit ▸ List.mem_cons_self)
  have hnot : ∀ q, f ∉ s.queues q := by
    intro q hf
    obtain ⟨⟨fiber', hfiber', hsuspended⟩, -⟩ := h.linked hf
    obtain rfl := Option.some.inj (hfiber.symm.trans hfiber')
    rw [hsuspended] at hready
    rcases hready with hready | hready <;> cases hready
  have hcycle : cycle f (log ++ noteReturn s f) = some .out := by
    unfold noteReturn
    split
    · next q hpark =>
        rw [cycle_snoc (l.woken f q hpark (hnot q))]
        simp [advance]
    · next hout =>
        rw [List.append_nil]
        exact l.out f hout
  have hcycles : ∀ {g p}, g ≠ f → cycle g log = some p → cycle g (log ++ noteReturn s f) = some p := by
    intro g p hgf hp
    unfold noteReturn
    split
    · rw [cycle_snoc hp]
      exact if_neg (Ne.symm hgf)
    · rwa [List.append_nil]
  have hne : ∀ {g q}, s'.InPark g q → g ≠ f := by
    rintro g q hpark rfl
    exact hself q hpark
  refine ⟨?_, ?_, ?_, ?_, ?_⟩
  · intro q
    rw [parkedOn_append, poppedFrom_append, hqueues, l.order q]
    unfold noteReturn
    split <;> simp [parkedOn, poppedFrom]
  · intro g hout
    by_cases hgf : g = f
    · exact hgf ▸ hcycle
    · exact hcycles hgf (l.out g fun p hpark => hout p ((hothers g p hgf).mpr hpark))
  · intro g q hg
    rw [hqueues] at hg
    have hgf : g ≠ f := by
      rintro rfl
      exact hnot q hg
    exact hcycles hgf (l.linked g q hg)
  · intro g q hpark hg
    rw [hqueues] at hg
    have hgf := hne hpark
    exact hcycles hgf (l.woken g q ((hothers g q hgf).mp hpark) hg)
  · intro g q hpark
    have hgf := hne hpark
    rw [hqueues, hposted]
    rcases l.awaits g q ((hothers g q hgf).mp hpark) with hlinked | hmem
    · exact .inl hlinked
    · rw [hsplit] at hmem
      exact .inr ((List.mem_cons.mp hmem).resolve_left hgf)

/-- **Every step keeps the log.** -/
theorem Links.next (l : Links s log) (h : Inv s) {a : Action V E} (hnext : Tinyfibers.next s a = some (.ok s')) :
    Links s' (log ++ note s a) := by
  have heffect := h.next_effect l.awaits hnext
  generalize stepped s a = popped at heffect
  generalize note s a = es at heffect ⊢
  cases heffect with
  | quiet hquiet => exact l.quiet hquiet
  | park f q hcontrol hposted hqueues hself hothers =>
      obtain ⟨fiber, hfiber, hrunning⟩ := h.sched.running f hcontrol
      have hnot : ∀ p, ¬ s.InPark f p := by
        apply h.not_inPark l.awaits hfiber
        · rw [hrunning]
          exact FiberState.noConfusion
        · apply h.sched.not_posted hfiber <;> rw [hrunning] <;> exact FiberState.noConfusion
      exact l.park h hnot hposted hqueues hself hothers
  | wake q fs rest hsplit hposted hqueues hinPark => exact l.wake h hsplit hposted hqueues hinPark
  | step f rest hsplit hposted hqueues hself hothers => exact l.step h hsplit hposted hqueues hself hothers

theorem Links.init : Links (initial V E) [] := by
  have hnot : ∀ f q, ¬ (initial V E).InPark f q := by
    intro f q hpark
    obtain ⟨fiber, hfiber, hpoint⟩ := Option.map_eq_some_iff.mp hpark
    by_cases hf : f = 0
    · subst hf
      cases hfiber
      cases hpoint
    · rw [show (initial V E).fibers f = none from Function.update_of_ne hf ..] at hfiber
      cases hfiber
  refine ⟨fun _ => rfl, fun _ _ => rfl, ?_, ?_, ?_⟩
  · intro f q hf
    cases hf
  · intro f q hpark
    exact absurd hpark (hnot f q)
  · intro f q hpark
    exact absurd hpark (hnot f q)

/-- What is promised of the wait queues, of a state and of what has happened before it. -/
structure WaitQueues (s : State V E) (log : List Link) : Prop where
  order : ∀ q, parkedOn q log = poppedFrom q log ++ s.queues q
  nodup : ∀ q, (s.queues q).Nodup
  linked : ∀ f q, f ∈ s.queues q ↔ cycle f log = some (.linked q)
  suspended : ∀ f q, f ∈ s.queues q → ∃ fiber, s.fibers f = some fiber ∧ fiber.state_ = .suspended
  life : ∀ f, cycle f log ≠ none
  posted : ∀ f q, cycle f log = some (.woken q) → f ∈ s.posted
  returns : ∀ f q, log.count (.woken q f) = log.count (.returned q f) + if cycle f log = some (.woken q) then 1 else 0
  wakeOne : ∀ q f rest, s.queues q = f :: rest → ∃ s', s.wakeOne q = .ok s' ∧ Pops s q [f] rest s'
  wakeAll : ∀ q, ∃ s', s.wakeAll q = .ok s' ∧ Pops s q (s.queues q) [] s' ∧
    ∀ fuel, (s.queues q).length < fuel → wakeAllWhile q fuel s = some (.ok s')

/-- Where the log leaves a fiber. -/
theorem Links.cases (l : Links s log) (f : FiberId) :
    (cycle f log = some .out ∧ ∀ q, f ∉ s.queues q) ∨
      ∃ q, s.InPark f q ∧ (cycle f log = some (.linked q) ∧ f ∈ s.queues q ∨
        cycle f log = some (.woken q) ∧ f ∉ s.queues q) := by
  by_cases hpark : ∃ q, s.InPark f q
  · obtain ⟨q, hpark⟩ := hpark
    refine .inr ⟨q, hpark, ?_⟩
    by_cases hf : f ∈ s.queues q
    · exact .inl ⟨l.linked f q hf, hf⟩
    · exact .inr ⟨l.woken f q hpark hf, hf⟩
  · have hout := l.out f (not_exists.mp hpark)
    refine .inl ⟨hout, fun q hf => ?_⟩
    rw [l.linked f q hf] at hout
    cases hout

theorem Links.waitQueues (l : Links s log) (h : Inv s) : WaitQueues s log := by
  refine ⟨l.order, h.queues, ?_, fun f q hf => (h.linked hf).1, ?_, ?_, ?_, fun q f rest => h.wakeOne_pops, h.wakeAll_pops⟩
  · intro f q
    refine ⟨l.linked f q, fun hcycle => ?_⟩
    rcases l.cases f with ⟨hout, -⟩ | ⟨q', -, ⟨hlinked, hf⟩ | ⟨hwoken, -⟩⟩
    · cases hcycle.symm.trans hout
    · cases hcycle.symm.trans hlinked
      exact hf
    · cases hcycle.symm.trans hwoken
  · intro f hnone
    rcases l.cases f with ⟨hout, -⟩ | ⟨q, -, ⟨hlinked, -⟩ | ⟨hwoken, -⟩⟩
    · cases hnone.symm.trans hout
    · cases hnone.symm.trans hlinked
    · cases hnone.symm.trans hwoken
  · intro f q hcycle
    rcases l.cases f with ⟨hout, -⟩ | ⟨q', hpark, ⟨hlinked, -⟩ | ⟨hwoken, hnot⟩⟩
    · cases hcycle.symm.trans hout
    · cases hcycle.symm.trans hlinked
    · exact (l.awaits f q' hpark).resolve_left hnot
  · intro f q
    rcases l.cases f with ⟨hout, -⟩ | ⟨q', -, ⟨hlinked, -⟩ | ⟨hwoken, -⟩⟩
    · rw [count_woken hout, hout]
      simp
    · rw [count_woken hlinked, hlinked]
      simp
    · rw [count_woken hwoken, hwoken]
      simp

/-- What is noted, up to a fault. -/
def notes : Except Fault (State V E) → Action V E → List Link
  | .ok s, a => note s a
  | .error _, _ => []

/-- What every run keeps. -/
def Logged : Except Fault (State V E) → List Link → Prop
  | .ok s, log => Inv s ∧ Links s log
  | .error fault, _ => fault ≠ .notSuspended

theorem logged_step {c c' : Except Fault (State V E)} {a : Action V E} (h : Logged c log)
    (honce : meets setOnce c a = true) (hstep : step c a = some c') : Logged c' (log ++ notes c a) := by
  cases c with
  | error fault => cases hstep
  | ok s =>
      obtain ⟨hinv, hlinks⟩ := h
      have hkept := hinv.next honce hstep
      cases c' with
      | ok s' => exact ⟨hkept, hlinks.next hinv hstep⟩
      | error fault =>
          rintro rfl
          cases hkept.1

/-- **Wait queues are fair.** Along every run in which no future is set twice: the assertion in `Resume` does not
    fail, and each wait queue has woken its fibers in the order in which they parked, each once. -/
theorem wait_queues_fifo {as : List (Action V E)} {c : Except Fault (State V E)}
    (hrun : System.runWhile (meets setOnce) step (.ok (initial V E)) as = some c) :
    c ≠ .error .notSuspended ∧
      ∀ s, c = .ok s → WaitQueues s (System.observe step notes (.ok (initial V E)) as) := by
  have hinit : Logged (.ok (initial V E)) [] := ⟨.init, .init⟩
  have hlogged := System.observe_invariant (fun _ _ _ _ h honce hstep => logged_step h honce hstep) hinit hrun
  rw [List.nil_append] at hlogged
  constructor
  · rintro rfl
    exact hlogged rfl
  · rintro s rfl
    exact hlogged.2.waitQueues hlogged.1

/-- Fibers 1 and 0 park on queue 0, a handler of the run loop wakes both, and fiber 1 parks on queue 1. -/
def parkedTwice : List (Action Unit Unit) :=
  [.event .posted, .call .spawn, .call .yield, .reschedule, .event .posted, .call (.park 0), .reschedule,
    .event .posted, .call (.park 0), .reschedule, .event (.wakeAll 0), .event .posted, .call (.park 1), .reschedule]

theorem wait_queues_fifo_parkedTwice : ∃ s : State Unit Unit,
    System.runWhile (meets setOnce) step (.ok (initial Unit Unit)) parkedTwice = some (.ok s) ∧
      s.posted = [0] ∧ s.queues 1 = [1] ∧
      System.observe step notes (.ok (initial Unit Unit)) parkedTwice =
        [.parked 0 1, .parked 0 0, .woken 0 1, .woken 0 0, .returned 0 1, .parked 1 1] ∧
      WaitQueues s (System.observe step notes (.ok (initial Unit Unit)) parkedTwice) := by
  have hrun : ∃ s : State Unit Unit,
      System.runWhile (meets setOnce) step (.ok (initial Unit Unit)) parkedTwice = some (.ok s) ∧
        s.posted = [0] ∧ s.queues 1 = [1] := ⟨_, rfl, rfl, rfl⟩
  obtain ⟨s, hs, hposted, hqueue⟩ := hrun
  exact ⟨s, hs, hposted, hqueue, rfl, (wait_queues_fifo hs).2 s rfl⟩

end Tinyfibers
end Tpcc
