import Tpcc.Tinyfibers.Invariant

/-!
# `Tinyfibers.Operations` — every operation keeps the invariant

One lemma for each operation of the scheduler, the handles, the wait queues and the futures: from a state
with the invariant it leads to one, or it ends in one of the faults `F` (`Kept F`). Most operations never
end in a fault, so the lemma holds for every `F`; those of a handle end in the faults of a program that
misuses it.
-/

namespace Tpcc
namespace Tinyfibers

open Transition

variable {V E : Type}

/-- The operation leads to a state with the invariant, or it ends in a fault that meets `F`. -/
def Kept (F : Fault → Prop) : Except Fault (State V E) → Prop
  | .ok s => Inv s
  | .error fault => F fault

variable {s : State V E} {f : FiberId} {fiber : Fiber} {point : Point} {F : Fault → Prop}

/-! ## Switching and resuming -/

namespace State

theorem resume_eq (hfiber : s.fibers f = some fiber) (hsuspended : fiber.state_ = .suspended) :
    s.resume f = .ok ((s.setFiber f { fiber with state_ := .runnable }).schedule f) := by
  simp only [resume, hfiber, hsuspended, if_true]

theorem spawn_newHandle (s : State V E) : s.spawn.newHandle s.nextId = .ok
    { s with
      fibers := Function.update s.fibers s.nextId (some { watcher_ := some s.nextHandle })
      nextId := s.nextId + 1
      posted := s.posted ++ [s.nextId]
      handles := Function.update s.handles s.nextHandle (some { fiber_ := some s.nextId })
      nextHandle := s.nextHandle + 1 } := by
  simp [spawn, newHandle, setWatcher, setFiber, setHandle, schedule]

end State

/-- The running fiber exists, and it is running. -/
theorem Base.running (b : Base s) (hcontrol : s.control = .fiber f) (hfiber : s.fibers f = some fiber) :
    fiber.state_ = .running := by
  obtain ⟨fiber', hfiber', hrunning⟩ := b.sched.running f hcontrol
  obtain rfl := Option.some.inj (hfiber.symm.trans hfiber')
  exact hrunning

/-- The running fiber is suspended at `point`, where something will resume it. -/
theorem Base.suspend (b : Base s) (hcontrol : s.control = .fiber f) (hfiber : s.fibers f = some fiber)
    {refers : Point → FiberId → Prop} (hrefs : Refs s.fibers refers)
    (hsub : ∀ point' g, s.Refers point' g → refers point' g ∨ point' = point ∧ g = f)
    (hjoin : ∀ h, point = .join h → h < s.nextHandle) : Inv (s.suspend f fiber point) := by
  have hrunning := b.running hcontrol hfiber
  have hsched := b.sched
  have hlogs := b.logs
  rw [hcontrol] at hsched hlogs
  constructor
  · constructor
    · exact hsched.switch (.inr (.inl rfl))
    · refine b.watch.setFiber hfiber rfl ?_
      intro h hpoint
      exact ⟨hjoin h hpoint, fun hstate => (hstate rfl).elim⟩
    · exact b.timers
    · exact b.queues
    · exact b.pending
    · exact b.results.update fun p _ hstate => (hstate rfl).elim
    · exact hlogs.switch hfiber nofun
  · exact hrefs.suspend (hrefs.free hfiber (by simp [hrunning])) rfl rfl hsub

namespace Pending

variable {operations : List Nat} {nextOperation : Nat} {futures : FutureId → Future V E}

theorem shared (h : Pending operations nextOperation futures) (n : Nat) (future : Future V E) :
    Pending operations nextOperation (Function.update futures (.shared n) future) := by
  have hne : ∀ n', FutureId.operation n' ≠ .shared n := nofun
  refine ⟨h.nodup, ?_, ?_⟩
  · intro n' hn'
    rw [Function.update_of_ne (hne n')]
    exact h.unset n' hn'
  · intro n' hn'
    rw [Function.update_of_ne (hne n')]
    exact h.fresh n' hn'

theorem erase (h : Pending operations nextOperation futures) (n : Nat) :
    Pending (operations.erase n) nextOperation futures :=
  ⟨h.nodup.erase n, fun _ hn' => h.unset _ (List.mem_of_mem_erase hn'), h.fresh⟩

/-- A socket operation is initiated, with a fresh future. -/
theorem initiate (h : Pending operations nextOperation futures) (lot : ParkingLot) :
    Pending (nextOperation :: operations) (nextOperation + 1) (Function.update futures (.operation nextOperation)
      { futures (.operation nextOperation) with wait_for_promise_ := lot }) := by
  have hne : ∀ {n}, n ≠ nextOperation → FutureId.operation n ≠ .operation nextOperation := by
    rintro n hn ⟨⟩
    exact hn rfl
  refine ⟨?_, ?_, ?_⟩
  · refine List.nodup_cons.mpr ⟨?_, h.nodup⟩
    intro hmem
    exact Nat.lt_irrefl _ (h.unset nextOperation hmem).1
  · intro n hn
    rcases List.mem_cons.mp hn with rfl | hn
    · rw [Function.update_self, h.fresh n (Nat.le_refl n)]
      exact ⟨Nat.lt_succ_self n, rfl⟩
    · obtain ⟨hlt, hunset⟩ := h.unset n hn
      rw [Function.update_of_ne (hne (Nat.ne_of_lt hlt))]
      exact ⟨Nat.lt_succ_of_lt hlt, hunset⟩
  · intro n hn
    rw [Function.update_of_ne (hne (Nat.ne_of_gt hn))]
    exact h.fresh n (Nat.le_of_succ_le hn)

end Pending

namespace Inv

/-- The running fiber gives way, or its routine has returned. -/
theorem switch (h : Inv s) (hcontrol : s.control = .fiber f) (hfiber : s.fibers f = some fiber)
    {fiber' : Fiber} {finished : List FiberId} (hwatcher : fiber'.watcher_ = fiber.watcher_)
    (hpoint : fiber'.point = fiber.point ∨ fiber'.point = .routine)
    (hstate : fiber'.state_ = .runnable ∧ finished = s.finished ∨
      fiber'.state_ = .terminated ∧ finished = s.finished ++ [f]) :
    Inv { s.switch f fiber' with finished } := by
  have hrunning := h.running hcontrol hfiber
  have hsched := h.sched
  have hlogs := h.logs
  rw [hcontrol] at hsched hlogs
  have hawake : fiber.state_ ≠ .suspended := by simp [hrunning]
  constructor
  · constructor
    · exact hsched.switch (hstate.imp (·.1) fun hstate => .inr hstate.1)
    · refine h.watch.setFiber hfiber hwatcher ?_
      intro k hk
      rcases hpoint with hpoint | hpoint
      · rw [hpoint] at hk
        exact ⟨h.watch.joins f fiber k hfiber hk, fun _ handle => h.watch.joined f fiber k handle hfiber hk hawake⟩
      · rw [hpoint] at hk
        cases hk
    · exact h.timers
    · exact h.queues
    · exact h.pending
    · refine h.results.update ?_
      intro p hp _
      rcases hpoint with hpoint | hpoint
      · rw [hpoint] at hp
        exact h.results.got f fiber p hfiber hp hawake
      · rw [hpoint] at hp
        cases hp
    · rcases hstate with ⟨hstate, rfl⟩ | ⟨hstate, rfl⟩
      · exact hlogs.switch hfiber (by simp [hstate])
      · exact hlogs.finish hfiber hstate
  · exact h.refs.update (h.refs.free hfiber hawake) _

/-- `Resume` of a suspended fiber that nothing else will resume. -/
theorem resume (h : Inv s) (hfiber : s.fibers f = some fiber) (hsuspended : fiber.state_ = .suspended)
    (hcontrol : s.control ≠ .back f) (hfree : ∀ point, ¬ s.Refers point f)
    (hjoin : ∀ k, fiber.point = .join k → ∀ handle, s.handles k = some handle → handle.completed_ = true)
    (hget : ∀ p, fiber.point = .get p → (s.futures p).result_ ≠ none) :
    Inv ((s.setFiber f { fiber with state_ := .runnable }).schedule f) := by
  constructor
  · constructor
    · exact h.sched.resume hfiber hsuspended hcontrol rfl
    · refine h.watch.setFiber hfiber rfl ?_
      intro k hk
      exact ⟨h.watch.joins f fiber k hfiber hk, fun _ => hjoin k hk⟩
    · exact h.timers
    · exact h.queues
    · exact h.pending
    · exact h.results.update fun p hp _ => hget p hp
    · exact h.logs.update hfiber (Logs.dying_update hcontrol _)
  · exact h.refs.update hfree _

/-- A reference to `f` at `point` is followed; `s` is the state without it. -/
theorem wakeUp (h : Inv s) {refers : Point → FiberId → Prop} (hrefs : Refs s.fibers refers)
    (hf : refers point f) (hsub : ∀ point g, s.Refers point g → refers point g) (hgone : ¬ s.Refers point f)
    (hcontrol : ∀ g, s.control ≠ .back g)
    (hjoin : ∀ k, point = .join k → ∀ handle, s.handles k = some handle → handle.completed_ = true)
    (hget : ∀ p, point = .get p → (s.futures p).result_ ≠ none) :
    ∃ s', s.resume f = .ok s' ∧ Inv s' ∧ s'.control = s.control ∧ s'.queues = s.queues := by
  obtain ⟨fiber, hfiber, hsuspended, rfl⟩ := hrefs point f hf
  refine ⟨_, State.resume_eq hfiber hsuspended, ?_, rfl, rfl⟩
  exact h.resume hfiber hsuspended (hcontrol f) (hrefs.unref hf hsub hgone) hjoin hget

end Inv

/-! ## What a change to a handle or a future leaves of the references -/

namespace State

/-- A handle changes, or is made or destroyed, and nobody new waits in it. -/
theorem refers_handle {k : HandleId} {x : Option JoinHandle} {point : Point} {g : FiberId}
    (hx : ∀ handle, x = some handle → handle.completed_ = false → handle.waitee_.waitee_ = some g →
      s.Refers (.join k) g)
    (hg : { s with handles := Function.update s.handles k x }.Refers point g) : s.Refers point g := by
  cases point with
  | join k' =>
      obtain ⟨handle, hhandle, hwatches, hwaitee⟩ := hg
      change Function.update s.handles k x k' = some handle at hhandle
      by_cases hk : k' = k
      · subst hk
        rw [Function.update_self] at hhandle
        exact hx handle hhandle hwatches hwaitee
      · rw [Function.update_of_ne hk] at hhandle
        exact ⟨handle, hhandle, hwatches, hwaitee⟩
  | start | routine | sleep | queue q | get p => exact hg

theorem refers_setHandle {k : HandleId} {handle handle' : JoinHandle} (hhandle : s.handles k = some handle)
    (hsub : handle'.completed_ = false → handle.completed_ = false ∧ handle'.waitee_ = handle.waitee_)
    {point : Point} {g : FiberId} (hg : (s.setHandle k handle').Refers point g) : s.Refers point g := by
  refine refers_handle ?_ hg
  rintro _ ⟨⟩ hwatches' hwaitee
  obtain ⟨hwatches, heq⟩ := hsub hwatches'
  exact ⟨handle, hhandle, hwatches, heq ▸ hwaitee⟩

/-- The handle moved from and the new one have no waiting fiber that the old one had not. -/
theorem refers_move {k : HandleId} {handle : JoinHandle} (hhandle : s.handles k = some handle)
    {point : Point} {g : FiberId}
    (hg : ((s.setHandle k { handle with fiber_ := none }).setHandle s.nextHandle
      { fiber_ := handle.fiber_, completed_ := handle.completed_ }).Refers point g) : s.Refers point g := by
  have hmoved : (s.setHandle k { handle with fiber_ := none }).Refers point g := by
    refine refers_handle ?_ hg
    rintro _ ⟨⟩ _ ⟨⟩
  refine refers_setHandle hhandle ?_ hmoved
  exact fun hwatches => ⟨hwatches, rfl⟩

/-- A fiber comes to wait in a handle. -/
theorem refers_join {k : HandleId} {handle : JoinHandle} {point : Point} {g : FiberId}
    (hg : (s.setHandle k { handle with waitee_ := ⟨some f⟩ }).Refers point g) :
    s.Refers point g ∨ point = .join k ∧ g = f := by
  cases point with
  | join k' =>
      obtain ⟨handle₁, hhandle₁, hwatches, hwaitee⟩ := hg
      change Function.update s.handles k _ k' = some handle₁ at hhandle₁
      by_cases hk : k' = k
      · subst hk
        rw [Function.update_self] at hhandle₁
        cases hhandle₁
        cases hwaitee
        exact .inr ⟨rfl, rfl⟩
      · rw [Function.update_of_ne hk] at hhandle₁
        exact .inl ⟨handle₁, hhandle₁, hwatches, hwaitee⟩
  | start | routine | sleep | queue q | get p => exact .inl hg

/-- A future is set: nobody waits for it any more. -/
theorem refers_set {p : FutureId} {result : Result V E} {point : Point} {g : FiberId}
    (hg : (s.setFuture p { s.futures p with result_ := some result }).Refers point g) :
    s.Refers point g ∧ point ≠ .get p := by
  cases point with
  | get p' =>
      obtain ⟨hunset, hwaitee⟩ := hg
      change (Function.update s.futures p _ p').result_ = none at hunset
      change (Function.update s.futures p _ p').wait_for_promise_.waitee_ = some g at hwaitee
      by_cases hp : p' = p
      · subst hp
        rw [Function.update_self] at hunset
        cases hunset
      · rw [Function.update_of_ne hp] at hunset hwaitee
        exact ⟨⟨hunset, hwaitee⟩, fun heq => hp (Point.get.inj heq)⟩
  | start | routine | sleep | queue q | join k => exact ⟨hg, nofun⟩

/-- A fiber parks in `Get`. -/
theorem refers_get {p : FutureId} {point : Point} {g : FiberId}
    (hg : (s.setFuture p { s.futures p with wait_for_promise_ := ⟨some f⟩ }).Refers point g) :
    s.Refers point g ∨ point = .get p ∧ g = f := by
  cases point with
  | get p' =>
      obtain ⟨hunset, hwaitee⟩ := hg
      change (Function.update s.futures p _ p').result_ = none at hunset
      change (Function.update s.futures p _ p').wait_for_promise_.waitee_ = some g at hwaitee
      by_cases hp : p' = p
      · subst hp
        rw [Function.update_self] at hwaitee
        cases hwaitee
        exact .inr ⟨rfl, rfl⟩
      · rw [Function.update_of_ne hp] at hunset hwaitee
        exact .inl ⟨hunset, hwaitee⟩
  | start | routine | sleep | queue q | join k => exact .inl hg

/-- Queue `q` changes. -/
theorem refers_queue {q : QueueId} {queue : List FiberId} {point : Point} {g : FiberId}
    (hg : { s with queues := Function.update s.queues q queue }.Refers point g) :
    s.Refers point g ∧ point ≠ .queue q ∨ point = .queue q ∧ g ∈ queue := by
  cases point with
  | queue q' =>
      change g ∈ Function.update s.queues q queue q' at hg
      by_cases hq : q' = q
      · subst hq
        rw [Function.update_self] at hg
        exact .inr ⟨rfl, hg⟩
      · rw [Function.update_of_ne hq] at hg
        exact .inl ⟨hg, fun heq => hq (Point.queue.inj heq)⟩
  | start | routine | sleep | join k | get p => exact .inl ⟨hg, nofun⟩

end State

/-! ## The run loop -/

namespace Inv

/-- A posted handler goes on. -/
theorem step {rest : List FiberId} (h : Inv s) (hcontrol : s.control = .loop) (hposted : s.posted = f :: rest)
    (hdead : F .deadHandle) :
    Kept F ({ s with posted := rest }.step f) := by
  have hsched := h.sched
  rw [hcontrol, hposted] at hsched
  obtain ⟨fiber, hfiber, hready⟩ := hsched.ready f List.mem_cons_self
  have hawake : fiber.state_ ≠ .suspended := by
    rcases hready with hready | hready <;> simp [hready]
  have hlogs := h.logs
  rw [hcontrol] at hlogs
  let s₁ : State V E :=
    { { s with posted := rest }.setFiber f { fiber with state_ := .running, point := .routine } with
      control := .fiber f }
  have hinv : Inv s₁ := by
    constructor
    · constructor
      · exact hsched.step hfiber rfl
      · exact h.watch.setFiber hfiber rfl nofun
      · exact h.timers
      · exact h.queues
      · exact h.pending
      · exact h.results.update nofun
      · exact hlogs.update hfiber rfl
    · exact h.refs.update (h.refs.free hfiber hawake) _
  have hstep : { s with posted := rest }.step f = s₁.goOn fiber.point := by
    simp only [State.step, hfiber]
    rfl
  rw [hstep]
  cases hpoint : fiber.point with
  | start => exact hinv
  | routine => exact hinv
  | sleep => exact hinv
  | queue q => exact hinv
  | join k =>
      have hhandles : s₁.handles k = s.handles k := rfl
      simp only [State.goOn, hhandles]
      cases hhandle : s.handles k with
      | none => exact hdead
      | some handle =>
          -- the fiber was resumed by `OnCompleted`
          have hdone := h.watch.joined f fiber k handle hfiber hpoint hawake hhandle
          refine ⟨⟨hinv.sched, hinv.watch.leave hhandle hdone, hinv.timers, hinv.queues, hinv.pending, hinv.results,
            hinv.logs⟩, hinv.refs.mono ?_⟩
          intro point g hg
          refine State.refers_setHandle (s := s₁) hhandle ?_ hg
          exact fun hwatches => ⟨hwatches, rfl⟩
  | get p =>
      have hset := h.results.got f fiber p hfiber hpoint hawake
      exact ⟨⟨hinv.sched, hinv.watch, hinv.timers, hinv.queues, hinv.pending, hinv.results.get hset, hinv.logs⟩,
        hinv.refs⟩

/-- A timer. -/
theorem timer (h : Inv s) (hcontrol : s.control = .loop) (hf : f ∈ s.timers) :
    Kept F ({ s with timers := s.timers.erase f }.resume f) := by
  have hsub : ∀ point g, { s with timers := s.timers.erase f }.Refers point g → s.Refers point g := by
    intro point g hg
    cases point with
    | sleep => exact List.mem_of_mem_erase hg
    | start | routine | queue q | join k | get p => exact hg
  have hgone : f ∉ s.timers.erase f := h.timers.not_mem_erase
  have hinv : Inv { s with timers := s.timers.erase f } :=
    ⟨⟨h.sched, h.watch, h.timers.erase f, h.queues, h.pending, h.results, h.logs⟩, h.refs.mono hsub⟩
  obtain ⟨s', hs', hinv', -⟩ :=
    hinv.wakeUp h.refs (show s.Refers .sleep f from hf) hsub hgone (by simp [hcontrol]) nofun nofun
  rw [hs']
  exact hinv'

/-- A fiber is popped from queue `q` and resumed. -/
theorem pop {q : QueueId} {rest : List FiberId} (h : Inv s) (hcontrol : ∀ g, s.control ≠ .back g)
    (hqueue : s.queues q = f :: rest) :
    ∃ s', { s with queues := Function.update s.queues q rest }.resume f = .ok s' ∧ Inv s' ∧
      s'.control = s.control ∧ s'.queues q = rest := by
  have hnodup := h.queues q
  rw [hqueue] at hnodup
  obtain ⟨hnot, hrest⟩ := List.nodup_cons.mp hnodup
  have hsub : ∀ point g, { s with queues := Function.update s.queues q rest }.Refers point g →
      s.Refers point g := by
    intro point g hg
    rcases State.refers_queue hg with ⟨hg, -⟩ | ⟨rfl, hmem⟩
    · exact hg
    · show g ∈ s.queues q
      rw [hqueue]
      exact List.mem_cons_of_mem f hmem
  have hinv : Inv { s with queues := Function.update s.queues q rest } := by
    refine ⟨⟨h.sched, h.watch, h.timers, ?_, h.pending, h.results, h.logs⟩, h.refs.mono hsub⟩
    exact (Function.forall_update_iff s.queues fun _ queue => queue.Nodup).mpr ⟨hrest, fun q' _ => h.queues q'⟩
  have hf : s.Refers (.queue q) f := by
    show f ∈ s.queues q
    rw [hqueue]
    exact List.mem_cons_self
  have hgone : ¬ { s with queues := Function.update s.queues q rest }.Refers (.queue q) f := by
    intro hg
    rcases State.refers_queue hg with ⟨-, hne⟩ | ⟨-, hg⟩
    · exact hne rfl
    · exact hnot hg
  obtain ⟨s', hs', hinv', hcontrol', hqueues'⟩ := hinv.wakeUp h.refs hf hsub hgone hcontrol nofun nofun
  refine ⟨s', hs', hinv', hcontrol', ?_⟩
  rw [hqueues']
  exact Function.update_self ..

theorem wakeOne (h : Inv s) (hcontrol : ∀ g, s.control ≠ .back g) (q : QueueId) : Kept F (s.wakeOne q) := by
  unfold State.wakeOne
  split
  · exact h
  · next f rest hqueue =>
      obtain ⟨s', hs', hinv', -⟩ := h.pop hcontrol hqueue
      rw [hs']
      exact hinv'

theorem wakeAllLoop {q : QueueId} {queue : List FiberId} (h : Inv s) (hcontrol : ∀ g, s.control ≠ .back g)
    (hqueue : s.queues q = queue) : Kept F (State.wakeAllLoop q queue s) := by
  induction queue generalizing s with
  | nil => exact h
  | cons f rest ih =>
      obtain ⟨s', hs', hinv', hcontrol', hrest⟩ := h.pop hcontrol hqueue
      unfold State.wakeAllLoop
      rw [hs']
      exact ih hinv' (hcontrol' ▸ hcontrol) hrest

theorem wakeAll (h : Inv s) (hcontrol : ∀ g, s.control ≠ .back g) (q : QueueId) : Kept F (s.wakeAll q) :=
  h.wakeAllLoop hcontrol rfl

/-- `Set`, of a future without a result. -/
theorem set {p : FutureId} (h : Inv s) (hcontrol : ∀ g, s.control ≠ .back g) (hunset : (s.futures p).result_ = none)
    (hpending : ∀ n ∈ s.operations, p ≠ .operation n) (hfresh : ∀ n, s.nextOperation ≤ n → p ≠ .operation n)
    (result : Result V E) : Kept F (s.set p result) := by
  have hsub : ∀ point g, (s.setFuture p { s.futures p with result_ := some result }).Refers point g →
      s.Refers point g := fun point g hg => (State.refers_set hg).1
  have hinv : Inv (s.setFuture p { s.futures p with result_ := some result }) := by
    refine ⟨⟨h.sched, h.watch, h.timers, h.queues, ?_, h.results.future hunset _, h.logs⟩, h.refs.mono hsub⟩
    refine ⟨h.pending.nodup, ?_, ?_⟩
    · intro n hn
      rw [show (s.setFuture p _).futures (.operation n) = s.futures (.operation n) from
        Function.update_of_ne (Ne.symm (hpending n hn)) ..]
      exact h.pending.unset n hn
    · intro n hn
      rw [show (s.setFuture p _).futures (.operation n) = s.futures (.operation n) from
        Function.update_of_ne (Ne.symm (hfresh n hn)) ..]
      exact h.pending.fresh n hn
  unfold State.set State.wake
  split
  · exact hinv
  · next f hwaitee =>
      have hget : ∀ p', Point.get p = .get p' →
          ((s.setFuture p { s.futures p with result_ := some result }).futures p').result_ ≠ none := by
        rintro p' ⟨⟩
        rw [show (s.setFuture p _).futures p = _ from Function.update_self ..]
        exact Option.some_ne_none result
      obtain ⟨s', hs', hinv', -⟩ := hinv.wakeUp h.refs (show s.Refers (.get p) f from ⟨hunset, hwaitee⟩) hsub
        (fun hg => (State.refers_set hg).2 rfl) hcontrol nofun hget
      rw [hs']
      exact hinv'

/-! ## The end of a handler -/

/-- The fiber that is destroyed was resumed by nothing, so its removal commutes with the one it wakes. -/
theorem resume_delete (s : State V E) {g : FiberId} (hne : g ≠ f) :
    ((s.resume g).map fun s => s.delete f).map (fun s => { s with control := .loop }) =
      { s.delete f with control := .loop }.resume g := by
  have hsame : { s.delete f with control := .loop }.fibers g = s.fibers g := Function.update_of_ne hne ..
  unfold State.resume
  rw [hsame]
  cases hfiber : s.fibers g with
  | none => rfl
  | some fiber =>
      by_cases hsuspended : fiber.state_ = .suspended
      · simp only [hsuspended, if_true, Except.map, State.setFiber, State.schedule, State.delete,
          Function.update_comm hne]
      · simp only [hsuspended, if_false, Except.map]

/-- `~Fiber` and `Destroy`: the watching handle is completed, and the fiber that waits in it is resumed. -/
theorem destroy (h : Inv s) (hcontrol : s.control = .back f) (hfiber : s.fibers f = some fiber)
    (hterminated : fiber.state_ = .terminated) :
    Kept F ((s.destroy f fiber).map fun s => { s with control := .loop }) := by
  have hsched := h.sched
  have hlogs := h.logs
  rw [hcontrol] at hsched hlogs
  have hlt : f < s.nextId := by
    by_contra hge
    rw [h.sched.fresh f (Nat.le_of_not_lt hge)] at hfiber
    cases hfiber
  have hfree := h.refs.free hfiber (by simp [hterminated])
  unfold State.destroy
  split
  · next hwatcher =>
      exact ⟨⟨hsched.delete hfiber, h.watch.deleteNone hfiber hwatcher, h.timers, h.queues, h.pending,
        h.results.delete, hlogs.delete hfiber hterminated hlt⟩, h.refs.update hfree none⟩
  · next k hwatcher =>
      obtain ⟨handle, hhandle, -, hwatches⟩ := h.watch.watched f fiber k hfiber hwatcher
      -- the state with the fiber gone and the handle completed
      let s₁ : State V E :=
        { (s.setHandle k { handle with completed_ := true }).delete f with control := .loop }
      have hsub : ∀ point g, s₁.Refers point g → s.Refers point g := by
        intro point g hg
        have hset : (s.setHandle k { handle with completed_ := true }).Refers point g := hg
        refine State.refers_setHandle hhandle ?_ hset
        exact nofun
      have hinv : Inv s₁ :=
        ⟨⟨hsched.delete hfiber, h.watch.delete hfiber hwatcher hhandle, h.timers, h.queues, h.pending,
          h.results.delete, hlogs.delete hfiber hterminated hlt⟩, (h.refs.mono hsub).update (fun point hg =>
            hfree point (hsub point f hg)) none⟩
      simp only [State.onCompleted, hhandle, State.wake]
      split
      · exact hinv
      · next g hwaitee =>
          have hg : s.Refers (.join k) g := ⟨handle, hhandle, hwatches, hwaitee⟩
          have hgf : g ≠ f := by
            rintro rfl
            exact hfree _ hg
          have hcompleted : s₁.handles k = some { handle with completed_ := true } := Function.update_self ..
          have hgone : ¬ s₁.Refers (.join k) g := by
            rintro ⟨handle₁, hhandle₁, hwatches₁, -⟩
            rw [hcompleted] at hhandle₁
            cases hhandle₁
            cases hwatches₁
          have hjoin : ∀ k', Point.join k = .join k' → ∀ handle, s₁.handles k' = some handle →
              handle.completed_ = true := by
            rintro k' ⟨⟩ handle₁ hhandle₁
            rw [hcompleted] at hhandle₁
            cases hhandle₁
            rfl
          obtain ⟨s', hs', hinv', -⟩ := hinv.wakeUp (h.refs.update hfree none) hg hsub hgone nofun hjoin nofun
          rw [resume_delete _ hgf]
          show Kept F (s₁.resume g)
          rw [hs']
          exact hinv'

/-- `Reschedule`. -/
theorem reschedule (h : Inv s) (hcontrol : s.control = .back f) :
    Kept F ((s.reschedule f).map fun s => { s with control := .loop }) := by
  have hsched := h.sched
  have hlogs := h.logs
  rw [hcontrol] at hsched hlogs
  obtain ⟨-, fiber, hfiber, hstate⟩ := hsched.back f rfl
  simp only [State.reschedule, hfiber]
  rcases hstate with hstate | hstate | hstate
  · simp only [hstate]
    exact ⟨⟨hsched.post hfiber hstate, h.watch, h.timers, h.queues, h.pending, h.results,
      hlogs.back hfiber (by simp [hstate])⟩, h.refs⟩
  · simp only [hstate]
    exact ⟨⟨hsched.park hfiber hstate, h.watch, h.timers, h.queues, h.pending, h.results,
      hlogs.back hfiber (by simp [hstate])⟩, h.refs⟩
  · simp only [hstate]
    exact h.destroy hcontrol hfiber hstate

/-! ## System calls -/

theorem spawn (h : Inv s) (hcontrol : s.control = .fiber f) : Kept F (s.spawn.newHandle s.nextId) := by
  rw [State.spawn_newHandle]
  have hnone := h.sched.fresh s.nextId (Nat.le_refl _)
  refine ⟨⟨h.sched.spawn rfl, h.watch.spawn hnone, h.timers, h.queues, h.pending, h.results.update nofun,
    h.logs.spawn (by simp [hcontrol]) _⟩, ?_⟩
  refine (h.refs.update (h.refs.free_of_none hnone) _).mono ?_
  intro point g hg
  refine State.refers_handle (s := s) (x := some { fiber_ := some s.nextId }) ?_ hg
  rintro _ ⟨⟩ _ ⟨⟩

theorem sleepFor (h : Inv s) (hcontrol : s.control = .fiber f) (hfiber : s.fibers f = some fiber) :
    Inv ({ s with timers := f :: s.timers }.suspend f fiber .sleep) := by
  have hfree := h.refs.free hfiber (by simp [h.running hcontrol hfiber])
  have hbase : Base { s with timers := f :: s.timers } :=
    ⟨h.sched, h.watch, List.nodup_cons.mpr ⟨hfree .sleep, h.timers⟩, h.queues, h.pending, h.results, h.logs⟩
  refine hbase.suspend hcontrol hfiber h.refs ?_ nofun
  intro point g hg
  cases point with
  | sleep =>
      rcases List.mem_cons.mp hg with rfl | hg
      · exact .inr ⟨rfl, rfl⟩
      · exact .inl hg
  | start | routine | queue q | join k | get p => exact .inl hg

theorem park (h : Inv s) (hcontrol : s.control = .fiber f) (hfiber : s.fibers f = some fiber) (q : QueueId) :
    Inv ({ s with queues := Function.update s.queues q (s.queues q ++ [f]) }.suspend f fiber (.queue q)) := by
  have hfree := h.refs.free hfiber (by simp [h.running hcontrol hfiber])
  have hbase : Base { s with queues := Function.update s.queues q (s.queues q ++ [f]) } := by
    refine ⟨h.sched, h.watch, h.timers, ?_, h.pending, h.results, h.logs⟩
    exact (Function.forall_update_iff s.queues fun _ queue => queue.Nodup).mpr
      ⟨nodup_snoc (h.queues q) (hfree (.queue q)), fun q' _ => h.queues q'⟩
  refine hbase.suspend hcontrol hfiber h.refs ?_ nofun
  intro point g hg
  rcases State.refers_queue hg with ⟨hg, -⟩ | ⟨rfl, hmem⟩
  · exact .inl hg
  · rcases List.mem_append.mp hmem with hmem | hmem
    · exact .inl hmem
    · exact .inr ⟨rfl, List.mem_singleton.mp hmem⟩

/-- `Get`, or a socket operation in front of its `Get`. -/
theorem get (h : Inv s) (hcontrol : s.control = .fiber f) (hfiber : s.fibers f = some fiber) (p : FutureId)
    {operations : List Nat} {nextOperation : Nat}
    (hpending : Pending operations nextOperation
      (Function.update s.futures p { s.futures p with wait_for_promise_ := ⟨some f⟩ })) :
    Inv ({ s with operations, nextOperation }.get f fiber p) := by
  have hbase : Base ({ s with operations, nextOperation }.setFuture p
      { s.futures p with wait_for_promise_ := ⟨some f⟩ }) :=
    ⟨h.sched, h.watch, h.timers, h.queues, hpending, h.results.park _, h.logs⟩
  refine hbase.suspend hcontrol hfiber h.refs ?_ nofun
  intro point g hg
  exact State.refers_get (s := s) hg

theorem join (h : Inv s) (hcontrol : s.control = .fiber f) (hfiber : s.fibers f = some fiber) {k : HandleId}
    {handle : JoinHandle} (hhandle : s.handles k = some handle) (hdetached : F .detached) :
    Kept F (s.join f fiber k handle) := by
  unfold State.join
  split
  · exact hdetached
  · split
    · next hdone =>
        refine ⟨⟨h.sched, h.watch.leave hhandle hdone, h.timers, h.queues, h.pending, h.results, h.logs⟩,
          h.refs.mono ?_⟩
        intro point g hg
        refine State.refers_setHandle hhandle ?_ hg
        exact fun hwatches => ⟨hwatches, rfl⟩
    · have hbase : Base (s.setHandle k { handle with waitee_ := ⟨some f⟩ }) :=
        ⟨h.sched, h.watch.setHandle hhandle rfl rfl, h.timers, h.queues, h.pending, h.results, h.logs⟩
      refine hbase.suspend hcontrol hfiber h.refs (fun _ _ hg => State.refers_join hg) ?_
      rintro k' ⟨⟩
      by_contra hge
      rw [h.watch.fresh k (Nat.le_of_not_lt hge)] at hhandle
      cases hhandle

/-- Another handle comes to watch a fiber, or none. -/
theorem rewatch {g : FiberId} (h : Inv s) (hcontrol : s.control = .fiber g) (hfiber : s.fibers f = some fiber)
    {watcher_ : Option HandleId} {handles : HandleId → Option JoinHandle} {nextHandle : HandleId}
    (hwatch : Watch (Function.update s.fibers f (some { fiber with watcher_ })) handles s.nextId nextHandle)
    (hsub : ∀ point g, { s with handles }.Refers point g → s.Refers point g) :
    Inv { s with fibers := Function.update s.fibers f (some { fiber with watcher_ }), handles, nextHandle } := by
  have hrefs : Refs (Function.update s.fibers f (some { fiber with watcher_ })) s.Refers :=
    h.refs.watch hfiber rfl rfl
  refine ⟨⟨h.sched.watch hfiber rfl, hwatch, h.timers, h.queues, h.pending, ?_, ?_⟩, hrefs.mono hsub⟩
  · exact h.results.update fun p => h.results.got f fiber p hfiber
  · refine h.logs.update hfiber ?_
    rw [show s.control = .fiber g from hcontrol]
    rfl

/-- `Detach` follows `fiber_` to a destroyed fiber only if that has completed. -/
theorem detach {g : FiberId} (h : Inv s) (hcontrol : s.control = .fiber g) {k : HandleId} {handle : JoinHandle}
    (hhandle : s.handles k = some handle) (hdetached : F .detached)
    (hdangling : handle.fiber_ ≠ none → handle.completed_ = true → F .danglingHandle) :
    Kept F (s.detach k handle) := by
  unfold State.detach
  split
  · exact hdetached
  · next hattached =>
      obtain ⟨f, hf⟩ := Option.ne_none_iff_exists'.mp hattached
      simp only [State.setWatcher, hf]
      cases hfiber : s.fibers f with
      | none =>
          apply hdangling hattached
          by_contra hwatches
          obtain ⟨fiber, hfiber', -⟩ := h.watch.watching k handle f hhandle hf (Bool.not_eq_true _ ▸ hwatches)
          rw [hfiber] at hfiber'
          cases hfiber'
      | some fiber =>
          refine h.rewatch hcontrol hfiber (h.watch.detach hhandle hf hfiber) ?_
          intro point g hg
          refine State.refers_setHandle hhandle ?_ hg
          exact fun hwatches => ⟨hwatches, rfl⟩

/-- A move follows `fiber_` only if the fiber has not completed, and then it is there, or `fiber_` is null. -/
theorem move {g : FiberId} (h : Inv s) (hcontrol : s.control = .fiber g) {k : HandleId} {handle : JoinHandle}
    (hhandle : s.handles k = some handle) (hnull : handle.completed_ = false → handle.fiber_ = none → F .nullHandle) :
    Kept F (s.move k handle) := by
  unfold State.move
  cases hdone : handle.completed_ with
  | true =>
      have hwatch := h.watch.moveCompleted hhandle hdone
      have hrefs := h.refs.mono fun point g hg => State.refers_move hhandle hg
      rw [hdone] at hwatch hrefs
      exact ⟨⟨h.sched, hwatch, h.timers, h.queues, h.pending, h.results, h.logs⟩, hrefs⟩
  | false =>
      simp only [Bool.false_eq_true, if_false, State.setWatcher]
      split
      · next hnone => exact hnull hdone hnone
      · next f hf =>
          obtain ⟨fiber, hfiber, -⟩ := h.watch.watching k handle f hhandle hf hdone
          split
          · next hfiber' => cases hfiber'.symm.trans hfiber
          · next fiber hfiber =>
              have hwatch := h.watch.move hhandle hdone hf hfiber
              have hmove := h.rewatch hcontrol hfiber hwatch fun point g hg => State.refers_move hhandle hg
              rw [hdone] at hmove
              exact hmove

theorem drop (h : Inv s) {k : HandleId} {handle : JoinHandle} (hhandle : s.handles k = some handle)
    (hattached : F .attached) : Kept F (s.drop k handle) := by
  unfold State.drop
  split
  · next hnone =>
      refine ⟨⟨h.sched, h.watch.drop hhandle hnone, h.timers, h.queues, h.pending, h.results, h.logs⟩,
        h.refs.mono ?_⟩
      exact fun point g hg => State.refers_handle (s := s) (x := none) nofun hg
  · exact hattached

end Inv

/-! ## All runs -/

/-- The action sets no future that has a result. -/
def setOnce (s : State V E) : Action V E → Bool
  | .call (.set n _) => (s.futures (.shared n)).result_.isNone
  | .event (.set n _) => (s.futures (.shared n)).result_.isNone
  | _ => true

/-- What stops the process is the use of a handle. -/
def Fault.ofHandle : Fault → Bool
  | .danglingHandle => true
  | .nullHandle => true
  | .deadHandle => true
  | .detached => true
  | .attached => true
  | .notSuspended => false
  | .unexpectedState => false
  | .deadFiber => false
  | .deadWatcher => false

/-- The action detaches no attached handle whose fiber has completed, and moves none that was detached before
    its fiber has completed. -/
def careful (s : State V E) : Action V E → Bool
  | .call (.detach h) => (s.handles h).all fun handle => handle.fiber_.isNone || !handle.completed_
  | .call (.move h) => (s.handles h).all fun handle => handle.fiber_.isSome || handle.completed_
  | _ => true

/-- The fault is one of a handle, and no handle follows `fiber_` where it must not if the action is careful. -/
def Blamed (s : State V E) (a : Action V E) (fault : Fault) : Prop :=
  fault.ofHandle = true ∧ (careful s a = true → fault ≠ .danglingHandle ∧ fault ≠ .nullHandle)

theorem Inv.init : Inv (initial V E) := by
  have hwatch : Watch (fun _ => none) (fun _ => none) 0 0 := ⟨nofun, nofun, nofun, nofun, nofun, nofun, fun _ _ => rfl⟩
  have hsched : Sched (fun _ => none) [] .loop 0 := ⟨nofun, List.nodup_nil, nofun, nofun, nofun, fun _ _ => rfl⟩
  have hresults : Results (fun _ => none) (fun _ => ({} : Future V E)) [] := ⟨nofun, nofun⟩
  have hlogs : Logs (fun _ => none) .loop 0 [] [] := ⟨List.nodup_nil, nofun, nofun, rfl⟩
  constructor
  · exact ⟨hsched.spawn rfl, hwatch.spawnNone rfl, List.nodup_nil, fun _ => List.nodup_nil,
      ⟨List.nodup_nil, nofun, fun _ _ => rfl⟩, hresults.update nofun, hlogs.spawn nofun _⟩
  · intro point f hf
    cases point <;> simp [State.Refers, initial, State.spawn, State.setFiber, State.schedule] at hf

theorem Inv.call (h : Inv s) (hcontrol : s.control = .fiber f) (hfiber : s.fibers f = some fiber)
    {c : Call V E} (honce : setOnce s (.call c) = true) {r : Except Fault (State V E)}
    (hr : Tinyfibers.call s f fiber c = some r) : Kept (Blamed s (.call c)) r := by
  have hback : ∀ g, s.control ≠ .back g := by simp [hcontrol]
  cases c with
  | spawn =>
      cases hr
      exact h.spawn hcontrol
  | yield =>
      cases hr
      have hstate : FiberState.runnable = .runnable ∧ s.finished = s.finished := ⟨rfl, rfl⟩
      exact h.switch hcontrol hfiber rfl (.inr rfl) (.inl hstate)
  | sleepFor =>
      cases hr
      exact h.sleepFor hcontrol hfiber
  | park q =>
      cases hr
      exact h.park hcontrol hfiber q
  | wakeOne q =>
      cases hr
      exact h.wakeOne hback q
  | wakeAll q =>
      cases hr
      exact h.wakeAll hback q
  | join k =>
      obtain ⟨handle, hhandle, rfl⟩ := Option.map_eq_some_iff.mp hr
      exact h.join hcontrol hfiber hhandle ⟨rfl, fun _ => ⟨nofun, nofun⟩⟩
  | detach k =>
      obtain ⟨handle, hhandle, rfl⟩ := Option.map_eq_some_iff.mp hr
      refine h.detach hcontrol hhandle ⟨rfl, fun _ => ⟨nofun, nofun⟩⟩ ?_
      intro hattached hdone
      refine ⟨rfl, fun hcareful => ?_⟩
      simp [careful, hhandle, hattached, hdone] at hcareful
  | move k =>
      obtain ⟨handle, hhandle, rfl⟩ := Option.map_eq_some_iff.mp hr
      refine h.move hcontrol hhandle ?_
      intro hwatches hnone
      refine ⟨rfl, fun hcareful => ?_⟩
      simp [careful, hhandle, hnone, hwatches] at hcareful
  | drop k =>
      obtain ⟨handle, hhandle, rfl⟩ := Option.map_eq_some_iff.mp hr
      exact h.drop hhandle ⟨rfl, fun _ => ⟨nofun, nofun⟩⟩
  | get n =>
      cases hr
      exact h.get hcontrol hfiber (.shared n) (h.pending.shared n _)
  | set n result =>
      cases hr
      exact h.set hback (Option.isNone_iff_eq_none.mp honce) nofun nofun result
  | operation =>
      cases hr
      exact h.get hcontrol hfiber (.operation s.nextOperation) (h.pending.initiate _)
  | ret =>
      cases hr
      exact h.switch hcontrol hfiber rfl (.inl rfl) (.inr ⟨rfl, rfl⟩)

theorem Inv.event (h : Inv s) (hcontrol : s.control = .loop) {e : Event V E} (honce : setOnce s (.event e) = true)
    {r : Except Fault (State V E)} (hr : Tinyfibers.event s e = some r) : Kept (Blamed s (.event e)) r := by
  have hback : ∀ g, s.control ≠ .back g := by simp [hcontrol]
  cases e with
  | posted =>
      simp only [Tinyfibers.event] at hr
      split at hr
      · cases hr
      · next f rest hposted =>
          cases hr
          exact h.step hcontrol hposted ⟨rfl, fun _ => ⟨nofun, nofun⟩⟩
  | timer f =>
      simp only [Tinyfibers.event, Option.ite_none_right_eq_some, Option.some.injEq] at hr
      obtain ⟨hf, rfl⟩ := hr
      exact h.timer hcontrol hf
  | complete n result =>
      simp only [Tinyfibers.event, Option.ite_none_right_eq_some, Option.some.injEq] at hr
      obtain ⟨hn, rfl⟩ := hr
      obtain ⟨hlt, hunset⟩ := h.pending.unset n hn
      have hinv : Inv { s with operations := s.operations.erase n } :=
        ⟨⟨h.sched, h.watch, h.timers, h.queues, h.pending.erase n, h.results, h.logs⟩, h.refs⟩
      refine hinv.set hback hunset ?_ ?_ result
      · rintro n' hn' ⟨⟩
        exact h.pending.nodup.not_mem_erase hn'
      · rintro n' hn' ⟨⟩
        exact Nat.lt_irrefl n (Nat.lt_of_lt_of_le hlt hn')
  | wakeOne q =>
      cases hr
      exact h.wakeOne hback q
  | wakeAll q =>
      cases hr
      exact h.wakeAll hback q
  | set n result =>
      cases hr
      exact h.set hback (Option.isNone_iff_eq_none.mp honce) nofun nofun result

theorem Inv.next (h : Inv s) {a : Action V E} (honce : setOnce s a = true) {r : Except Fault (State V E)}
    (hr : Tinyfibers.next s a = some r) : Kept (Blamed s a) r := by
  cases a with
  | call c =>
      simp only [Tinyfibers.next] at hr
      split at hr
      · next f hcontrol =>
          obtain ⟨fiber, hfiber, hr⟩ := Option.bind_eq_some_iff.mp hr
          exact h.call hcontrol hfiber honce hr
      · cases hr
  | event e =>
      simp only [Tinyfibers.next] at hr
      split at hr
      · next hcontrol => exact h.event hcontrol honce hr
      · cases hr
  | reschedule =>
      simp only [Tinyfibers.next] at hr
      split at hr
      · next f hcontrol =>
          cases hr
          exact h.reschedule hcontrol
      · cases hr

/-- **Every run keeps the invariant**, as long as no future is set twice. -/
theorem reachable_kept {ok : State V E → Action V E → Bool} (honce : ∀ s a, ok s a = true → setOnce s a = true)
    {c : Except Fault (State V E)} (h : (system ok).Reachable c) :
    Kept (fun fault => ∃ s a, ok s a = true ∧ Blamed s a fault) c := by
  refine h.invariant ?_ ?_
  · rintro c rfl
    exact Inv.init
  · rintro c c' hc ⟨a, ha, hstep⟩
    cases c with
    | error fault => cases hstep
    | ok s =>
        have hkept := Inv.next hc (honce s a ha) hstep
        cases c' with
        | ok s' => exact hkept
        | error fault => exact ⟨s, a, ha, hkept⟩

/-! ## Between two handlers -/

/-- What holds of the fibers between two handlers of the run loop. -/
structure State.Sound (s : State V E) : Prop where
  live : ∀ f fiber, s.fibers f = some fiber →
    (fiber.state_ = .starting ∨ fiber.state_ = .runnable) ∧ s.posted.count f = 1 ∨
      fiber.state_ = .suspended ∧ s.posted.count f = 0
  posted : ∀ f ∈ s.posted, s.fibers f ≠ none
  refers : ∀ point f, s.Refers point f → s.fibers f ≠ none
  watching : ∀ h handle f, s.handles h = some handle → handle.fiber_ = some f → handle.completed_ = false →
    s.fibers f ≠ none
  destroyed : s.destroyed = s.finished ∧ s.destroyed.Nodup
  gone : ∀ f < s.nextId, s.fibers f = none ↔ f ∈ s.destroyed

theorem Inv.sound (h : Inv s) (hcontrol : s.control = .loop) : s.Sound := by
  have hsched := h.sched
  have hlogs := h.logs
  rw [hcontrol] at hsched hlogs
  refine ⟨?_, ?_, ?_, ?_, ?_, ?_⟩
  · intro f fiber hfiber
    by_cases hmem : f ∈ s.posted
    · obtain ⟨fiber', hfiber', hready⟩ := hsched.ready f hmem
      obtain rfl := Option.some.inj (hfiber'.symm.trans hfiber)
      exact .inl ⟨hready, List.count_eq_one_of_mem hsched.nodup hmem⟩
    · have hsuspended := (hsched.idle f fiber hfiber nofun nofun).resolve_left hmem
      exact .inr ⟨hsuspended, List.count_eq_zero_of_not_mem hmem⟩
  · intro f hmem
    obtain ⟨fiber, hfiber, -⟩ := hsched.ready f hmem
    simp [hfiber]
  · intro point f hf
    obtain ⟨fiber, hfiber, -⟩ := h.refs point f hf
    simp [hfiber]
  · intro k handle f hhandle hf hwatches
    obtain ⟨fiber, hfiber, -⟩ := h.watch.watching k handle f hhandle hf hwatches
    simp [hfiber]
  · have hfinished := hlogs.finished
    rw [show dying s.fibers .loop = [] from rfl, List.append_nil] at hfinished
    exact ⟨hfinished.symm, hlogs.nodup⟩
  · intro f hlt
    exact ⟨hlogs.lost f hlt, fun hmem => (hlogs.gone f hmem).2⟩

/-- **The scheduler is sound**: between two handlers every fiber is posted once or suspended, nothing refers
    to a destroyed fiber, and the fibers that have finished are destroyed, once each; the checks of the
    scheduler never fail, and it follows no pointer to a destroyed fiber. -/
theorem scheduler_sound {c : Except Fault (State V E)} (h : (system setOnce).Reachable c) :
    (∀ s, c = .ok s → s.control = .loop → s.Sound) ∧
      c ≠ .error .notSuspended ∧ c ≠ .error .unexpectedState ∧ c ≠ .error .deadFiber := by
  have hkept := reachable_kept (fun _ _ honce => honce) h
  refine ⟨?_, ?_, ?_, ?_⟩
  · rintro s rfl hcontrol
    exact Inv.sound hkept hcontrol
  · rintro rfl
    obtain ⟨s, a, -, hblamed, -⟩ := hkept
    cases hblamed
  · rintro rfl
    obtain ⟨s, a, -, hblamed, -⟩ := hkept
    cases hblamed
  · rintro rfl
    obtain ⟨s, a, -, hblamed, -⟩ := hkept
    cases hblamed

/-- Fiber 0 joins fiber 1, which sleeps, reads from a socket and returns. -/
def joined : List (Action Unit Unit) :=
  [.event .posted, .call .spawn, .call (.join 0), .reschedule,
    .event .posted, .call .sleepFor, .reschedule, .event (.timer 1),
    .event .posted, .call .operation, .reschedule, .event (.complete 0 (.ok ())),
    .event .posted, .call .ret, .reschedule,
    .event .posted, .call (.drop 0), .call .ret, .reschedule]

theorem scheduler_sound_joined : ∃ s : State Unit Unit, (system setOnce).Reachable (.ok s) ∧
    s.destroyed = [1, 0] ∧ s.Sound := by
  have hrun : ∃ s : State Unit Unit, System.runWhile (meets setOnce) step (.ok (initial Unit Unit)) joined =
      some (.ok s) ∧ s.control = .loop ∧ s.destroyed = [1, 0] := ⟨_, rfl, rfl, rfl⟩
  obtain ⟨s, hs, hcontrol, hdestroyed⟩ := hrun
  have hreach : (system setOnce).Reachable (.ok s) := reachable_of_run joined hs
  exact ⟨s, hreach, hdestroyed, (scheduler_sound hreach).1 s rfl hcontrol⟩

end Tinyfibers
end Tpcc
