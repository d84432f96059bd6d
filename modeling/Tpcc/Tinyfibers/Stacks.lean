import Tpcc.Support.Pool
import Tpcc.Tinyfibers.Frame
import Tpcc.Tinyfibers.Operations

/-!
# `Tinyfibers.Stacks` — the stacks of the fibers

`StackAllocator`, and where the scheduler uses it: `CreateFiber` allocates the stack of a new fiber, and `Destroy` releases
that of a fiber that has terminated, in front of its destructor. The allocator is thread-local, as the scheduler is.

The scheduler is that of `Tinyfibers.Scheduler`, with any program: none of its assumptions on futures and handles is
needed for stacks. All that counts is which fibers there are, and no operation changes that but `CreateFiber` and `Destroy`.

## Contents
- **The allocator.** `StackAllocator`, `Stacked`, `stackNext`.
- **Fibers come and go.** `Same`: what the other operations leave. `next_changes`.
- **Stacks.** `Owned`: each fiber has its own stack. `fibers_own_stacks`.
-/

namespace Tpcc
namespace Tinyfibers

open Transition

/-! ## The allocator -/

/-- The pool of free stacks. `mapped` numbers the stacks that `AllocateNewStack` has mapped. -/
structure StackAllocator where
  pool_ : List Nat := []
  mapped : Nat := 0
  deriving DecidableEq

namespace StackAllocator

def allocateNewStack (a : StackAllocator) : Nat × StackAllocator := (a.mapped, { a with mapped := a.mapped + 1 })

/-- `pool_.back()` and `pop_back()`, of a pool that is not empty. -/
def takeFromPool (a : StackAllocator) (back : Nat) : Nat × StackAllocator := (back, { a with pool_ := a.pool_.dropLast })

def allocate (a : StackAllocator) : Nat × StackAllocator :=
  match a.pool_.getLast? with
  | some back => a.takeFromPool back
  | none => a.allocateNewStack

def release (a : StackAllocator) (stack : Nat) : StackAllocator := { a with pool_ := a.pool_ ++ [stack] }

end StackAllocator

/-- The scheduler, the allocator of its thread, and `stack_` of each fiber. -/
structure Stacked (V E : Type) where
  scheduler : Except Fault (State V E)
  allocator : StackAllocator := {}
  stack_ : FiberId → Option Nat := fun _ => none

variable {V E : Type}

/-- `AllocateStack` in `CreateFiber`. -/
def Stacked.allocateStack (x : Stacked V E) (id : FiberId) : Stacked V E :=
  { x with
    allocator := x.allocator.allocate.2
    stack_ := Function.update x.stack_ id (some x.allocator.allocate.1) }

/-- `ReleaseStack` in `Destroy`. -/
def Stacked.releaseStack (x : Stacked V E) (f : FiberId) : Option (Stacked V E) :=
  (x.stack_ f).map fun stack =>
    { x with allocator := x.allocator.release stack, stack_ := Function.update x.stack_ f none }

/-- What the step of the scheduler does with stacks. -/
def Stacked.withStacks (x : Stacked V E) (s : State V E) : Action V E → Option (Stacked V E)
  | .call .spawn => some (x.allocateStack s.nextId)
  | .reschedule =>
      match dying s.fibers s.control with
      | [] => some x
      | f :: _ => x.releaseStack f
  | _ => some x

def stackNext (x : Stacked V E) (a : Action V E) : Option (Stacked V E) :=
  match x.scheduler with
  | .ok s => (next s a).bind fun c => (x.withStacks s a).map fun x => { x with scheduler := c }
  | .error _ => none

/-- `Run`, in front of `RunLoop`. -/
def stackInitial (V E : Type) : Stacked V E := Stacked.allocateStack { scheduler := .ok (initial V E) } 0

/-- All runs of a scheduler with its stacks, of any program. -/
def stackSystem (V E : Type) : System (Stacked V E) := System.ofNext (stackInitial V E) stackNext

/-! ## Fibers come and go -/

/-- The same fibers are there. -/
structure Same (s s' : State V E) : Prop where
  nextId : s'.nextId = s.nextId
  fibers : ∀ f, s'.fibers f = none ↔ s.fibers f = none

variable {s s' : State V E} {c : Except Fault (State V E)} {f : FiberId} {fiber : Fiber}

theorem Same.refl (s : State V E) : Same s s := ⟨rfl, fun _ => Iff.rfl⟩

theorem Same.trans {s'' : State V E} (h : Same s s') (h' : Same s' s'') : Same s s'' :=
  ⟨h'.nextId.trans h.nextId, fun f => (h'.fibers f).trans (h.fibers f)⟩

theorem Same.of_eq (hfibers : s'.fibers = s.fibers) (hnextId : s'.nextId = s.nextId) : Same s s' :=
  ⟨hnextId, fun f => by rw [hfibers]⟩

/-- A fiber that is there changes. -/
theorem Same.update (hfiber : s.fibers f = some fiber) {x : Fiber}
    (hfibers : s'.fibers = Function.update s.fibers f (some x)) (hnextId : s'.nextId = s.nextId) : Same s s' := by
  refine ⟨hnextId, fun g => ?_⟩
  rw [hfibers]
  by_cases hg : g = f
  · subst hg
    rw [Function.update_self, hfiber]
    exact iff_of_false nofun nofun
  · rw [Function.update_of_ne hg]

theorem Resumes.same (h : Resumes s s') : Same s s' := ⟨h.nextId, h.fibers_none⟩

theorem After.same {s₁ : State V E} (hc : After (Same s₁) c) (h : Same s s₁) : After (Same s) c :=
  hc.mono fun _ => h.trans

namespace State

theorem setWatcher_same (s : State V E) (fiber_ : Option FiberId) (watcher : Option HandleId) :
    After (Same s) (s.setWatcher fiber_ watcher) := by
  unfold setWatcher
  cases fiber_ with
  | none => exact .error
  | some f =>
      simp only
      cases hfiber : s.fibers f with
      | none => exact .error
      | some fiber => exact .ok (.update hfiber rfl rfl)

theorem move_same (s : State V E) (h : HandleId) (that : JoinHandle) : After (Same s) (s.move h that) := by
  unfold move
  simp only
  split
  · exact .ok (.of_eq rfl rfl)
  · exact (setWatcher_same _ _ _).same (.of_eq rfl rfl)

theorem join_same (hfiber : s.fibers f = some fiber) (h : HandleId) (handle : JoinHandle) :
    After (Same s) (s.join f fiber h handle) := by
  unfold join
  split
  · exact .error
  · split
    · exact .ok (.of_eq rfl rfl)
    · exact .ok (.update hfiber rfl rfl)

theorem detach_same (s : State V E) (h : HandleId) (handle : JoinHandle) : After (Same s) (s.detach h handle) := by
  unfold detach
  split
  · exact .error
  · exact (s.setWatcher_same _ _).map fun _ h => h.trans (.of_eq rfl rfl)

theorem drop_same (s : State V E) (h : HandleId) (handle : JoinHandle) : After (Same s) (s.drop h handle) := by
  unfold drop
  split
  · exact .ok (.of_eq rfl rfl)
  · exact .error

theorem onCompleted_same (s : State V E) (h : HandleId) : After (Same s) (s.onCompleted h) := by
  unfold onCompleted
  cases s.handles h with
  | none => exact .error
  | some handle => exact ((wake_resumes _ _).mono fun _ => Resumes.same).same (.of_eq rfl rfl)

theorem goOn_same (s : State V E) (point : Point) : After (Same s) (s.goOn point) := by
  cases point with
  | join h =>
      unfold goOn
      cases hh : s.handles h with
      | none => simp only [hh]; exact .error
      | some handle => simp only [hh]; exact .ok (.of_eq rfl rfl)
  | get p => exact .ok (.of_eq rfl rfl)
  | _ => exact .ok (.refl s)

theorem step_same (s : State V E) (f : FiberId) : After (Same s) (s.step f) := by
  unfold step
  cases hfiber : s.fibers f with
  | none => exact .error
  | some fiber => exact (goOn_same _ _).same (.update hfiber rfl rfl)

end State

/-- A system call but `Spawn`. -/
theorem call_same (hfiber : s.fibers f = some fiber) {k : Call V E} (hk : k ≠ .spawn) (h : call s f fiber k = some c) :
    After (Same s) c := by
  cases k with
  | spawn => exact absurd rfl hk
  | yield | sleepFor | park q | get n | operation | ret =>
      cases h
      exact .ok (.update hfiber rfl rfl)
  | wakeOne q =>
      cases h
      exact (s.wakeOne_resumes q).mono fun _ => Resumes.same
  | wakeAll q =>
      cases h
      exact (State.wakeAllLoop_resumes q _ s).mono fun _ => Resumes.same
  | set n result =>
      cases h
      exact ((s.set_resumes _ result).mono fun _ => Resumes.same).same (.of_eq rfl rfl)
  | join h' =>
      obtain ⟨handle, -, rfl⟩ := Option.map_eq_some_iff.mp h
      exact State.join_same hfiber h' handle
  | detach h' =>
      obtain ⟨handle, -, rfl⟩ := Option.map_eq_some_iff.mp h
      exact s.detach_same h' handle
  | move h' =>
      obtain ⟨handle, -, rfl⟩ := Option.map_eq_some_iff.mp h
      exact s.move_same h' handle
  | drop h' =>
      obtain ⟨handle, -, rfl⟩ := Option.map_eq_some_iff.mp h
      exact s.drop_same h' handle

theorem event_same {e : Event V E} (h : event s e = some c) : After (Same s) c := by
  cases e with
  | posted =>
      simp only [event] at h
      split at h
      · cases h
      · next f rest _ =>
          obtain rfl := Option.some.inj h
          exact (State.step_same _ f).same (.of_eq rfl rfl)
  | timer f =>
      simp only [event, Option.ite_none_right_eq_some, Option.some.injEq] at h
      obtain ⟨-, rfl⟩ := h
      exact ((State.resume_resumes _ f).mono fun _ => Resumes.same).same (.of_eq rfl rfl)
  | complete n result =>
      simp only [event, Option.ite_none_right_eq_some, Option.some.injEq] at h
      obtain ⟨-, rfl⟩ := h
      exact ((State.set_resumes _ _ result).mono fun _ => Resumes.same).same (.of_eq rfl rfl)
  | wakeOne q =>
      cases h
      exact (s.wakeOne_resumes q).mono fun _ => Resumes.same
  | wakeAll q =>
      cases h
      exact (State.wakeAllLoop_resumes q _ s).mono fun _ => Resumes.same
  | set n result =>
      cases h
      exact ((s.set_resumes _ result).mono fun _ => Resumes.same).same (.of_eq rfl rfl)

/-- Fiber `f` is destroyed, and the others stay. -/
def Destroyed (s s' : State V E) (f : FiberId) : Prop :=
  s'.nextId = s.nextId ∧ ∀ g, s'.fibers g = none ↔ g = f ∨ s.fibers g = none

theorem destroyed_delete (h : Same s s') (f : FiberId) : Destroyed s (s'.delete f) f := by
  refine ⟨h.nextId, fun g => ?_⟩
  show Function.update s'.fibers f none g = none ↔ _
  by_cases hg : g = f
  · subst hg
    rw [Function.update_self]
    exact iff_of_true rfl (.inl rfl)
  · rw [Function.update_of_ne hg, h.fibers]
    exact (or_iff_right hg).symm

/-- `Destroy`. -/
theorem destroy_destroyed (h : s.destroy f fiber = .ok s') : Destroyed s s' f := by
  unfold State.destroy at h
  cases hwatcher : fiber.watcher_ with
  | none =>
      simp only [hwatcher] at h
      cases h
      exact destroyed_delete (.refl s) f
  | some k =>
      simp only [hwatcher] at h
      cases hc : s.onCompleted k with
      | error fault =>
          rw [hc] at h
          cases h
      | ok s₁ =>
          rw [hc] at h
          cases h
          exact destroyed_delete (s.onCompleted_same k s₁ hc) f

/-- What a step does to the fibers and to the stacks. -/
inductive Changes (s s' : State V E) (a : Action V E) : Prop where
  | spawn (here : a = .call .spawn) (nextId : s'.nextId = s.nextId + 1)
      (fibers : ∀ f, s'.fibers f = none ↔ f ≠ s.nextId ∧ s.fibers f = none)
  | destroy {f : FiberId} (here : a = .reschedule) (dying : dying s.fibers s.control = [f]) (destroyed : Destroyed s s' f)
  | other (same : Same s s') (kept : ∀ x : Stacked V E, x.withStacks s a = some x)

theorem exists_of_map_ok {g : State V E → State V E} (h : c.map g = .ok s') : ∃ s₁, c = .ok s₁ ∧ s' = g s₁ := by
  cases c with
  | error fault => cases h
  | ok s₁ =>
      cases h
      exact ⟨s₁, rfl, rfl⟩

/-- `Reschedule`, back in the run loop. -/
theorem reschedule_changes (hcontrol : s.control = .back f) (h : s.reschedule f = .ok s') :
    Changes s { s' with control := .loop } .reschedule := by
  unfold State.reschedule at h
  cases hfiber : s.fibers f with
  | none =>
      simp only [hfiber] at h
      cases h
  | some fiber =>
      have hdying : dying s.fibers s.control = if fiber.state_ = .terminated then [f] else [] := by
        rw [hcontrol, Logs.dying_back hfiber]
      have hkept : fiber.state_ ≠ .terminated → ∀ x : Stacked V E, x.withStacks s .reschedule = some x := by
        intro hstate x
        simp only [Stacked.withStacks, hdying, if_neg hstate]
      cases hstate : fiber.state_ with
      | terminated =>
          simp only [hfiber, hstate] at h
          refine .destroy rfl (hdying.trans (if_pos hstate)) ?_
          exact ⟨(destroy_destroyed h).1, (destroy_destroyed h).2⟩
      | runnable | suspended =>
          simp only [hfiber, hstate] at h
          cases h
          exact .other (.of_eq rfl rfl) (hkept (by rw [hstate]; exact nofun))
      | starting | running =>
          simp only [hfiber, hstate] at h
          cases h

/-- **Only `Spawn` and `Destroy` change which fibers there are.** -/
theorem next_changes {a : Action V E} (h : next s a = some (.ok s')) : Changes s s' a := by
  cases a with
  | call k =>
      simp only [next] at h
      split at h
      · next f hcontrol =>
          obtain ⟨fiber, hfiber, h⟩ := Option.bind_eq_some_iff.mp h
          by_cases hk : k = .spawn
          · subst hk
            have hspawn := Option.some.inj h
            rw [State.spawn_newHandle] at hspawn
            cases hspawn
            refine .spawn rfl rfl fun g => ?_
            show Function.update s.fibers s.nextId _ g = none ↔ _
            by_cases hg : g = s.nextId
            · subst hg
              rw [Function.update_self]
              exact iff_of_false (Option.some_ne_none _) (absurd rfl ·.1)
            · rw [Function.update_of_ne hg]
              exact (and_iff_right hg).symm
          · refine .other (call_same hfiber hk h s' rfl) ?_
            intro x
            cases k with
            | spawn => exact absurd rfl hk
            | _ => rfl
      · cases h
  | event e =>
      simp only [next] at h
      split at h
      · exact .other (event_same h s' rfl) fun _ => rfl
      · cases h
  | reschedule =>
      simp only [next] at h
      split at h
      · next f hcontrol =>
          obtain ⟨s₁, hs₁, rfl⟩ := exists_of_map_ok (Option.some.inj h)
          exact reschedule_changes hcontrol hs₁
      · cases h

/-! ## Stacks -/

/-- The fibers there are, and no others, have stacks, each its own. -/
structure Owned (x : Stacked V E) (s : State V E) : Prop where
  fresh : ∀ f, s.nextId ≤ f → s.fibers f = none
  stacks_ : ∀ f, x.stack_ f = none ↔ s.fibers f = none
  accounts : ∃ users, Accounts x.allocator.pool_ x.allocator.mapped x.stack_ users

variable {x x' : Stacked V E} {a : Action V E}

theorem Owned.allocateStack (h : Owned x s) (hnextId : s'.nextId = s.nextId + 1)
    (hfibers : ∀ f, s'.fibers f = none ↔ f ≠ s.nextId ∧ s.fibers f = none) : Owned (x.allocateStack s.nextId) s' := by
  have hnone : x.stack_ s.nextId = none := (h.stacks_ _).mpr (h.fresh _ (Nat.le_refl _))
  obtain ⟨users, haccounts⟩ := h.accounts
  refine ⟨fun f hf => ?_, fun f => ?_, s.nextId :: users, ?_⟩
  · rw [hnextId] at hf
    exact (hfibers f).mpr ⟨Nat.ne_of_gt hf, h.fresh f (Nat.le_of_succ_le hf)⟩
  · rw [hfibers]
    show Function.update x.stack_ s.nextId _ f = none ↔ _
    by_cases hf : f = s.nextId
    · subst hf
      rw [Function.update_self]
      exact iff_of_false (Option.some_ne_none _) (absurd rfl ·.1)
    · rw [Function.update_of_ne hf, h.stacks_, and_iff_right hf]
  · unfold Stacked.allocateStack StackAllocator.allocate
    cases hlast : x.allocator.pool_.getLast? with
    | some back => exact haccounts.take hlast hnone
    | none =>
        have hempty : x.allocator.pool_ = [] := List.getLast?_eq_none_iff.mp hlast
        simp only [StackAllocator.allocateNewStack]
        rw [hempty] at haccounts ⊢
        exact haccounts.make hnone

theorem Owned.releaseStack (h : Owned x s) {stack : Nat} (hstack : x.stack_ f = some stack) (hdestroyed : Destroyed s s' f) :
    Owned { x with allocator := x.allocator.release stack, stack_ := Function.update x.stack_ f none } s' := by
  obtain ⟨users, haccounts⟩ := h.accounts
  obtain ⟨hnextId, hfibers⟩ := hdestroyed
  refine ⟨fun g hg => ?_, fun g => ?_, users.erase f, haccounts.give hstack⟩
  · rw [hnextId] at hg
    exact (hfibers g).mpr (.inr (h.fresh g hg))
  · rw [hfibers]
    show Function.update x.stack_ f none g = none ↔ _
    by_cases hg : g = f
    · subst hg
      rw [Function.update_self]
      exact iff_of_true rfl (.inl rfl)
    · rw [Function.update_of_ne hg, h.stacks_, or_iff_right hg]

theorem Owned.same (h : Owned x s) (hsame : Same s s') : Owned x s' := by
  refine ⟨fun f hf => ?_, fun f => ?_, h.accounts⟩
  · rw [hsame.nextId] at hf
    exact (hsame.fibers f).mpr (h.fresh f hf)
  · rw [hsame.fibers]
    exact h.stacks_ f

/-- A fiber about to be destroyed is there. -/
theorem exists_of_dying {control : Control} (h : f ∈ dying s.fibers control) : s.fibers f ≠ none := by
  unfold dying at h
  split at h
  · split at h
    · next hfiber =>
        split at h
        · obtain rfl := List.mem_singleton.mp h
          rw [hfiber]
          exact nofun
        · cases h
    · cases h
  · cases h

/-- **A step keeps the stacks apart**, and the allocator can always follow the scheduler. -/
theorem Owned.follow (h : Owned x s) (hnext : next s a = some (.ok s')) : ∃ x', x.withStacks s a = some x' ∧ Owned x' s' := by
  cases next_changes hnext with
  | spawn here hnextId hfibers =>
      subst here
      exact ⟨_, rfl, h.allocateStack hnextId hfibers⟩
  | destroy here hdying hdestroyed =>
      subst here
      have hstack : x.stack_ _ ≠ none := (not_congr (h.stacks_ _)).mpr (exists_of_dying (by rw [hdying]; exact List.mem_singleton_self _))
      obtain ⟨stack, hstack⟩ := Option.ne_none_iff_exists'.mp hstack
      refine ⟨_, ?_, h.releaseStack hstack hdestroyed⟩
      simp only [Stacked.withStacks, hdying, Stacked.releaseStack, hstack, Option.map_some]
  | other hsame hkept => exact ⟨x, hkept x, h.same hsame⟩

theorem stackNext_ok (hs : x.scheduler = .ok s) (h : stackNext x a = some x') :
    ∃ c y, next s a = some c ∧ x.withStacks s a = some y ∧ x' = { y with scheduler := c } := by
  unfold stackNext at h
  rw [hs] at h
  obtain ⟨c, hc, h⟩ := Option.bind_eq_some_iff.mp h
  obtain ⟨y, hy, rfl⟩ := Option.map_eq_some_iff.mp h
  exact ⟨c, y, hc, hy, rfl⟩

theorem stackNext_error {fault : Fault} (hs : x.scheduler = .error fault) : stackNext x a = none := by
  unfold stackNext
  rw [hs]

theorem owned_init : Owned (stackInitial V E) (initial V E) := by
  have hempty : Owned ({ scheduler := .ok {} } : Stacked V E) {} := ⟨fun _ _ => rfl, fun _ => iff_of_true rfl rfl, [], .empty⟩
  have hfibers : ∀ f, (initial V E).fibers f = none ↔ f ≠ 0 ∧ ({} : State V E).fibers f = none := by
    intro f
    show Function.update (fun _ => none) 0 _ f = none ↔ _
    by_cases hf : f = 0
    · subst hf
      rw [Function.update_self]
      exact iff_of_false (Option.some_ne_none _) (absurd rfl ·.1)
    · rw [Function.update_of_ne hf]
      exact iff_of_true rfl ⟨hf, rfl⟩
  obtain ⟨hfresh, hstacks, haccounts⟩ := hempty.allocateStack rfl hfibers
  exact ⟨hfresh, hstacks, haccounts⟩

theorem reachable_owned (h : (stackSystem V E).Reachable x) : ∀ s, x.scheduler = .ok s → Owned x s := by
  refine h.invariant_next (P := fun x => ∀ s, x.scheduler = .ok s → Owned x s) ?_ ?_
  · intro s hs
    cases hs
    exact owned_init
  · intro x a x' hinv hnext s' hs'
    cases hs : x.scheduler with
    | error fault =>
        rw [stackNext_error hs] at hnext
        cases hnext
    | ok s =>
        obtain ⟨c, y, hc, hy, rfl⟩ := stackNext_ok hs hnext
        obtain rfl : c = .ok s' := hs'
        obtain ⟨y', hy', howned⟩ := (hinv s hs).follow hc
        obtain rfl := Option.some.inj (hy.symm.trans hy')
        exact ⟨howned.fresh, howned.stacks_, howned.accounts⟩

/-- The fibers there are. -/
structure Lists (s : State V E) (live : List FiberId) : Prop where
  nodup : live.Nodup
  mem : ∀ f, f ∈ live ↔ s.fibers f ≠ none

theorem Owned.exists_live (h : Owned x s) : ∃ live, Lists s live ∧ x.allocator.pool_.length + live.length = x.allocator.mapped := by
  obtain ⟨users, haccounts⟩ := h.accounts
  refine ⟨users, ⟨haccounts.nodup, fun f => ?_⟩, haccounts.length⟩
  rw [haccounts.mem_users]
  exact not_congr (h.stacks_ f)

/-- There was a moment with as many fibers as stacks have been mapped since. -/
def Peak (x : Stacked V E) : Prop :=
  ∃ x₁ s₁ live, (stackSystem V E).Reachable x₁ ∧ (stackSystem V E).Steps x₁ x ∧ x₁.scheduler = .ok s₁ ∧ Lists s₁ live ∧
    live.length = x.allocator.mapped

/-- A stack is mapped when the pool is empty. -/
theorem withStacks_mapped {y : Stacked V E} (h : x.withStacks s a = some y) :
    y.allocator.mapped = x.allocator.mapped ∨ y.allocator.pool_ = [] := by
  unfold Stacked.withStacks at h
  split at h
  · obtain rfl := Option.some.inj h
    unfold Stacked.allocateStack StackAllocator.allocate
    cases hlast : x.allocator.pool_.getLast? with
    | some back => exact .inl rfl
    | none => exact .inr (List.getLast?_eq_none_iff.mp hlast)
  · split at h
    · obtain rfl := Option.some.inj h
      exact .inl rfl
    · obtain ⟨stack, -, rfl⟩ := Option.map_eq_some_iff.mp h
      exact .inl rfl
  · obtain rfl := Option.some.inj h
    exact .inl rfl

/-- With an empty pool, this is such a moment. -/
theorem peak_now (hx : (stackSystem V E).Reachable x) (hs : x.scheduler = .ok s) (hempty : x.allocator.pool_ = []) : Peak x := by
  obtain ⟨live, hlive, hlength⟩ := (reachable_owned hx s hs).exists_live
  rw [hempty, List.length_nil, Nat.zero_add] at hlength
  exact ⟨x, s, live, hx, System.Steps.refl, hs, hlive, hlength⟩

theorem reachable_peak (h : (stackSystem V E).Reachable x) : ∀ s, x.scheduler = .ok s → Peak x := by
  refine h.invariant_reachable (P := fun x => ∀ s, x.scheduler = .ok s → Peak x) ?_ ?_
  · rintro x rfl s hs
    exact peak_now (.of_init rfl) hs rfl
  · rintro x x' hx hinv ⟨a, hnext⟩ s' hs'
    have hx' := hx.step ⟨a, hnext⟩
    cases hs : x.scheduler with
    | error fault =>
        rw [stackNext_error hs] at hnext
        cases hnext
    | ok s =>
        obtain ⟨c, y, -, hy, rfl⟩ := stackNext_ok hs hnext
        rcases withStacks_mapped hy with hmapped | hempty
        · obtain ⟨x₁, s₁, live, hx₁, hsteps, hs₁, hlive, hlength⟩ := hinv s hs
          exact ⟨x₁, s₁, live, hx₁, hsteps.tail ⟨a, hnext⟩, hs₁, hlive, hlength.trans hmapped.symm⟩
        · exact peak_now hx' hs' hempty

/-- The allocator follows the scheduler into a fault, too. -/
theorem Owned.exists_stackNext (h : Owned x s) (hs : x.scheduler = .ok s) {c : Except Fault (State V E)}
    (hc : next s a = some c) : ∃ x', stackNext x a = some x' ∧ x'.scheduler = c := by
  have hfollows : ∃ y, x.withStacks s a = some y := by
    cases a with
    | call k => cases k <;> exact ⟨_, rfl⟩
    | event e => exact ⟨_, rfl⟩
    | reschedule =>
        cases hdying : dying s.fibers s.control with
        | nil =>
            simp only [Stacked.withStacks, hdying]
            exact ⟨_, rfl⟩
        | cons f rest =>
            have hfiber : s.fibers f ≠ none := exists_of_dying (by rw [hdying]; exact List.mem_cons_self)
            obtain ⟨stack, hstack⟩ := Option.ne_none_iff_exists'.mp ((not_congr (h.stacks_ f)).mpr hfiber)
            simp only [Stacked.withStacks, hdying, Stacked.releaseStack, hstack]
            exact ⟨_, rfl⟩
  obtain ⟨y, hy⟩ := hfollows
  refine ⟨{ y with scheduler := c }, ?_, rfl⟩
  unfold stackNext
  rw [hs]
  simp only [hc, hy, Option.bind_some, Option.map_some]

/-- **Every fiber has its own stack, and no stack is lost.** In every run of the scheduler, with any program: the fibers
    there are have stacks, and no others; no stack is that of two fibers, or of a fiber and in the pool, or in the pool
    twice; the stacks mapped are those of the fibers and those in the pool; there was a moment when as many fibers were there
    as stacks have been mapped, so that no stack is mapped while one is free; and the allocator never stops the scheduler. -/
theorem fibers_own_stacks (h : (stackSystem V E).Reachable x) (hs : x.scheduler = .ok s) :
    (∀ f, s.fibers f ≠ none ↔ ∃ stack, x.stack_ f = some stack) ∧
      (∀ f stack, x.stack_ f = some stack →
        stack < x.allocator.mapped ∧ stack ∉ x.allocator.pool_ ∧ ∀ g, x.stack_ g = some stack → g = f) ∧
      x.allocator.pool_.Nodup ∧
      (∃ live, Lists s live ∧ x.allocator.pool_.length + live.length = x.allocator.mapped) ∧ Peak x ∧
      ∀ a c, next s a = some c → ∃ x', stackNext x a = some x' ∧ x'.scheduler = c := by
  have howned := reachable_owned h s hs
  obtain ⟨users, haccounts⟩ := howned.accounts
  refine ⟨fun f => ?_, fun f stack hf => ?_, ?_, howned.exists_live, reachable_peak h s hs, ?_⟩
  · rw [← Option.ne_none_iff_exists']
    exact not_congr (howned.stacks_ f).symm
  · exact ⟨haccounts.lt hf, haccounts.not_mem hf, fun g hg => haccounts.injective hg hf⟩
  · exact (List.nodup_append.mp haccounts.all_nodup).1
  · exact fun a c hc => howned.exists_stackNext hs hc

/-- Fiber 0 spawns fiber 1 and terminates; fiber 2, spawned by fiber 1, gets its stack. -/
theorem fibers_own_stacks_reused : ∃ (x : Stacked Unit Unit) (s : State Unit Unit), (stackSystem Unit Unit).Reachable x ∧
    x.scheduler = .ok s ∧ x.stack_ 2 = some 0 ∧ x.allocator.mapped = 2 ∧ ∀ g, x.stack_ g = some 0 → g = 2 := by
  have hrun : ∃ x s, System.run stackNext (stackInitial Unit Unit)
      [.event .posted, .call .spawn, .call .ret, .reschedule, .event .posted, .call .spawn] = some x ∧
        x.scheduler = .ok s ∧ x.stack_ 2 = some 0 ∧ x.allocator.mapped = 2 := ⟨_, _, rfl, rfl, rfl, rfl⟩
  obtain ⟨x, s, hx, hs, hstack, hmapped⟩ := hrun
  have h : (stackSystem Unit Unit).Reachable x := System.reachable_of_run _ hx
  exact ⟨x, s, h, hs, hstack, hmapped, ((fibers_own_stacks h hs).2.1 2 0 hstack).2.2⟩

end Tinyfibers
end Tpcc
