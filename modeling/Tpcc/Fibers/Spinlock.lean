import Tpcc.Fibers.Fiber
import Tpcc.Transition.Section

/-!
# `Fibers.Spinlock` — the spinlock, and the stack allocator it guards

`Spinlock::lock` and `unlock`, one atomic operation at a time, for any number of threads. A thread calls `unlock`
only when it holds the lock.

`StackAllocator::Allocate` and `Release` do with the pool one operation of the deque after the other, inside a
`std::lock_guard`. So what the fibers take for one step is one: `allocate_release_atomic`.
-/

namespace Tpcc
namespace Fibers

open Transition

/-- The member of `Spinlock`. -/
structure Spinlock where
  locked_ : UInt32 := 0

namespace Spinlock

/-- Where a thread is. -/
inductive Pc where
  /-- Outside all calls. -/
  | out
  /-- `lock`: `locked_.exchange(1)`. -/
  | exchange
  /-- `lock`: `locked_.load()`. -/
  | load
  /-- `unlock`: `locked_.store(0)`. -/
  | store
  deriving DecidableEq

/-- A thread; `holds` from the return of `lock` to the next `unlock`. -/
structure Thread where
  pc : Pc := .out
  holds : Bool := false
  deriving DecidableEq

structure State (ι : Type) where
  lock : Spinlock := {}
  threads : ι → Thread := fun _ => {}

/-- Who takes the next step: a thread that calls `lock` or `unlock`, or does its next operation. -/
inductive Action (ι : Type) where
  | lock (t : ι)
  | unlock (t : ι)
  | step (t : ι)

/-- One atomic operation. -/
def exec (l : Spinlock) (th : Thread) : Option (Spinlock × Thread) :=
  match th.pc with
  | .out => none
  | .exchange => some ({ locked_ := 1 }, if l.locked_ ≠ 0 then { th with pc := .load } else ⟨.out, true⟩)
  | .load => some (l, if l.locked_ ≠ 0 then th else { th with pc := .exchange })
  | .store => some ({ locked_ := 0 }, ⟨.out, false⟩)

variable {ι : Type} [DecidableEq ι]

def next (s : State ι) : Action ι → Option (State ι)
  | .lock t =>
      if (s.threads t).pc = .out then
        some { s with threads := Function.update s.threads t { s.threads t with pc := .exchange } }
      else none
  | .unlock t =>
      if (s.threads t).pc = .out ∧ (s.threads t).holds = true then
        some { s with threads := Function.update s.threads t ⟨.store, false⟩ }
      else none
  | .step t =>
      (exec s.lock (s.threads t)).map fun (lock, th) => { lock, threads := Function.update s.threads t th }

/-- What a client sees: calls, and the return of `lock`. -/
def label (s : State ι) : Action ι → Option (MutexEvent ι)
  | .lock t => some (.lock t)
  | .unlock t => some (.unlock t)
  | .step t => if (s.threads t).pc = .exchange ∧ s.lock.locked_ = 0 then some (.acquire t) else none

/-- Threads `ι` and one spinlock. -/
def lts (ι : Type) [DecidableEq ι] : Lts (State ι) (MutexEvent ι) := Lts.ofNext {} next label

/-! ## Who owns the lock -/

/-- The thread has set `locked_` and not yet reset it. -/
def owns (th : Thread) : Bool :=
  match th.pc with
  | .store => true
  | _ => th.holds

/-- `locked_` is 1 exactly while one thread owns the lock. -/
inductive Owned (s : State ι) : Prop where
  | free (unlocked : s.lock.locked_ = 0) (nobody : Nobody owns s.threads)
  | held (t : ι) (locked : s.lock.locked_ = 1) (only : Only owns s.threads t)

/-- A thread that releases the lock holds it no more. -/
def Released (s : State ι) : Prop := ∀ t, (s.threads t).pc = .store → (s.threads t).holds = false

theorem owns_of_holds {th : Thread} (h : th.holds = true) : owns th = true := by
  unfold owns
  split
  · rfl
  · exact h

section

variable {s : State ι}

/-- A step of one thread that neither writes `locked_` nor changes who owns the lock. -/
theorem Owned.same (h : Owned s) {t : ι} {th : Thread} (howns : owns th = owns (s.threads t)) :
    Owned { s with threads := Function.update s.threads t th } := by
  cases h with
  | free unlocked nobody => exact .free unlocked (nobody.congr (update_same howns))
  | held i locked only => exact .held i locked (only.congr (update_same howns))

omit [DecidableEq ι] in
/-- `exchange(1)` on a lock that is not free changes nothing. -/
theorem Owned.exchange (h : Owned s) (htaken : s.lock.locked_ ≠ 0) : ({ locked_ := 1 } : Spinlock) = s.lock := by
  cases h with
  | free unlocked nobody => exact absurd unlocked htaken
  | held i locked only => rw [← locked]

omit [DecidableEq ι] in
theorem Owned.nobody (h : Owned s) (hfree : s.lock.locked_ = 0) : Nobody owns s.threads := by
  cases h with
  | free unlocked nobody => exact nobody
  | held i locked only =>
      rw [hfree] at locked
      cases locked

omit [DecidableEq ι] in
/-- The owner is the only one. -/
theorem Owned.only (h : Owned s) {t : ι} (ht : owns (s.threads t) = true) : Only owns s.threads t := by
  cases h with
  | free unlocked nobody => exact (nobody.not ht).elim
  | held i locked only => exact only.eq ht ▸ only

omit [DecidableEq ι] in
theorem nobody_holds {f : ι → Thread} (h : Nobody owns f) : Nobody Thread.holds f := by
  intro i
  rw [Bool.eq_false_iff]
  exact fun hi => h.not (owns_of_holds hi)

omit [DecidableEq ι] in
theorem only_holds {f : ι → Thread} {t : ι} (h : Only owns f t) (ht : (f t).holds = true) : Only Thread.holds f t := by
  refine ⟨ht, ?_⟩
  intro j hj
  rw [Bool.eq_false_iff]
  exact fun hj' => hj (h.eq (owns_of_holds hj'))

/-- The step of thread `t` leaves no other thread at its store with the lock. -/
theorem Released.step (h : Released s) {t : ι} {lock : Spinlock} {th : Thread}
    (hth : th.pc = .store → th.holds = false) :
    Released { lock, threads := Function.update s.threads t th } :=
  (Function.forall_update_iff s.threads fun _ th => th.pc = .store → th.holds = false).mpr ⟨hth, fun i _ => h i⟩

end

structure Inv (s : State ι) : Prop where
  owned : Owned s
  released : Released s

/-- **One step keeps the owner, and is one of a mutex.** -/
theorem Inv.stepped {s s' : State ι} {a : Action ι} (h : Inv s) (hnext : next s a = some s') :
    Inv s' ∧ LockStep Thread.holds s.threads s'.threads (label s a) := by
  cases a with
  | lock t =>
      simp only [next, Option.ite_none_right_eq_some, Option.some.injEq] at hnext
      obtain ⟨hpc, rfl⟩ := hnext
      exact ⟨⟨h.owned.same (by simp [owns, hpc]), h.released.step nofun⟩, .lock t (update_same rfl)⟩
  | unlock t =>
      simp only [next, Option.ite_none_right_eq_some, Option.some.injEq] at hnext
      obtain ⟨⟨hpc, hholds⟩, rfl⟩ := hnext
      have honly := only_holds (h.owned.only (owns_of_holds hholds)) hholds
      exact ⟨⟨h.owned.same (by simp [owns, hpc, hholds]), h.released.step fun _ => rfl⟩, .unlock t honly (honly.drop rfl)⟩
  | step t =>
      obtain ⟨⟨lock, th⟩, hexec, rfl⟩ := Option.map_eq_some_iff.mp hnext
      have hquiet : (s.threads t).pc ≠ .exchange → label s (.step t) = none :=
        fun hpc => if_neg fun hboth => hpc hboth.1
      cases hpc : (s.threads t).pc with
      | out =>
          simp only [exec, hpc] at hexec
          cases hexec
      | exchange =>
          simp only [exec, hpc] at hexec
          by_cases hfree : s.lock.locked_ = 0
          · rw [if_neg (not_not.mpr hfree)] at hexec
            cases hexec
            have hlabel : label s (.step t) = some (.acquire t) := if_pos ⟨hpc, hfree⟩
            have hnobody := h.owned.nobody hfree
            rw [hlabel]
            exact ⟨⟨.held t rfl (hnobody.take rfl), h.released.step nofun⟩,
              .acquire t (nobody_holds hnobody) ((nobody_holds hnobody).take rfl)⟩
          · rw [if_pos hfree] at hexec
            cases hexec
            have hlabel : label s (.step t) = none := if_neg fun hboth => hfree hboth.2
            rw [hlabel, h.owned.exchange hfree]
            exact ⟨⟨h.owned.same (by simp [owns, hpc]), h.released.step nofun⟩, .silent (update_same rfl)⟩
      | load =>
          simp only [exec, hpc] at hexec
          rw [hquiet (by simp [hpc])]
          by_cases hfree : s.lock.locked_ = 0
          · rw [if_neg (not_not.mpr hfree)] at hexec
            cases hexec
            exact ⟨⟨h.owned.same (by simp [owns, hpc]), h.released.step nofun⟩, .silent (update_same rfl)⟩
          · rw [if_pos hfree] at hexec
            cases hexec
            exact ⟨⟨h.owned.same rfl, h.released.step (h.released t)⟩, .silent (update_same rfl)⟩
      | store =>
          simp only [exec, hpc] at hexec
          cases hexec
          rw [hquiet (by simp [hpc])]
          have honly := h.owned.only (t := t) (by simp [owns, hpc])
          exact ⟨⟨.free rfl (honly.drop rfl), h.released.step nofun⟩, .silent (update_same (h.released t hpc).symm)⟩

/-- **A spinlock is a mutex.** -/
theorem refines (ι : Type) [DecidableEq ι] : (lts ι).Refines (mutex ι) := by
  refine mutex_refines (p := Thread.holds) State.threads Inv ?_ ?_
  · rintro s rfl
    exact ⟨⟨.free rfl fun _ => rfl, fun _ _ => rfl⟩, fun _ => rfl⟩
  · rintro s l s' h ⟨a, hnext, rfl⟩
    exact h.stepped hnext

end Spinlock

namespace StackAllocator

/-! ## The allocator, one operation of the deque at a time -/

/-- A call of the allocator. -/
inductive Call where
  | allocate
  | release (stack : Nat)
  deriving DecidableEq

/-- The operation a thread does next. -/
inductive Pc where
  /-- `Allocate`: `pool_.empty()`. -/
  | empty
  /-- `Allocate`: `GetNewStack()`. -/
  | getNewStack
  /-- `Allocate`: `std::move(pool_.back())`. -/
  | back
  /-- `Allocate`: `pool_.pop_back()`. -/
  | popBack (stack : Nat)
  /-- `Release`: `pool_.push_back(std::move(stack))`. -/
  | pushBack (stack : Nat)

/-- One operation; `back` and `pop_back` of an empty deque are undefined. -/
def access : Pc → StackAllocator → Option (StackAllocator × (Pc ⊕ Option Nat))
  | .empty, a => some (a, .inl (if a.pool_.isEmpty then .getNewStack else .back))
  | .getNewStack, a => some ({ a with mapped := a.mapped + 1 }, .inr (some a.mapped))
  | .back, a => a.pool_.getLast?.map fun stack => (a, .inl (.popBack stack))
  | .popBack stack, a =>
      if a.pool_.isEmpty then none else some ({ a with pool_ := a.pool_.dropLast }, .inr (some stack))
  | .pushBack stack, a => some ({ a with pool_ := a.pool_ ++ [stack] }, .inr none)

/-- `Allocate` and `Release`. -/
def object : Object StackAllocator Call (Option Nat) where
  Pc := Pc
  start
    | .allocate => .empty
    | .release stack => .pushBack stack
  access := access

/-- The threads `ι` with their calls, over `lock_`. -/
def lts (ι : Type) [DecidableEq ι] :
    Lts ((StackAllocator × (ι → object.Place)) × Spinlock.State ι) (Object.Event ι Call (Option Nat)) :=
  (object.sections ι {}).sync (Spinlock.lts ι)

/-- How far a call has come that began with the allocator `a`, which it has not changed. -/
inductive Reads (a : StackAllocator) : Call → Pc → Prop where
  | empty : Reads a .allocate .empty
  | getNewStack (none : a.pool_.getLast? = none) : Reads a .allocate .getNewStack
  | back (stack : Nat) (last : a.pool_.getLast? = some stack) : Reads a .allocate .back
  | popBack (stack : Nat) (last : a.pool_.getLast? = some stack) : Reads a .allocate (.popBack stack)
  | pushBack (stack : Nat) : Reads a (.release stack) (.pushBack stack)

/-- One operation that is not the last. -/
theorem Reads.access {c : Call} {a a' : StackAllocator} {p p' : Pc} (h : Reads a c p)
    (haccess : access p a = some (a', .inl p')) : a' = a ∧ Reads a c p' := by
  cases h with
  | empty =>
      cases hlast : a.pool_.getLast? with
      | none =>
          rw [StackAllocator.access, List.getLast?_eq_none_iff.mp hlast] at haccess
          cases haccess
          exact ⟨rfl, .getNewStack hlast⟩
      | some stack =>
          have hne : a.pool_.isEmpty = false := List.isEmpty_eq_false_iff_exists_mem.mpr ⟨stack, List.mem_of_getLast? hlast⟩
          rw [StackAllocator.access, hne] at haccess
          cases haccess
          exact ⟨rfl, .back stack hlast⟩
  | back stack last =>
      rw [StackAllocator.access, last] at haccess
      cases haccess
      exact ⟨rfl, .popBack stack last⟩
  | getNewStack none => cases haccess
  | pushBack stack => cases haccess
  | popBack stack last =>
      simp only [StackAllocator.access, Option.ite_none_left_eq_some] at haccess
      obtain ⟨-, heq⟩ := haccess
      cases heq

/-- **A call changes the allocator with its last operation.** -/
theorem reads {c : Call} {a a' : StackAllocator} {p : object.Pc} (h : object.Partial c a a' p) :
    a' = a ∧ Reads a c p := by
  induction h with
  | start =>
      cases c with
      | allocate => exact ⟨rfl, .empty⟩
      | release stack => exact ⟨rfl, .pushBack stack⟩
  | next run haccess ih =>
      obtain ⟨rfl, hreads⟩ := ih
      exact hreads.access haccess

/-- `back` and `pop_back` find a stack. -/
theorem defined : object.Defined := by
  intro c a a' p h
  obtain ⟨rfl, hreads⟩ := reads h
  cases hreads with
  | empty => rfl
  | getNewStack none => rfl
  | pushBack stack => rfl
  | back stack last => simp [object, access, last]
  | popBack stack last =>
      have hne : a'.pool_ ≠ [] := List.ne_nil_of_mem (List.mem_of_getLast? last)
      simp [object, access, hne]

/-- **What a call does as a whole.** -/
theorem effect {c : Call} {a a' : StackAllocator} {r : Option Nat} (h : object.Effect c a a' r) :
    match c with
    | .allocate => r = some a.allocate.1 ∧ a' = a.allocate.2
    | .release stack => r = none ∧ a' = a.release stack := by
  obtain ⟨a₁, p, hrun, haccess⟩ := h
  obtain ⟨rfl, hreads⟩ := reads hrun
  cases hreads with
  | empty => cases haccess
  | back stack last =>
      simp only [object, access, last] at haccess
      cases haccess
  | pushBack stack =>
      cases haccess
      exact ⟨rfl, rfl⟩
  | getNewStack none =>
      cases haccess
      simp [allocate, none]
  | popBack stack last =>
      simp only [object, access, Option.ite_none_left_eq_some] at haccess
      obtain ⟨-, heq⟩ := haccess
      cases heq
      simp [allocate, last]

/-! ## Who has the stacks -/

section

variable {ι : Type}

/-- A call hands a stack out with its return, and takes one back when it begins. -/
def hand (hands : List Nat) : Object.Event ι Call (Option Nat) → Option (List Nat)
  | .call _ .allocate => some hands
  | .call _ (.release stack) => if stack ∈ hands then some (hands.erase stack) else none
  | .returns _ (some stack) => some (hands ++ [stack])
  | .returns _ none => some hands

/-- The stacks handed out and not given back; `none` if one was given back that nobody had. -/
def handedOut (seen : List (Object.Event ι Call (Option Nat))) : Option (List Nat) := seen.foldlM hand []

/-- The stack that a call has for itself. -/
def stackOf : Object.Phase Call (Option Nat) → Option Nat
  | .idle => none
  | .called .allocate => none
  | .called (.release stack) => some stack
  | .done r => r

/-- Each stack is in one place: handed out, with a call, or in the pool. -/
structure Handed (hands : List Nat) (a : StackAllocator) (f : ι → Object.Phase Call (Option Nat)) : Prop where
  wf : a.Wf
  nodup : hands.Nodup
  used : ∀ stack ∈ hands, a.InUse stack
  inCall : ∀ t stack, stackOf (f t) = some stack → a.InUse stack ∧ stack ∉ hands
  distinct : ∀ t u stack, stackOf (f t) = some stack → stackOf (f u) = some stack → t = u

namespace Handed

variable [DecidableEq ι] {hands : List Nat} {a : StackAllocator} {f : ι → Object.Phase Call (Option Nat)} {t : ι}

/-- What a thread has after a step of thread `t`. -/
theorem stackOf_update {x : Object.Phase Call (Option Nat)} {u : ι} {stack : Nat}
    (h : stackOf (Function.update f t x u) = some stack) :
    u = t ∧ stackOf x = some stack ∨ u ≠ t ∧ stackOf (f u) = some stack := by
  by_cases hu : u = t
  · subst hu
    rw [Function.update_self] at h
    exact .inl ⟨rfl, h⟩
  · rw [Function.update_of_ne hu] at h
    exact .inr ⟨hu, h⟩

/-- Thread `t` goes on, with the stack `x` shows, if any, and the others with theirs. -/
theorem step (h : Handed hands a f) {hands' : List Nat} {a' : StackAllocator} {x : Object.Phase Call (Option Nat)}
    (hwf : a'.Wf) (hnodup : hands'.Nodup) (hused : ∀ stack ∈ hands', a'.InUse stack)
    (hmine : ∀ stack, stackOf x = some stack →
      (a'.InUse stack ∧ stack ∉ hands') ∧ ∀ u, u ≠ t → stackOf (f u) ≠ some stack)
    (hothers : ∀ u stack, u ≠ t → stackOf (f u) = some stack → a'.InUse stack ∧ stack ∉ hands') :
    Handed hands' a' (Function.update f t x) := by
  refine ⟨hwf, hnodup, hused, ?_, ?_⟩
  · intro u stack hu
    rcases stackOf_update hu with ⟨-, hx⟩ | ⟨hne, hold⟩
    · exact (hmine stack hx).1
    · exact hothers u stack hne hold
  · intro u v stack hu hv
    rcases stackOf_update hu with ⟨hut, hx⟩ | ⟨hne, hold⟩ <;> rcases stackOf_update hv with ⟨hvt, hx'⟩ | ⟨hne', hold'⟩
    · exact hut.trans hvt.symm
    · exact absurd hold' ((hmine stack hx).2 v hne')
    · exact absurd hold ((hmine stack hx').2 u hne)
    · exact h.distinct u v stack hold hold'

/-- Nothing is handed out or given back. -/
theorem move (h : Handed hands a f) {x : Object.Phase Call (Option Nat)} (hx : stackOf x = none) :
    Handed hands a (Function.update f t x) := by
  refine h.step h.wf h.nodup h.used ?_ fun u stack _ hu => h.inCall u stack hu
  intro stack hmine
  rw [hx] at hmine
  cases hmine

/-- `Release` is called with a stack that has been handed out. -/
theorem giveBack (h : Handed hands a f) {stack : Nat} (hmem : stack ∈ hands) :
    Handed (hands.erase stack) a (Function.update f t (.called (.release stack))) := by
  refine h.step h.wf (h.nodup.erase stack) (fun k hk => h.used k (List.mem_of_mem_erase hk)) ?_ ?_
  · rintro k hk
    cases hk
    refine ⟨⟨h.used stack hmem, h.nodup.not_mem_erase⟩, ?_⟩
    intro u _ hu
    exact (h.inCall u stack hu).2 hmem
  · intro u k _ hu
    obtain ⟨hused, hnot⟩ := h.inCall u k hu
    exact ⟨hused, fun hk => hnot (List.mem_of_mem_erase hk)⟩

/-- `Allocate` takes effect. -/
theorem allocate (h : Handed hands a f) :
    Handed hands a.allocate.2 (Function.update f t (.done (some a.allocate.1))) := by
  obtain ⟨hwf, hfresh, hnew, hkept⟩ := allocate_spec h.wf
  refine h.step hwf h.nodup (fun k hk => hkept k (h.used k hk)) ?_ ?_
  · rintro k hk
    cases hk
    refine ⟨⟨hnew, fun hmem => hfresh (h.used _ hmem)⟩, ?_⟩
    intro u _ hu
    exact hfresh (h.inCall u _ hu).1
  · intro u k _ hu
    exact ⟨hkept k (h.inCall u k hu).1, (h.inCall u k hu).2⟩

/-- `Release` takes effect. -/
theorem release (h : Handed hands a f) {stack : Nat} (ht : f t = .called (.release stack)) :
    Handed hands (a.release stack) (Function.update f t (.done none)) := by
  have hmine : stackOf (f t) = some stack := by rw [ht]; rfl
  obtain ⟨hused, hnot⟩ := h.inCall t stack hmine
  obtain ⟨hwf, hkept⟩ := release_spec h.wf hused
  refine h.step hwf h.nodup ?_ nofun ?_
  · intro k hk
    exact hkept k (fun heq => hnot (heq ▸ hk)) (h.used k hk)
  · intro u k hne hu
    have hk : k ≠ stack := fun heq => hne (h.distinct u t stack (heq ▸ hu) hmine)
    exact ⟨hkept k hk (h.inCall u k hu).1, (h.inCall u k hu).2⟩

/-- `Allocate` returns. -/
theorem handOut (h : Handed hands a f) {stack : Nat} (ht : f t = .done (some stack)) :
    Handed (hands ++ [stack]) a (Function.update f t .idle) := by
  have hmine : stackOf (f t) = some stack := by rw [ht]; rfl
  obtain ⟨hused, hnot⟩ := h.inCall t stack hmine
  refine h.step h.wf ?_ ?_ nofun ?_
  · rw [List.nodup_append_comm, List.singleton_append, List.nodup_cons]
    exact ⟨hnot, h.nodup⟩
  · intro k hk
    rcases List.mem_append.mp hk with hk | hk
    · exact h.used k hk
    · exact List.mem_singleton.mp hk ▸ hused
  · intro u k hne hu
    refine ⟨(h.inCall u k hu).1, ?_⟩
    intro hk
    rcases List.mem_append.mp hk with hk | hk
    · exact (h.inCall u k hu).2 hk
    · rw [List.mem_singleton.mp hk] at hu
      exact hne (h.distinct u t stack hu hmine)

end Handed

variable [DecidableEq ι]

/-- **One step of the atomic allocator.** -/
theorem Handed.stepped {hands hands' : List Nat} {p p' : StackAllocator × (ι → Object.Phase Call (Option Nat))}
    {e : Option (Object.Event ι Call (Option Nat))} (h : Handed hands p.1 p.2) (hstep : object.AtomicStep p e p')
    (hhands : e.toList.foldlM hand hands = some hands') : Handed hands' p'.1 p'.2 := by
  cases hstep with
  | call t c idle =>
      cases c with
      | allocate =>
          cases hhands
          exact h.move rfl
      | release stack =>
          simp only [Option.toList_some, List.foldlM_cons, List.foldlM_nil, hand] at hhands
          split at hhands
          · next hmem =>
              cases hhands
              exact h.giveBack hmem
          · cases hhands
  | effect t c r called heffect =>
      cases hhands
      have hwhole := effect heffect
      cases c with
      | allocate =>
          obtain ⟨rfl, rfl⟩ := hwhole
          exact h.allocate
      | release stack =>
          obtain ⟨rfl, rfl⟩ := hwhole
          exact h.release called
  | returns t r done =>
      cases r with
      | none =>
          cases hhands
          exact h.move rfl
      | some stack =>
          cases hhands
          exact h.handOut done

/-- **A run of it.** -/
theorem handed_run {p p' : StackAllocator × (ι → Object.Phase Call (Option Nat))}
    {seen : List (Object.Event ι Call (Option Nat))} (hrun : (object.atomic ι {}).Run p seen p')
    (hinit : (object.atomic ι {}).init p) : ∀ {hands : List Nat}, handedOut seen = some hands → Handed hands p'.1 p'.2 := by
  induction hrun with
  | refl =>
      intro hands hhands
      cases hhands
      cases hinit
      exact ⟨⟨.nil, nofun⟩, .nil, nofun, nofun, nofun⟩
  | tail run step ih =>
      intro hands' hhands
      rw [handedOut, List.foldlM_append] at hhands
      obtain ⟨hands, hbefore, hstep⟩ := Option.bind_eq_some_iff.mp hhands
      exact (ih hbefore).stepped step hstep

end

/-- **Under the spinlock, `Allocate` and `Release` are atomic**; neither `back` nor `pop_back` is called on an empty
    pool, and no stack is handed out twice, as long as only stacks that are handed out are given back. -/
theorem allocate_release_atomic (ι : Type) [DecidableEq ι] :
    (lts ι).Refines (object.atomic ι {}) ∧
    (∀ s : (StackAllocator × (ι → object.Place)) × Spinlock.State ι, (lts ι).system.Reachable s →
      ∀ (t : ι) (c : Call) (p : Pc), s.1.2 t = .inside c p → (access p s.1.1).isSome = true) ∧
    ∀ (seen : List (Object.Event ι Call (Option Nat))) (hands : List Nat), (lts ι).Trace seen →
      handedOut seen = some hands → hands.Nodup := by
  have hatomic := object.sections_refines {} (Spinlock.refines ι)
  refine ⟨hatomic, ?_, ?_⟩
  · intro s hs t c p ht
    exact object.sections_defined defined (Spinlock.refines ι) hs ht
  · intro seen hands hseen hhands
    obtain ⟨p, p', hinit, hrun⟩ := hatomic.trace hseen
    exact (handed_run hrun hinit hhands).nodup

open Lts in
/-- Two threads allocate; the second waits for the lock while the first has it. -/
theorem two_allocate :
    (lts (Fin 2)).Trace [.call 0 .allocate, .call 1 .allocate, .returns 0 (some 0), .returns 1 (some 1)] := by
  have start : (lts (Fin 2)).Run (({}, fun _ => .idle), {}) [] (({}, fun _ => .idle), {}) := .refl
  have called := (start.tail (SyncStep.visible (.call 0 .allocate rfl))).tail (SyncStep.visible (.call 1 .allocate rfl))
  have waiting := ((called.tail (SyncStep.both (.lock 0 .allocate rfl) ⟨.lock 0, rfl, rfl⟩)).tail
    (SyncStep.both (.acquire 0 .allocate rfl) ⟨.step 0, rfl, rfl⟩)).tail
    (SyncStep.both (.lock 1 .allocate rfl) ⟨.lock 1, rfl, rfl⟩)
  have left := (((((waiting.tail (SyncStep.component ⟨.step 1, rfl, rfl⟩)).tail
    (SyncStep.client (.access 0 .allocate Pc.empty Pc.getNewStack rfl rfl))).tail
    (SyncStep.client (.finish 0 .allocate Pc.getNewStack (some 0) rfl rfl))).tail
    (SyncStep.both (.unlock 0 (some 0) rfl) ⟨.unlock 0, rfl, rfl⟩)).tail
    (SyncStep.component ⟨.step 0, rfl, rfl⟩)).tail (SyncStep.visible (.returns 0 (some 0) rfl))
  have entered := (left.tail (SyncStep.component ⟨.step 1, rfl, rfl⟩)).tail
    (SyncStep.both (.acquire 1 .allocate rfl) ⟨.step 1, rfl, rfl⟩)
  have returned := (((entered.tail (SyncStep.client (.access 1 .allocate Pc.empty Pc.getNewStack rfl rfl))).tail
    (SyncStep.client (.finish 1 .allocate Pc.getNewStack (some 1) rfl rfl))).tail
    (SyncStep.both (.unlock 1 (some 1) rfl) ⟨.unlock 1, rfl, rfl⟩)).tail
    (SyncStep.visible (.returns 1 (some 1) rfl))
  refine ⟨_, _, ?_, returned⟩
  exact ⟨rfl, rfl⟩

theorem allocate_release_atomic_two : ∃ seen, (lts (Fin 2)).Trace seen ∧ handedOut seen = some [0, 1] ∧ [0, 1].Nodup :=
  ⟨_, two_allocate, rfl, (allocate_release_atomic (Fin 2)).2.2 _ _ two_allocate rfl⟩

end StackAllocator
end Fibers
end Tpcc
