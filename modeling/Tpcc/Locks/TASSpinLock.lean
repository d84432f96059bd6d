import Tpcc.Machine.Tso
import Tpcc.Transition.Section

/-!
# `Locks.TASSpinLock` — the test-and-set spinlock, on memory with store buffers

`TASSpinLock::Lock`, `TryLock` and `Unlock` over the routines of `atomics.S`, one instruction at a time, for any
number of threads. `AtomicExchange` is an `xchg`, which goes to the memory; `AtomicStore` is a plain `movq`, so
`Unlock` leaves its 0 in the thread's store buffer, behind what the thread has stored before.

The code between the calls loads and stores words: those of the guarded region only while it holds the lock, and
others, apart from the lock and that region, at any moment. Threads see what they would see of one memory with a mutex
(`refines`): whoever finds the 0 in the memory finds there all that was stored in the section before it.

The return addresses are on the threads' own stacks; `ret` goes back to its call.

## Contents
- **The machine.** `Layout`, `exec`, `next`, `label`.
- **One memory with a mutex.** `guardedMemory`.
- **Who owns the lock.** `Owner`: from the `xchg` that takes it to the moment the 0 reaches the memory.
- **Results.** `refines`.
-/

namespace Tpcc
namespace Locks

open Machine Transition

/-- `AtomicExchange(location, value)`: `location` in `%rdi`, `value` in `%rsi`. -/
def AtomicExchange : List Instr := [.mov .rsi .rax, .xchg .rdi .rax, .ret]

/-- `AtomicStore(location, value)`. -/
def AtomicStore : List Instr := [.store .rsi 0 .rdi, .ret]

/-- The registers at a call with two arguments. -/
def arguments (r : Regs) (location value : Word) : Regs := Function.update (Function.update r .rdi location) .rsi value

namespace TASSpinLock

/-- Where the lock is in the memory, and the bytes it guards. -/
structure Layout where
  locked_ : Word
  guarded : Word → Bool
  apart : ∀ x, guarded x = true → ¬ Within locked_ x

/-- The word is one of guarded bytes. -/
def Layout.Inside (l : Layout) (a : Word) : Prop := ∀ k < 8, l.guarded (a + BitVec.ofNat 64 k) = true

/-- No byte of the word is guarded, or one of the lock. -/
def Layout.Outside (l : Layout) (a : Word) : Prop :=
  ∀ k < 8, l.guarded (a + BitVec.ofNat 64 k) = false ∧ ¬ Within l.locked_ (a + BitVec.ofNat 64 k)

instance (l : Layout) (a : Word) : Decidable (l.Inside a) := Nat.decidableBallLT ..

instance (l : Layout) (a : Word) : Decidable (l.Outside a) := Nat.decidableBallLT ..

/-- Where a thread is. -/
inductive Pc where
  /-- Outside all calls. -/
  | out
  /-- In `AtomicExchange(&locked_, 1)`, before its `k`-th instruction: called by `Lock`, which calls it again if it
      has not returned 0, or by `TryLock`. -/
  | exchange (again : Bool) (k : Nat) (r : Regs)
  /-- `Lock`: `wheels::SpinLockPause()`. -/
  | pause (r : Regs)
  /-- `Unlock`: in `AtomicStore(&locked_, 0)`, before its `k`-th instruction. -/
  | store (k : Nat) (r : Regs)

/-- A thread; `holds` from the return of `Lock`, or of a `TryLock` that succeeds, to the call of `Unlock`. -/
structure Thread where
  pc : Pc := .out
  holds : Bool := false

structure State (ι : Type) where
  tso : Tso ι
  threads : ι → Thread := fun _ => {}

/-- Who takes the next step: a thread with a call, whatever is in the other registers, or with the next instruction of
    the call it is in; the code of a thread, with a load or a store; or the oldest store of a thread, which reaches
    the memory. -/
inductive Action (ι : Type) where
  | lock (t : ι) (r : Regs)
  | tryLock (t : ι) (r : Regs)
  | unlock (t : ι) (r : Regs)
  | step (t : ι)
  | load (t : ι) (a : Word)
  | store (t : ι) (a v : Word)
  | flush (t : ι)

variable {ι : Type} [DecidableEq ι]

/-- Thread `t` goes on. -/
def State.set (s : State ι) (t : ι) (th : Thread) : State ι :=
  { s with threads := Function.update s.threads t th }

/-- The next instruction of the call that thread `t` is in. -/
def exec (l : Layout) (s : State ι) (t : ι) : Option (State ι) :=
  match (s.threads t).pc with
  | .out => none
  | .exchange again k r =>
      match AtomicExchange[k]? with
      | none => none
      | some .ret =>
          if r .rax ≠ 0 then some (s.set t { s.threads t with pc := if again then .pause r else .out })
          else some (s.set t ⟨.out, true⟩)
      | some i =>
          (s.tso.perform t (i.access r)).map fun p =>
            { s.set t { s.threads t with pc := .exchange again (k + 1) (i.retire r p.2) } with tso := p.1 }
  | .pause r => some (s.set t { s.threads t with pc := .exchange true 0 (arguments r l.locked_ 1) })
  | .store k r =>
      match AtomicStore[k]? with
      | none => none
      | some .ret => some (s.set t { s.threads t with pc := .out })
      | some i =>
          (s.tso.perform t (i.access r)).map fun p =>
            { s.set t { s.threads t with pc := .store (k + 1) (i.retire r p.2) } with tso := p.1 }

/-- The code of a thread loads and stores where it may. -/
def next (l : Layout) (s : State ι) : Action ι → Option (State ι)
  | .lock t r =>
      match (s.threads t).pc with
      | .out => some (s.set t { s.threads t with pc := .exchange true 0 (arguments r l.locked_ 1) })
      | _ => none
  | .tryLock t r =>
      match (s.threads t).pc with
      | .out => some (s.set t { s.threads t with pc := .exchange false 0 (arguments r l.locked_ 1) })
      | _ => none
  | .unlock t r =>
      match s.threads t with
      | ⟨.out, true⟩ => some (s.set t ⟨.store 0 (arguments r l.locked_ 0), false⟩)
      | _ => none
  | .step t => exec l s t
  | .load t a =>
      match s.threads t with
      | ⟨.out, true⟩ => if l.Inside a then some s else none
      | _ => none
  | .store t a v =>
      match s.threads t with
      | ⟨.out, true⟩ => if l.Inside a ∨ l.Outside a then some { s with tso := s.tso.store t a v } else none
      | ⟨.out, false⟩ => if l.Outside a then some { s with tso := s.tso.store t a v } else none
      | _ => none
  | .flush t => (s.tso.flush t).map fun tso => { s with tso }

/-- What a client sees: the events of the lock, and the words that its code loads and stores in the guarded region. -/
inductive Event (ι : Type) where
  | lock (e : MutexEvent ι)
  | load (t : ι) (a v : Word)
  | store (t : ι) (a v : Word)

def label (l : Layout) (s : State ι) : Action ι → Option (Event ι)
  | .lock t _ => some (.lock (.lock t))
  | .tryLock t _ => some (.lock (.tryLock t))
  | .unlock t _ => some (.lock (.unlock t))
  | .step t =>
      match (s.threads t).pc with
      | .exchange again 2 r =>
          if r .rax ≠ 0 then (if again then none else some (.lock (.tried t false)))
          else some (.lock (if again then .acquire t else .tried t true))
      | _ => none
  | .load t a => some (.load t a ((s.tso.view t).load a))
  | .store t a v => if l.Inside a then some (.store t a v) else none
  | .flush _ => none

/-- The threads on a machine whose memory is `m` at first. -/
def lts (ι : Type) [DecidableEq ι] (l : Layout) (m : Memory) : Lts (State ι) (Event ι) :=
  Lts.ofNext { tso := { memory := m } } (next l) (label l)

/-! ## One memory with a mutex -/

/-- A thread loads and stores only while it holds the mutex, and what is stored can be loaded at once. -/
inductive GuardedStep : Option ι × Memory → Option (Event ι) → Option ι × Memory → Prop where
  | lock {holder holder' : Option ι} {m : Memory} {e : MutexEvent ι} (step : MutexStep holder (some e) holder') :
      GuardedStep (holder, m) (some (.lock e)) (holder', m)
  | load {m : Memory} (t : ι) (a : Word) : GuardedStep (some t, m) (some (.load t a (m.load a))) (some t, m)
  | store {m : Memory} (t : ι) (a v : Word) : GuardedStep (some t, m) (some (.store t a v)) (some t, m.store a v)

def guardedMemory (ι : Type) (m : Memory) : Lts (Option ι × Memory) (Event ι) where
  init p := p = (none, m)
  step := GuardedStep

/-! ## The instructions -/

/-- Where a thread can be: the operands are those of the calls, and the lock is taken by a thread that finds 0. -/
inductive Pc.Good (l : Layout) : Pc → Bool → Prop where
  | out (holds : Bool) : Good l .out holds
  | mov (again : Bool) (r : Regs) (holds : Bool) (location : r .rdi = l.locked_) (value : r .rsi = 1) :
      Good l (.exchange again 0 r) holds
  | xchg (again : Bool) (r : Regs) (holds : Bool) (location : r .rdi = l.locked_) (value : r .rax = 1) :
      Good l (.exchange again 1 r) holds
  | failed (again : Bool) (r : Regs) (holds : Bool) (found : r .rax ≠ 0) : Good l (.exchange again 2 r) holds
  | taken (again : Bool) (r : Regs) (found : r .rax = 0) : Good l (.exchange again 2 r) false
  | pause (r : Regs) (holds : Bool) : Good l (.pause r) holds
  | store (r : Regs) (location : r .rdi = l.locked_) (value : r .rsi = 0) : Good l (.store 0 r) false
  | stored (r : Regs) : Good l (.store 1 r) false

theorem arguments_rdi (r : Regs) (location value : Word) : arguments r location value .rdi = location := by
  simp [arguments]

theorem arguments_rsi (r : Regs) (location value : Word) : arguments r location value .rsi = value := by
  simp [arguments]

theorem Pc.Good.call (l : Layout) (again : Bool) (r : Regs) (holds : Bool) :
    (Pc.exchange again 0 (arguments r l.locked_ 1)).Good l holds :=
  .mov again _ holds (arguments_rdi ..) (arguments_rsi ..)

/-- The kinds of step that the next instruction of a call is. -/
inductive Executed (l : Layout) (s : State ι) (t : ι) : Option (Event ι) → State ι → Prop where
  | mov (again : Bool) (r : Regs) (holds : Bool) (thread : s.threads t = ⟨.exchange again 0 r, holds⟩)
      (good : (Pc.exchange again 1 (Function.update r .rax (r .rsi))).Good l holds) :
      Executed l s t none (s.set t ⟨.exchange again 1 (Function.update r .rax (r .rsi)), holds⟩)
  | xchg (again : Bool) (r : Regs) (holds : Bool) (thread : s.threads t = ⟨.exchange again 1 r, holds⟩)
      (buffer : s.tso.buffer t = []) :
      Executed l s t none
        { s.set t ⟨.exchange again 2 (Function.update r .rax (s.tso.memory.load l.locked_)), holds⟩ with
          tso := { s.tso with memory := s.tso.memory.store l.locked_ 1 } }
  | retry (r : Regs) (holds : Bool) (thread : s.threads t = ⟨.exchange true 2 r, holds⟩) (found : r .rax ≠ 0) :
      Executed l s t none (s.set t ⟨.pause r, holds⟩)
  | failed (r : Regs) (holds : Bool) (thread : s.threads t = ⟨.exchange false 2 r, holds⟩) (found : r .rax ≠ 0) :
      Executed l s t (some (.lock (.tried t false))) (s.set t ⟨.out, holds⟩)
  | taken (again : Bool) (r : Regs) (thread : s.threads t = ⟨.exchange again 2 r, false⟩) (found : r .rax = 0) :
      Executed l s t (some (.lock (if again then .acquire t else .tried t true))) (s.set t ⟨.out, true⟩)
  | pause (r : Regs) (holds : Bool) (thread : s.threads t = ⟨.pause r, holds⟩) :
      Executed l s t none (s.set t ⟨.exchange true 0 (arguments r l.locked_ 1), holds⟩)
  | store (r : Regs) (thread : s.threads t = ⟨.store 0 r, false⟩) :
      Executed l s t none { s.set t ⟨.store 1 r, false⟩ with tso := s.tso.store t l.locked_ 0 }
  | stored (r : Regs) (thread : s.threads t = ⟨.store 1 r, false⟩) : Executed l s t none (s.set t ⟨.out, false⟩)

theorem executed {l : Layout} {s s' : State ι} {t : ι} (hgood : (s.threads t).pc.Good l (s.threads t).holds)
    (h : exec l s t = some s') : Executed l s t (label l s (.step t)) s' := by
  generalize hth : s.threads t = th at hgood
  obtain ⟨pc, holds⟩ := th
  cases hgood with
  | out => simp [exec, hth] at h
  | mov again r holds location value =>
      have hlabel : label l s (.step t) = none := by simp [label, hth]
      simp only [exec, hth, AtomicExchange, Instr.access, Tso.perform, List.getElem?_cons_zero, Option.map_some,
        Option.some.injEq] at h
      subst h
      rw [hlabel]
      exact .mov again r holds hth (.xchg again _ holds (by simp [location]) (by simp [value]))
  | xchg again r holds location value =>
      have hlabel : label l s (.step t) = none := by simp [label, hth]
      simp only [exec, hth, AtomicExchange, Instr.access, List.getElem?_cons_succ, List.getElem?_cons_zero,
        Option.map_eq_some_iff, location, value] at h
      obtain ⟨p, hxchg, rfl⟩ := h
      obtain ⟨hbuffer, rfl⟩ := Tso.xchg_spec hxchg
      rw [hlabel]
      exact .xchg again r holds hth hbuffer
  | failed again r holds found =>
      simp only [exec, hth, AtomicExchange, List.getElem?_cons_succ, List.getElem?_cons_zero, if_pos found,
        Option.some.injEq] at h
      subst h
      cases again with
      | true =>
          have hlabel : label l s (.step t) = none := by
            simp only [label, hth, if_pos found, if_true]
          rw [hlabel]
          exact .retry r holds hth found
      | false =>
          have hlabel : label l s (.step t) = some (.lock (.tried t false)) := by
            simp only [label, hth, if_pos found, Bool.false_eq_true, if_false]
          rw [hlabel]
          exact .failed r holds hth found
  | taken again r found =>
      have hlabel : label l s (.step t) = some (.lock (if again then .acquire t else .tried t true)) := by
        simp [label, hth, found]
      simp only [exec, hth, AtomicExchange, List.getElem?_cons_succ, List.getElem?_cons_zero, found, ne_eq,
        not_true_eq_false, if_false, Option.some.injEq] at h
      subst h
      rw [hlabel]
      exact .taken again r hth found
  | pause r holds =>
      have hlabel : label l s (.step t) = none := by simp [label, hth]
      simp only [exec, hth, Option.some.injEq] at h
      subst h
      rw [hlabel]
      exact .pause r holds hth
  | store r location value =>
      have hlabel : label l s (.step t) = none := by simp [label, hth]
      simp only [exec, hth, AtomicStore, Instr.access, Tso.perform, List.getElem?_cons_zero, Option.map_some,
        location, value, BitVec.ofNat_eq_ofNat, BitVec.add_zero, Option.some.injEq] at h
      subst h
      rw [hlabel]
      exact .store r hth
  | stored r =>
      have hlabel : label l s (.step t) = none := by simp [label, hth]
      simp only [exec, hth, AtomicStore, List.getElem?_cons_succ, List.getElem?_cons_zero, Option.some.injEq] at h
      subst h
      rw [hlabel]
      exact .stored r hth

/-! ## Who owns the lock -/

/-- The thread has set `locked_`, and has yet to store the 0. -/
def owns (th : Thread) : Bool :=
  match th.pc with
  | .exchange _ 2 r => th.holds || decide (r .rax = 0)
  | .store 0 _ => true
  | _ => th.holds

/-- The store leaves the lock alone. -/
def Layout.Off (l : Layout) (w : Word × Word) : Prop := ∀ x, Within w.1 x → ¬ Within l.locked_ x

/-- The store leaves the lock and the guarded bytes alone. -/
def Layout.Calm (l : Layout) (w : Word × Word) : Prop :=
  ∀ x, Within w.1 x → l.guarded x = false ∧ ¬ Within l.locked_ x

theorem Layout.Calm.off {l : Layout} {w : Word × Word} (h : l.Calm w) : l.Off w := fun x hx => (h x hx).2

theorem Layout.Calm.not_within {l : Layout} {w : Word × Word} (h : l.Calm w) {x : Word} (hx : l.guarded x = true) :
    ¬ Within w.1 x := by
  intro hin
  rw [(h x hin).1] at hx
  cases hx

theorem Layout.Inside.guarded {l : Layout} {a x : Word} (h : l.Inside a) (hx : Within a x) : l.guarded x = true := by
  obtain ⟨k, hk, rfl⟩ := hx.exists_byte
  exact h k hk

theorem Layout.Inside.off {l : Layout} {a v : Word} (h : l.Inside a) : l.Off (a, v) :=
  fun x hx => l.apart x (h.guarded hx)

theorem Layout.Outside.calm {l : Layout} {a v : Word} (h : l.Outside a) : l.Calm (a, v) := by
  intro x hx
  obtain ⟨k, hk, rfl⟩ := hx.exists_byte
  exact h k hk

/-- **Who owns the lock**, from its `xchg` to the moment its 0 reaches the memory: nobody, a thread that has not
    stored the 0 yet, or one that has, behind its other stores. Only the owner has stores to guarded bytes in its
    buffer, and `m` has these bytes as the owner sees them. -/
inductive Owner (l : Layout) (s : State ι) (m : Memory) : Prop where
  | free (unlocked : s.tso.memory.load l.locked_ = 0) (nobody : Nobody owns s.threads)
      (calm : ∀ u, ∀ w ∈ s.tso.buffer u, l.Calm w) (latest : ∀ x, l.guarded x = true → s.tso.memory x = m x)
  | owned (t : ι) (locked : s.tso.memory.load l.locked_ = 1) (only : Only owns s.threads t)
      (calm : ∀ u, u ≠ t → ∀ w ∈ s.tso.buffer u, l.Calm w) (off : ∀ w ∈ s.tso.buffer t, l.Off w)
      (latest : ∀ x, l.guarded x = true → s.tso.view t x = m x)
  | pending (t : ι) (before after : List (Word × Word)) (locked : s.tso.memory.load l.locked_ = 1)
      (nobody : Nobody owns s.threads) (calm : ∀ u, u ≠ t → ∀ w ∈ s.tso.buffer u, l.Calm w)
      (buffer : s.tso.buffer t = before ++ (l.locked_, 0) :: after) (off : ∀ w ∈ before, l.Off w)
      (later : ∀ w ∈ after, l.Calm w) (latest : ∀ x, l.guarded x = true → s.tso.view t x = m x)

section

variable {l : Layout} {s : State ι} {m : Memory} {t : ι}

omit [DecidableEq ι] in
/-- A store elsewhere does not change the lock. -/
theorem Layout.Off.load {w : Word × Word} (h : l.Off w) : (m.store w.1 w.2).load l.locked_ = m.load l.locked_ :=
  Memory.load_store_of_apart m w.2 h

/-- A step of thread `t` that leaves the memory, and who owns the lock. -/
theorem Owner.set (h : Owner l s m) {th : Thread} (howns : owns th = owns (s.threads t)) : Owner l (s.set t th) m := by
  have hsame : ∀ i, owns ((s.set t th).threads i) = owns (s.threads i) := update_same howns
  cases h with
  | free unlocked nobody calm latest => exact .free unlocked (nobody.congr hsame) calm latest
  | owned u locked only calm off latest => exact .owned u locked (only.congr hsame) calm off latest
  | pending u before after locked nobody calm buffer off later latest =>
      exact .pending u before after locked (nobody.congr hsame) calm buffer off later latest

/-- **The `xchg` on a lock that is free** finds 0, and the thread owns the lock. -/
theorem Owner.take (h : Owner l s m) (hfree : s.tso.memory.load l.locked_ = 0) (hbuffer : s.tso.buffer t = [])
    {th : Thread} (howns : owns th = true) :
    Owner l { s.set t th with tso := { s.tso with memory := s.tso.memory.store l.locked_ 1 } } m := by
  cases h with
  | owned u locked only calm off latest =>
      rw [hfree] at locked
      cases locked
  | pending u before after locked nobody calm buffer off later latest =>
      rw [hfree] at locked
      cases locked
  | free unlocked nobody calm latest =>
      refine .owned t (Memory.load_store_self ..) (nobody.take howns) (fun u _ => calm u) ?_ ?_
      · intro w hw
        exact (calm t w hw).off
      · intro x hx
        have hview : (s.tso.memory.store l.locked_ 1) x = m x := by
          rw [Memory.store_of_not_within (l.apart x hx), latest x hx]
        show writes _ (s.tso.buffer t) x = m x
        rw [hbuffer]
        exact hview

omit [DecidableEq ι] in
/-- **The `xchg` on a lock that is not free** finds 1, and changes nothing. -/
theorem Owner.fail (h : Owner l s m) (hlocked : s.tso.memory.load l.locked_ ≠ 0) :
    s.tso.memory.load l.locked_ = 1 ∧ s.tso.memory.store l.locked_ 1 = s.tso.memory := by
  have hone : s.tso.memory.load l.locked_ = 1 := by
    cases h with
    | free unlocked nobody calm latest => exact absurd unlocked hlocked
    | owned u locked only calm off latest => exact locked
    | pending u before after locked nobody calm buffer off later latest => exact locked
  refine ⟨hone, ?_⟩
  calc s.tso.memory.store l.locked_ 1 = s.tso.memory.store l.locked_ (s.tso.memory.load l.locked_) := by rw [hone]
    _ = s.tso.memory := Memory.store_load_self ..

omit [DecidableEq ι] in
theorem Owner.nobody (h : Owner l s m) (hfree : s.tso.memory.load l.locked_ = 0) : Nobody owns s.threads := by
  cases h with
  | free unlocked nobody calm latest => exact nobody
  | owned u locked only calm off latest =>
      rw [hfree] at locked
      cases locked
  | pending u before after locked nobody calm buffer off later latest => exact nobody

omit [DecidableEq ι] in
/-- The owner is the only one. -/
theorem Owner.only (h : Owner l s m) (ht : owns (s.threads t) = true) : Only owns s.threads t := by
  cases h with
  | free unlocked nobody calm latest => exact (nobody.not ht).elim
  | owned u locked only calm off latest => exact only.eq ht ▸ only
  | pending u before after locked nobody calm buffer off later latest => exact (nobody.not ht).elim

omit [DecidableEq ι] in
/-- What a thread that owns the lock sees. -/
theorem Owner.view (h : Owner l s m) (ht : owns (s.threads t) = true) {x : Word} (hx : l.guarded x = true) :
    s.tso.view t x = m x := by
  cases h with
  | free unlocked nobody calm latest => exact (nobody.not ht).elim
  | owned u locked only calm off latest =>
      obtain rfl := only.eq ht
      exact latest x hx
  | pending u before after locked nobody calm buffer off later latest => exact (nobody.not ht).elim

/-- What is in the buffers after a store of thread `t`. -/
theorem mem_buffer_store {s : Tso ι} {a v : Word} {u : ι} {w : Word × Word} (h : w ∈ (s.store t a v).buffer u) :
    w ∈ s.buffer u ∨ u = t ∧ w = (a, v) := by
  change w ∈ Function.update s.buffer t (s.buffer t ++ [(a, v)]) u at h
  by_cases hu : u = t
  · subst hu
    rw [Function.update_self] at h
    rcases List.mem_append.mp h with h | h
    · exact .inl h
    · exact .inr ⟨rfl, List.mem_singleton.mp h⟩
  · rw [Function.update_of_ne hu] at h
    exact .inl h

/-- What is in the buffers after a store of thread `t` has reached the memory. -/
theorem mem_buffer_flushed {s : Tso ι} {w w' : Word × Word} {stores : List (Word × Word)} {u : ι}
    (hbuffer : s.buffer t = w :: stores) (h : w' ∈ (s.flushed t w stores).buffer u) : w' ∈ s.buffer u := by
  change w' ∈ Function.update s.buffer t stores u at h
  by_cases hu : u = t
  · subst hu
    rw [Function.update_self] at h
    rw [hbuffer]
    exact List.mem_cons_of_mem w h
  · rwa [Function.update_of_ne hu] at h

/-- **`Unlock` stores the 0**, behind the other stores of the thread. -/
theorem Owner.release (h : Owner l s m) (ht : owns (s.threads t) = true) {th : Thread} (howns : owns th = false) :
    Owner l { s.set t th with tso := s.tso.store t l.locked_ 0 } m := by
  have honly := h.only ht
  cases h with
  | free unlocked nobody calm latest => exact (nobody.not ht).elim
  | pending u before after locked nobody calm buffer off later latest => exact (nobody.not ht).elim
  | owned u locked only calm off latest =>
      obtain rfl := only.eq ht
      refine .pending t (s.tso.buffer t) [] locked (honly.drop howns) ?_ (Function.update_self ..) off nofun ?_
      · intro v hv w hw
        rcases mem_buffer_store hw with hw | ⟨hvt, -⟩
        · exact calm v hv w hw
        · exact absurd hvt hv
      · intro x hx
        show (s.tso.store t l.locked_ 0).view t x = m x
        rw [Tso.view_store_self, Memory.store_of_not_within (l.apart x hx), latest x hx]

/-- **The owner stores a word of the guarded region.** -/
theorem Owner.store (h : Owner l s m) (ht : owns (s.threads t) = true) {a v : Word} (ha : l.Inside a) :
    Owner l { s with tso := s.tso.store t a v } (m.store a v) := by
  cases h with
  | free unlocked nobody calm latest => exact (nobody.not ht).elim
  | pending u before after locked nobody calm buffer off later latest => exact (nobody.not ht).elim
  | owned u locked only calm off latest =>
      obtain rfl := only.eq ht
      refine .owned t locked only ?_ ?_ ?_
      · intro u hu w hw
        rcases mem_buffer_store hw with hw | ⟨hut, -⟩
        · exact calm u hu w hw
        · exact absurd hut hu
      · intro w hw
        rcases mem_buffer_store hw with hw | ⟨-, rfl⟩
        · exact off w hw
        · exact ha.off
      · intro x hx
        show (s.tso.store t a v).view t x = m.store a v x
        rw [Tso.view_store_self]
        exact Memory.store_congr (latest x hx)

/-- A thread stores a word elsewhere. -/
theorem Owner.storeOutside (h : Owner l s m) {a v : Word} (ha : l.Outside a) :
    Owner l { s with tso := s.tso.store t a v } m := by
  have hcalm : ∀ {u}, (∀ w ∈ s.tso.buffer u, l.Calm w) → ∀ w ∈ (s.tso.store t a v).buffer u, l.Calm w := by
    intro u hu w hw
    rcases mem_buffer_store hw with hw | ⟨-, rfl⟩
    · exact hu w hw
    · exact ha.calm
  have hview : ∀ u x, l.guarded x = true → (s.tso.store t a v).view u x = s.tso.view u x := by
    intro u x hx
    by_cases hu : u = t
    · subst hu
      rw [Tso.view_store_self, Memory.store_of_not_within (ha.calm.not_within (w := (a, v)) hx)]
    · rw [Tso.view_store_of_ne hu]
  cases h with
  | free unlocked nobody calm latest => exact .free unlocked nobody (fun u => hcalm (calm u)) latest
  | owned u locked only calm off latest =>
      refine .owned u locked only (fun u' hu' => hcalm (calm u' hu')) ?_ fun x hx => (hview u x hx).trans (latest x hx)
      intro w hw
      rcases mem_buffer_store hw with hw | ⟨-, rfl⟩
      · exact off w hw
      · exact ha.calm.off
  | pending u before after locked nobody calm buffer off later latest =>
      have hlatest := fun x hx => (hview u x hx).trans (latest x hx)
      by_cases hu : u = t
      · subst hu
        refine .pending u before (after ++ [(a, v)]) locked nobody (fun u' hu' => hcalm (calm u' hu')) ?_ off ?_ hlatest
        · show Function.update s.tso.buffer u (s.tso.buffer u ++ [(a, v)]) u = _
          rw [Function.update_self, buffer, List.append_assoc, List.cons_append]
        · intro w hw
          rcases List.mem_append.mp hw with hw | hw
          · exact later w hw
          · exact List.mem_singleton.mp hw ▸ ha.calm
      · refine .pending u before after locked nobody (fun u' hu' => hcalm (calm u' hu')) ?_ off later hlatest
        show Function.update s.tso.buffer t (s.tso.buffer t ++ [(a, v)]) u = _
        rw [Function.update_of_ne hu, buffer]

/-- **A store reaches the memory.** The 0 comes after the other stores of its thread, and with it the lock is free. -/
theorem Owner.flush (h : Owner l s m) {tso : Tso ι} (hflush : s.tso.flush t = some tso) :
    Owner l { s with tso := tso } m := by
  obtain ⟨w, stores, hbuffer, rfl⟩ := Tso.flush_cons hflush
  have hhead : w ∈ s.tso.buffer t := by
    rw [hbuffer]
    exact List.mem_cons_self
  have hcalm : ∀ {u}, (∀ w ∈ s.tso.buffer u, l.Calm w) → ∀ w' ∈ (s.tso.flushed t w stores).buffer u, l.Calm w' :=
    fun hu w' hw' => hu w' (mem_buffer_flushed hbuffer hw')
  cases h with
  | free unlocked nobody calm latest =>
      have hw := calm t w hhead
      refine .free ?_ nobody (fun u => hcalm (calm u)) ?_
      · rw [← unlocked]
        exact hw.off.load
      · intro x hx
        rw [← latest x hx]
        exact Memory.store_of_not_within (hw.not_within hx)
  | owned u locked only calm off latest =>
      by_cases hu : u = t
      · subst hu
        refine .owned u ?_ only (fun u' hu' => hcalm (calm u' hu')) ?_ ?_
        · rw [← locked]
          exact (off w hhead).load
        · exact fun w' hw' => off w' (mem_buffer_flushed hbuffer hw')
        · intro x hx
          rw [← latest x hx]
          exact congrFun (Tso.view_flush_self hbuffer) x
      · have hw := calm t (Ne.symm hu) w hhead
        refine .owned u ?_ only (fun u' hu' => hcalm (calm u' hu')) ?_ ?_
        · rw [← locked]
          exact hw.off.load
        · exact fun w' hw' => off w' (mem_buffer_flushed hbuffer hw')
        · intro x hx
          rw [← latest x hx]
          exact Tso.view_flush_of_ne hu (hw.not_within hx)
  | pending u before after locked nobody calm buffer off later latest =>
      by_cases hu : u = t
      · subst hu
        cases before with
        | nil =>
            -- the 0 itself
            obtain ⟨rfl, rfl⟩ := List.cons.inj (hbuffer.symm.trans buffer)
            refine .free (Memory.load_store_self ..) nobody ?_ ?_
            · intro v w' hw'
              by_cases hv : v = u
              · subst hv
                change w' ∈ Function.update s.tso.buffer v stores v at hw'
                rw [Function.update_self] at hw'
                exact later w' hw'
              · exact calm v hv w' (mem_buffer_flushed hbuffer hw')
            · intro x hx
              rw [← latest x hx, Tso.view, hbuffer]
              exact (writes_of_forall_not_within fun w' hw' => (later w' hw').not_within hx).symm
        | cons w' before =>
            obtain ⟨rfl, rfl⟩ := List.cons.inj (hbuffer.symm.trans buffer)
            refine .pending u before after ?_ nobody (fun u' hu' => hcalm (calm u' hu')) (Function.update_self ..)
              (fun w' hw' => off w' (List.mem_cons_of_mem w hw')) later ?_
            · rw [← locked]
              exact (off w List.mem_cons_self).load
            · intro x hx
              rw [← latest x hx]
              exact congrFun (Tso.view_flush_self hbuffer) x
      · have hw := calm t (Ne.symm hu) w hhead
        refine .pending u before after ?_ nobody (fun u' hu' => hcalm (calm u' hu')) ?_ off later ?_
        · rw [← locked]
          exact hw.off.load
        · show Function.update s.tso.buffer t stores u = _
          rw [Function.update_of_ne hu, buffer]
        · intro x hx
          rw [← latest x hx]
          exact Tso.view_flush_of_ne hu (hw.not_within hx)

end

/-! ## All runs -/

structure Inv (l : Layout) (s : State ι) (m : Memory) : Prop where
  owner : Owner l s m
  good : ∀ t, (s.threads t).pc.Good l (s.threads t).holds

section

variable {l : Layout} {s s' : State ι} {m : Memory} {t : ι}

/-- Thread `t` goes on. -/
theorem good_update (h : ∀ u, (s.threads u).pc.Good l (s.threads u).holds) {th : Thread} (hth : th.pc.Good l th.holds) :
    ∀ u, (Function.update s.threads t th u).pc.Good l (Function.update s.threads t th u).holds :=
  (Function.forall_update_iff s.threads fun _ th => th.pc.Good l th.holds).mpr ⟨hth, fun u _ => h u⟩

theorem owns_of_holds {th : Thread} (h : th.holds = true) : owns th = true := by
  unfold owns
  split
  · rw [h, Bool.true_or]
  · rfl
  · exact h

/-- A thread that has found the lock taken. -/
theorem owns_failed {again : Bool} {r : Regs} {holds : Bool} (h : r .rax ≠ 0) :
    owns ⟨.exchange again 2 r, holds⟩ = holds := by
  show (holds || decide (r .rax = 0)) = holds
  rw [decide_eq_false h, Bool.or_false]

omit [DecidableEq ι] in
/-- Whoever holds the lock owns it. -/
theorem others_not_hold {f : ι → Thread} (h : Only owns f t) {u : ι} (hu : u ≠ t) : (f u).holds = false := by
  rw [Bool.eq_false_iff]
  exact fun hu' => hu (h.eq (owns_of_holds hu'))

omit [DecidableEq ι] in
theorem only_holds {f : ι → Thread} (h : Only owns f t) (ht : (f t).holds = true) : Only Thread.holds f t :=
  ⟨ht, fun _ hu => others_not_hold h hu⟩

omit [DecidableEq ι] in
/-- A thread that owns the lock and does not hold it. -/
theorem nobody_holds {f : ι → Thread} (h : Only owns f t) (ht : (f t).holds = false) : Nobody Thread.holds f := by
  intro u
  by_cases hu : u = t
  · subst hu
    exact ht
  · exact others_not_hold h hu

/-- What a step is to one memory with a mutex, where `m` is the memory and then `m'`. -/
inductive Shows (s s' : State ι) (m : Memory) : Option (Event ι) → Memory → Prop where
  | silent (step : LockStep Thread.holds s.threads s'.threads none) : Shows s s' m none m
  | lock (e : MutexEvent ι) (step : LockStep Thread.holds s.threads s'.threads (some e)) :
      Shows s s' m (some (.lock e)) m
  | load (t : ι) (a : Word) (held : Only Thread.holds s.threads t) (same : s'.threads = s.threads) :
      Shows s s' m (some (.load t a (m.load a))) m
  | store (t : ι) (a v : Word) (held : Only Thread.holds s.threads t) (same : s'.threads = s.threads) :
      Shows s s' m (some (.store t a v)) (m.store a v)

/-- Thread `t` goes on in its call; neither the memory changes nor who owns or holds the lock. -/
theorem Inv.set (h : Inv l s m) {th : Thread} (howns : owns th = owns (s.threads t)) (hgood : th.pc.Good l th.holds) :
    Inv l (s.set t th) m :=
  ⟨h.owner.set howns, good_update h.good hgood⟩

theorem shows_silent {th : Thread} {tso : Tso ι} (hholds : th.holds = (s.threads t).holds) :
    Shows s { s.set t th with tso := tso } m none m := .silent (.silent (update_same hholds))

/-- **One instruction of a call.** -/
theorem Inv.executed (h : Inv l s m) {e : Option (Event ι)} (hexec : Executed l s t e s') :
    Inv l s' m ∧ Shows s s' m e m := by
  cases hexec with
  | mov again r holds thread good =>
      exact ⟨h.set (by rw [thread]; rfl) good, shows_silent (by rw [thread])⟩
  | retry r holds thread found =>
      exact ⟨h.set (by rw [thread, owns_failed found]; rfl) (.pause r holds), shows_silent (by rw [thread])⟩
  | failed r holds thread found =>
      exact ⟨h.set (by rw [thread, owns_failed found]; rfl) (.out holds),
        .lock _ (.failed t (update_same (by rw [thread])))⟩
  | pause r holds thread =>
      exact ⟨h.set (by rw [thread]; rfl) (.call l true r holds), shows_silent (by rw [thread])⟩
  | stored r thread =>
      exact ⟨h.set (by rw [thread]; rfl) (.out false), shows_silent (by rw [thread])⟩
  | store r thread =>
      exact ⟨⟨h.owner.release (by rw [thread]; rfl) rfl, good_update h.good (.stored r)⟩,
        shows_silent (by rw [thread])⟩
  | taken again r thread found =>
      have howns : owns (s.threads t) = true := by rw [thread]; simp [owns, found]
      have hnobody := nobody_holds (h.owner.only howns) (by rw [thread])
      refine ⟨h.set (by rw [howns]; rfl) (.out true), ?_⟩
      cases again with
      | true => exact .lock _ (.acquire t hnobody (hnobody.take rfl))
      | false => exact .lock _ (.taken t hnobody (hnobody.take rfl))
  | xchg again r holds thread buffer =>
      refine ⟨?_, shows_silent (by rw [thread])⟩
      by_cases hfree : s.tso.memory.load l.locked_ = 0
      · have hholds : holds = false := by
          have hnot := h.owner.nobody hfree t
          rwa [thread] at hnot
        subst hholds
        refine ⟨h.owner.take hfree buffer ?_, good_update h.good (.taken again _ ?_)⟩
        · simp [owns, hfree]
        · rw [Function.update_self, hfree]
      · obtain ⟨hone, hsame⟩ := h.owner.fail hfree
        rw [hsame]
        refine h.set ?_ (.failed again _ holds ?_)
        · rw [thread, hone]
          simp [owns]
        · rw [Function.update_self, hone]
          decide

/-- **One step.** -/
theorem Inv.stepped (h : Inv l s m) {a : Action ι} (hnext : next l s a = some s') :
    ∃ m', Inv l s' m' ∧ Shows s s' m (label l s a) m' := by
  cases a with
  | lock t r =>
      simp only [next] at hnext
      split at hnext
      · next hpc =>
          cases hnext
          exact ⟨m, h.set (by simp [owns, hpc]) (.call l true r _), .lock _ (.lock t (update_same rfl))⟩
      · cases hnext
  | tryLock t r =>
      simp only [next] at hnext
      split at hnext
      · next hpc =>
          cases hnext
          exact ⟨m, h.set (by simp [owns, hpc]) (.call l false r _), .lock _ (.tryLock t (update_same rfl))⟩
      · cases hnext
  | unlock t r =>
      simp only [next] at hnext
      split at hnext
      · next hth =>
          cases hnext
          have honly := only_holds (h.owner.only (t := t) (by rw [hth]; rfl)) (by rw [hth])
          exact ⟨m, h.set (by rw [hth]; rfl) (.store _ (arguments_rdi ..) (arguments_rsi ..)),
            .lock _ (.unlock t honly (honly.drop rfl))⟩
      · cases hnext
  | step t => exact ⟨m, h.executed (Locks.TASSpinLock.executed (h.good t) hnext)⟩
  | flush t =>
      obtain ⟨tso, hflush, rfl⟩ := Option.map_eq_some_iff.mp hnext
      exact ⟨m, ⟨h.owner.flush hflush, h.good⟩, .silent (.silent fun _ => rfl)⟩
  | load t a =>
      simp only [next] at hnext
      split at hnext
      · next hth =>
          simp only [Option.ite_none_right_eq_some, Option.some.injEq] at hnext
          obtain ⟨ha, rfl⟩ := hnext
          have howns : owns (s.threads t) = true := by rw [hth]; rfl
          have hvalue : (s.tso.view t).load a = m.load a :=
            Memory.load_congr fun x hx => h.owner.view howns (ha.guarded hx)
          have hlabel : label l s (.load t a) = some (.load t a (m.load a)) := by rw [← hvalue]; rfl
          rw [hlabel]
          exact ⟨m, h, .load t a (only_holds (h.owner.only howns) (by rw [hth])) rfl⟩
      · cases hnext
  | store t a v =>
      simp only [next] at hnext
      split at hnext
      · next hth =>
          simp only [Option.ite_none_right_eq_some, Option.some.injEq] at hnext
          obtain ⟨ha, rfl⟩ := hnext
          have howns : owns (s.threads t) = true := by rw [hth]; rfl
          by_cases hin : l.Inside a
          · have hlabel : label l s (.store t a v) = some (.store t a v) := if_pos hin
            rw [hlabel]
            exact ⟨_, ⟨h.owner.store howns hin, h.good⟩,
              .store t a v (only_holds (h.owner.only howns) (by rw [hth])) rfl⟩
          · have hlabel : label l s (.store t a v) = none := if_neg hin
            rw [hlabel]
            exact ⟨m, ⟨h.owner.storeOutside (ha.resolve_left hin), h.good⟩, .silent (.silent fun _ => rfl)⟩
      · next hth =>
          simp only [Option.ite_none_right_eq_some, Option.some.injEq] at hnext
          obtain ⟨ha, rfl⟩ := hnext
          have hlabel : label l s (.store t a v) = none := by
            refine if_neg fun hin => ?_
            have hboth := (hin 0 (by decide)).symm.trans (ha 0 (by decide)).1
            cases hboth
          rw [hlabel]
          exact ⟨m, ⟨h.owner.storeOutside ha, h.good⟩, .silent (.silent fun _ => rfl)⟩
      · cases hnext

end

/-- **On memory with store buffers, the lock and what it guards are one memory with a mutex.** -/
theorem refines (ι : Type) [DecidableEq ι] (l : Layout) (m : Memory) (hm : m.load l.locked_ = 0) :
    (lts ι l m).Refines (guardedMemory ι m) := by
  refine ⟨fun s p => Inv l s p.2 ∧ Holder Thread.holds s.threads p.1, ?_, ?_⟩
  · rintro s rfl
    refine ⟨(none, m), rfl, ⟨.free hm (fun _ => rfl) (fun _ => nofun) (fun _ _ => rfl), fun _ => .out _⟩, fun _ => rfl⟩
  · rintro s ⟨holder, m⟩ e s' ⟨h, hholder⟩ ⟨a, hnext, rfl⟩
    obtain ⟨m', h', hshows⟩ := h.stepped hnext
    generalize label l s a = e at hshows
    cases hshows with
    | silent step =>
        rcases hholder.step step with ⟨-, hholder'⟩ | ⟨holder', hmutex, -⟩
        · exact .inl ⟨rfl, h', hholder'⟩
        · cases hmutex
    | lock e step =>
        rcases hholder.step step with ⟨hnone, -⟩ | ⟨holder', hmutex, hholder'⟩
        · cases hnone
        · exact .inr ⟨(holder', m), .lock hmutex, h', hholder'⟩
    | load t a held same =>
        obtain rfl := hholder.held held
        exact .inr ⟨(some t, m), .load t a, h', by rw [same]; exact hholder⟩
    | store t a v held same =>
        obtain rfl := hholder.held held
        exact .inr ⟨(some t, m.store a v), .store t a v, h', by rw [same]; exact hholder⟩

/-! ## Sections -/

/-- What code does next in a section. -/
inductive Does (P ρ : Type) where
  | load (a : Word) (k : Word → P)
  | store (a v : Word) (p : P)
  | finish (r : ρ)

/-- The code of the operations of an object that is in the guarded region. -/
structure Code (α ρ : Type) where
  Pc : Type
  start : α → Pc
  does : Pc → Does Pc ρ

variable {α ρ : Type}

/-- The code, in a memory it has for itself. -/
def Code.object (c : Code α ρ) : Object Memory α ρ where
  Pc := c.Pc
  start := c.start
  access p m :=
    match c.does p with
    | .load a k => some (m, .inl (k (m.load a)))
    | .store a v p' => some (m.store a v, .inl p')
    | .finish r => some (m, .inr r)

/-- Threads that call `Lock`, run the code of an operation, and call `Unlock`. -/
inductive Code.Step (c : Code α ρ) :
    (ι → c.object.Place) → Option (Event ι ⊕ Object.Event ι α ρ) → (ι → c.object.Place) → Prop where
  | call {f : ι → c.object.Place} (t : ι) (x : α) (idle : f t = .idle) :
      Step c f (some (.inr (.call t x))) (Function.update f t (.lock x))
  | lock {f : ι → c.object.Place} (t : ι) (x : α) (lock : f t = .lock x) :
      Step c f (some (.inl (.lock (.lock t)))) (Function.update f t (.locking x))
  | acquire {f : ι → c.object.Place} (t : ι) (x : α) (locking : f t = .locking x) :
      Step c f (some (.inl (.lock (.acquire t)))) (Function.update f t (.inside x (c.start x)))
  | load {f : ι → c.object.Place} (t : ι) (x : α) (p : c.Pc) (a v : Word) (k : Word → c.Pc) (inside : f t = .inside x p)
      (does : c.does p = .load a k) : Step c f (some (.inl (.load t a v))) (Function.update f t (.inside x (k v)))
  | store {f : ι → c.object.Place} (t : ι) (x : α) (p p' : c.Pc) (a v : Word) (inside : f t = .inside x p)
      (does : c.does p = .store a v p') : Step c f (some (.inl (.store t a v))) (Function.update f t (.inside x p'))
  | finish {f : ι → c.object.Place} (t : ι) (x : α) (p : c.Pc) (r : ρ) (inside : f t = .inside x p)
      (does : c.does p = .finish r) : Step c f none (Function.update f t (.unlock r))
  | unlock {f : ι → c.object.Place} (t : ι) (r : ρ) (unlock : f t = .unlock r) :
      Step c f (some (.inl (.lock (.unlock t)))) (Function.update f t (.done r))
  | returns {f : ι → c.object.Place} (t : ι) (r : ρ) (done : f t = .done r) :
      Step c f (some (.inr (.returns t r))) (Function.update f t .idle)

def Code.sections (ι : Type) [DecidableEq ι] (c : Code α ρ) :
    Lts (ι → c.object.Place) (Event ι ⊕ Object.Event ι α ρ) where
  init f := f = fun _ => .idle
  step := c.Step

/-- Over one memory with a mutex, the code runs in sections. -/
theorem Code.sections_refines (c : Code α ρ) (m : Memory) :
    ((c.sections ι).sync (guardedMemory ι m)).Refines ((c.object.sections ι m).sync (mutex ι)) := by
  refine ⟨fun p q => q.1 = (p.2.2, p.1) ∧ q.2 = p.2.1, ?_, ?_⟩
  · rintro ⟨f, g⟩ ⟨hf, hg⟩
    cases hf
    cases hg
    exact ⟨((m, fun _ => .idle), none), ⟨rfl, rfl⟩, rfl, rfl⟩
  · rintro ⟨f, holder, m⟩ ⟨⟨_, _⟩, _⟩ e ⟨f', holder', m'⟩ ⟨hclient, hholder⟩ hstep
    cases hclient
    cases hholder
    cases hstep with
    | component step => cases step
    | visible step =>
        cases step with
        | call t x idle => exact .inr ⟨((m, _), holder), .visible (.call t x idle), rfl, rfl⟩
        | returns t r done => exact .inr ⟨((m, _), holder), .visible (.returns t r done), rfl, rfl⟩
    | client step =>
        cases step with
        | finish t x p r inside does =>
            have haccess : c.object.access p m = some (m, .inr r) := by simp [Code.object, does]
            exact .inr ⟨((m, _), holder), .client (.finish t x p r inside haccess), rfl, rfl⟩
    | both client component =>
        cases component with
        | lock step =>
            cases client with
            | lock t x lock => exact .inr ⟨((m, _), holder'), .both (.lock t x lock) step, rfl, rfl⟩
            | acquire t x locking => exact .inr ⟨((m, _), holder'), .both (.acquire t x locking) step, rfl, rfl⟩
            | unlock t r unlock => exact .inr ⟨((m, _), holder'), .both (.unlock t r unlock) step, rfl, rfl⟩
        | load t a =>
            cases client with
            | load t x p a v k inside does =>
                have haccess : c.object.access p m = some (m, .inl (k (m.load a))) := by simp [Code.object, does]
                exact .inr ⟨((m, _), some t), .client (.access t x p _ inside haccess), rfl, rfl⟩
        | store t a v =>
            cases client with
            | store t x p p' a v inside does =>
                have haccess : c.object.access p m = some (m.store a v, .inl p') := by simp [Code.object, does]
                exact .inr ⟨((m.store a v, _), some t), .client (.access t x p p' inside haccess), rfl, rfl⟩

/-- **The spinlock guards what it should, on memory with store buffers.** The lock and the guarded words are one memory
    with a mutex, for any client; so the code of an operation between `Lock` and `Unlock` takes effect in one step. -/
theorem tasSpinLock_guards (ι : Type) [DecidableEq ι] (l : Layout) (m : Memory) (hm : m.load l.locked_ = 0) :
    (lts ι l m).Refines (guardedMemory ι m) ∧
    ∀ {α ρ : Type} (c : Code α ρ), ((c.sections ι).sync (lts ι l m)).Refines (c.object.atomic ι m) := by
  have hlock := refines ι l m hm
  refine ⟨hlock, fun c => ?_⟩
  have hmemory := (hlock.sync (c.sections ι)).trans (c.sections_refines m)
  exact hmemory.trans (c.object.sections_refines m .refl)

/-- The lock is the first word of the memory, and guards the rest. -/
def atZero : Layout where
  locked_ := 0
  guarded x := decide (8 ≤ x.toNat)
  apart x hx hin := by
    rw [Within, BitVec.ofNat_eq_ofNat, BitVec.sub_zero] at hin
    exact Nat.not_lt.mpr (of_decide_eq_true hx) hin

inductive Adding where
  | load (x : Word)
  | store (sum : Word)
  | finish (sum : Word)

/-- The code that adds to the word at 8. -/
def add : Code Word Word where
  Pc := Adding
  start := .load
  does
    | .load x => .load 8 fun v => .store (v + x)
    | .store sum => .store 8 sum (.finish sum)
    | .finish sum => .finish sum

theorem tasSpinLock_guards_add : ((add.sections (Fin 2)).sync (lts (Fin 2) atZero fun _ => 0)).Refines
    (add.object.atomic (Fin 2) fun _ => 0) :=
  (tasSpinLock_guards (Fin 2) atZero (fun _ => 0) (by decide)).2 add

end TASSpinLock
end Locks
end Tpcc
