import Tpcc.Condvar.Semaphore
import Tpcc.Transition.Exclusive
import Tpcc.Transition.Total

/-!
# `Condvar.BlockingQueue` — a bounded queue over three semaphores

`BlockingQueue::Put` and `Take` for any number of threads. Each call of `Acquire` or `Release`, each access to
`buffer_`, is a step of its own; the semaphores are those of `Condvar.Semaphore`, with their sleepers.

## Contents
- **The calls.** `Pc`: the operation a thread does next. `next`: it does it, or sleeps in a semaphore.
- **Conservation.** `Inv`: a token of `bound_top_tokens_` is taken by a `Put` and given to
  `bound_bottom_tokens_` at its end, and back by a `Take`; between the two it is with the thread.
- **Results.** `bounded_fifo`, and `exists_step`: the queue does not block itself.
-/

namespace Tpcc
namespace Condvar
namespace BlockingQueue

open Transition

/-- The three semaphores of a queue. -/
inductive Tokens where
  | bound_top_tokens_
  | bound_bottom_tokens_
  | queue_protector_
  deriving DecidableEq

/-- The operation a thread does next. -/
inductive Pc (T : Type) where
  /-- Outside the queue. -/
  | out
  /-- `Put`: `bound_top_tokens_.Acquire()`. -/
  | acquireTop (value : T)
  /-- `Put`: `queue_protector_.Acquire()`. -/
  | protectPut (value : T)
  /-- `Put`: `buffer_.push_back(std::move(value))`. -/
  | pushBack (value : T)
  /-- `Put`: `queue_protector_.Release()`. -/
  | unprotectPut
  /-- `Put`: `bound_bottom_tokens_.Release()`. -/
  | releaseBottom
  /-- `Take`: `bound_bottom_tokens_.Acquire()`. -/
  | acquireBottom
  /-- `Take`: `queue_protector_.Acquire()`. -/
  | protectTake
  /-- `Take`: `T value = std::move(buffer_.front())`. -/
  | front
  /-- `Take`: `buffer_.pop_front()`. -/
  | popFront (value : T)
  /-- `Take`: `queue_protector_.Release()`. -/
  | unprotectTake (value : T)
  /-- `Take`: `bound_top_tokens_.Release()`. -/
  | releaseTop (value : T)
  deriving DecidableEq

/-- The semaphores, the buffer, and where the threads are. The rest is history: the values pushed, and those
    popped by a `Take`. -/
structure State (T ι : Type) [DecidableEq ι] where
  semaphores : Tokens → Semaphore ι
  buffer_ : List T := []
  pc : ι → Pc T := fun _ => .out
  pushed : List T := []
  taken : List T := []

/-- The constructor. -/
def init (T ι : Type) [DecidableEq ι] (capacity : UInt64) : State T ι where
  semaphores
    | .bound_top_tokens_ => { current_number_ := capacity }
    | .bound_bottom_tokens_ => { current_number_ := 0 }
    | .queue_protector_ => { current_number_ := 1 }

/-- Who takes the next step: a thread that calls `Put` or `Take`; one that does its next operation, where a
    `Release` wakes the thread `wakes`; or a sleeper that wakes for no reason. -/
inductive Action (T ι : Type) where
  | put (t : ι) (value : T)
  | take (t : ι)
  | step (t : ι) (wakes : Option ι)
  | wake (t : ι) (m : Tokens)

variable {T ι : Type} [DecidableEq ι]

namespace State

def setPc (s : State T ι) (t : ι) (pc : Pc T) : State T ι := { s with pc := Function.update s.pc t pc }

/-- Thread `t` in `Acquire` of semaphore `m` takes a token and goes on to `pc`, or sleeps. -/
def acquire (s : State T ι) (t : ι) (m : Tokens) (pc : Pc T) : Option (State T ι) :=
  if t ∈ (s.semaphores m).enough_tokens_.asleep then none else
    match (s.semaphores m).acquire t with
    | (true, q) => some { s.setPc t pc with semaphores := Function.update s.semaphores m q }
    | (false, q) => some { s with semaphores := Function.update s.semaphores m q }

/-- Thread `t` releases a token of semaphore `m`, which wakes `c`, and goes on to `pc`. -/
def release (s : State T ι) (t : ι) (m : Tokens) (c : Option ι) (pc : Pc T) : Option (State T ι) :=
  ((s.semaphores m).release c).map fun q =>
    { s.setPc t pc with semaphores := Function.update s.semaphores m q }

end State

/-- The next operation of thread `t`. `front` and `pop_front` of an empty buffer are undefined. -/
def exec (s : State T ι) (t : ι) (c : Option ι) : Option (State T ι) :=
  match s.pc t with
  | .out => none
  | .acquireTop v => s.acquire t .bound_top_tokens_ (.protectPut v)
  | .protectPut v => s.acquire t .queue_protector_ (.pushBack v)
  | .pushBack v =>
      some { s.setPc t .unprotectPut with buffer_ := s.buffer_ ++ [v], pushed := s.pushed ++ [v] }
  | .unprotectPut => s.release t .queue_protector_ c .releaseBottom
  | .releaseBottom => s.release t .bound_bottom_tokens_ c .out
  | .acquireBottom => s.acquire t .bound_bottom_tokens_ .protectTake
  | .protectTake => s.acquire t .queue_protector_ .front
  | .front => s.buffer_.head?.map fun v => s.setPc t (.popFront v)
  | .popFront v =>
      match s.buffer_ with
      | [] => none
      | _ :: rest => some { s.setPc t (.unprotectTake v) with buffer_ := rest, taken := s.taken ++ [v] }
  | .unprotectTake v => s.release t .queue_protector_ c (.releaseTop v)
  | .releaseTop _ => s.release t .bound_top_tokens_ c .out

def next (s : State T ι) : Action T ι → Option (State T ι)
  | .put t v =>
      match s.pc t with
      | .out => some (s.setPc t (.acquireTop v))
      | _ => none
  | .take t =>
      match s.pc t with
      | .out => some (s.setPc t .acquireBottom)
      | _ => none
  | .step t c => exec s t c
  | .wake t m =>
      ((s.semaphores m).wake t).map fun q => { s with semaphores := Function.update s.semaphores m q }

/-- All runs of threads `ι` on a queue of this capacity. -/
def system (T ι : Type) [DecidableEq ι] (capacity : UInt64) : System (State T ι) :=
  System.ofNext (init T ι capacity) next

/-! ## What a step can do -/

/-- In `Acquire` of this semaphore, and where to go from there. -/
inductive Acquires : Pc T → Tokens → Pc T → Prop where
  | top (v : T) : Acquires (.acquireTop v) .bound_top_tokens_ (.protectPut v)
  | put (v : T) : Acquires (.protectPut v) .queue_protector_ (.pushBack v)
  | bottom : Acquires .acquireBottom .bound_bottom_tokens_ .protectTake
  | take : Acquires .protectTake .queue_protector_ .front

/-- At a `Release` of this semaphore. -/
inductive Releases : Pc T → Tokens → Pc T → Prop where
  | put : Releases .unprotectPut .queue_protector_ .releaseBottom
  | bottom : Releases .releaseBottom .bound_bottom_tokens_ .out
  | take (v : T) : Releases (.unprotectTake v) .queue_protector_ (.releaseTop v)
  | top (v : T) : Releases (.releaseTop v) .bound_top_tokens_ .out

/-- A call begins. -/
inductive Calls : Pc T → Prop where
  | put (v : T) : Calls (.acquireTop v)
  | take : Calls .acquireBottom

/-- The kinds of step. -/
inductive Stepped (s : State T ι) : State T ι → Prop where
  | call (t : ι) (pc : Pc T) (out : s.pc t = .out) (calls : Calls pc) : Stepped s (s.setPc t pc)
  | acquire (t : ι) (m : Tokens) (pc : Pc T) (q : Semaphore ι) (at_ : Acquires (s.pc t) m pc)
      (awake : t ∉ (s.semaphores m).enough_tokens_.asleep)
      (acquired : (s.semaphores m).acquire t = (true, q)) :
      Stepped s { s.setPc t pc with semaphores := Function.update s.semaphores m q }
  | sleep (t : ι) (m : Tokens) (pc : Pc T) (q : Semaphore ι) (at_ : Acquires (s.pc t) m pc)
      (awake : t ∉ (s.semaphores m).enough_tokens_.asleep)
      (slept : (s.semaphores m).acquire t = (false, q)) :
      Stepped s { s with semaphores := Function.update s.semaphores m q }
  | release (t : ι) (m : Tokens) (pc : Pc T) (c : Option ι) (q : Semaphore ι) (at_ : Releases (s.pc t) m pc)
      (released : (s.semaphores m).release c = some q) :
      Stepped s { s.setPc t pc with semaphores := Function.update s.semaphores m q }
  | pushBack (t : ι) (v : T) (pc : s.pc t = .pushBack v) :
      Stepped s { s.setPc t .unprotectPut with buffer_ := s.buffer_ ++ [v], pushed := s.pushed ++ [v] }
  | front (t : ι) (v : T) (pc : s.pc t = .front) (head : s.buffer_.head? = some v) :
      Stepped s (s.setPc t (.popFront v))
  | popFront (t : ι) (v w : T) (rest : List T) (pc : s.pc t = .popFront v) (buffer : s.buffer_ = w :: rest) :
      Stepped s { s.setPc t (.unprotectTake v) with buffer_ := rest, taken := s.taken ++ [v] }
  | wake (t : ι) (m : Tokens) (q : Semaphore ι) (woken : (s.semaphores m).wake t = some q) :
      Stepped s { s with semaphores := Function.update s.semaphores m q }

theorem acquire_stepped {s s' : State T ι} {t : ι} {m : Tokens} {pc : Pc T} (hat : Acquires (s.pc t) m pc)
    (h : s.acquire t m pc = some s') : Stepped s s' := by
  simp only [State.acquire, Option.ite_none_left_eq_some] at h
  obtain ⟨hawake, h⟩ := h
  split at h
  · next q hq =>
      obtain rfl := Option.some.inj h
      exact .acquire t m pc q hat hawake hq
  · next q hq =>
      obtain rfl := Option.some.inj h
      exact .sleep t m pc q hat hawake hq

theorem release_stepped {s s' : State T ι} {t : ι} {m : Tokens} {c : Option ι} {pc : Pc T}
    (hat : Releases (s.pc t) m pc) (h : s.release t m c pc = some s') : Stepped s s' := by
  obtain ⟨q, hq, rfl⟩ := Option.map_eq_some_iff.mp h
  exact .release t m pc c q hat hq

theorem exec_stepped {s s' : State T ι} {t : ι} {c : Option ι} (h : exec s t c = some s') : Stepped s s' := by
  unfold exec at h
  split at h
  · cases h
  · next v hpc => exact acquire_stepped (hpc ▸ .top v) h
  · next v hpc => exact acquire_stepped (hpc ▸ .put v) h
  · next v hpc =>
      obtain rfl := Option.some.inj h
      exact .pushBack t v hpc
  · next hpc => exact release_stepped (hpc ▸ .put) h
  · next hpc => exact release_stepped (hpc ▸ .bottom) h
  · next hpc => exact acquire_stepped (hpc ▸ .bottom) h
  · next hpc => exact acquire_stepped (hpc ▸ .take) h
  · next hpc =>
      obtain ⟨v, hv, rfl⟩ := Option.map_eq_some_iff.mp h
      exact .front t v hpc hv
  · next v hpc =>
      split at h
      · cases h
      · next w rest hbuffer =>
          obtain rfl := Option.some.inj h
          exact .popFront t v w rest hpc hbuffer
  · next v hpc => exact release_stepped (hpc ▸ .take v) h
  · next v hpc => exact release_stepped (hpc ▸ .top v) h

theorem next_stepped {s s' : State T ι} {a : Action T ι} (h : next s a = some s') : Stepped s s' := by
  cases a with
  | put t v =>
      simp only [next] at h
      split at h
      · next hout =>
          obtain rfl := Option.some.inj h
          exact .call t _ hout (.put v)
      · cases h
  | take t =>
      simp only [next] at h
      split at h
      · next hout =>
          obtain rfl := Option.some.inj h
          exact .call t _ hout .take
      · cases h
  | step t c => exact exec_stepped h
  | wake t m =>
      obtain ⟨q, hq, rfl⟩ := Option.map_eq_some_iff.mp h
      exact .wake t m q hq

/-! ## Where the tokens are -/

namespace Pc

/-- The semaphore the thread takes a token of next. -/
def acquiring : Pc T → Option Tokens
  | .acquireTop _ => some .bound_top_tokens_
  | .acquireBottom => some .bound_bottom_tokens_
  | .protectPut _ => some .queue_protector_
  | .protectTake => some .queue_protector_
  | _ => none

/-- The thread has the token of `queue_protector_`. -/
def holds : Pc T → Bool
  | .pushBack _ => true
  | .unprotectPut => true
  | .front => true
  | .popFront _ => true
  | .unprotectTake _ => true
  | _ => false

/-- The thread has a token of `bound_top_tokens_` or `bound_bottom_tokens_`. -/
def between : Pc T → Nat
  | .out => 0
  | .acquireTop _ => 0
  | .acquireBottom => 0
  | _ => 1

/-- The thread has put a value into the buffer, or will take one out, which `bound_bottom_tokens_` does not
    count. -/
def uncounted : Pc T → Nat
  | .unprotectPut => 1
  | .releaseBottom => 1
  | .protectTake => 1
  | .front => 1
  | .popFront _ => 1
  | _ => 0

theorem uncounted_le_between (pc : Pc T) : pc.uncounted ≤ pc.between := by
  cases pc <;> simp [uncounted, between]

theorem acquiring_of_holds {pc : Pc T} (h : pc.holds = true) : pc.acquiring = none := by
  cases pc <;> first | rfl | cases h

/-- A thread that waits for a token of its own end has none. -/
theorem between_of_acquiring {pc : Pc T} {m : Tokens} (h : pc.acquiring = some m) (hm : m ≠ .queue_protector_) :
    pc.between = 0 := by
  cases pc with
  | out | acquireTop | acquireBottom => rfl
  | protectPut | protectTake => exact absurd (Option.some.inj h).symm hm
  | pushBack | unprotectPut | releaseBottom | front | popFront | unprotectTake | releaseTop => cases h

end Pc

namespace Tokens

/-- The token is one that `capacity` counts. -/
def bound : Tokens → Nat
  | .queue_protector_ => 0
  | _ => 1

/-- The token stands for a value in the buffer. -/
def bottom : Tokens → Nat
  | .bound_bottom_tokens_ => 1
  | _ => 0

end Tokens

section

variable {pc pc' : Pc T} {m : Tokens}

theorem Acquires.acquiring (h : Acquires pc m pc') : pc.acquiring = some m := by
  cases h <;> rfl

/-- The thread takes the token with it. -/
theorem Acquires.counted (h : Acquires pc m pc') :
    pc'.between = pc.between + m.bound ∧ pc'.uncounted = pc.uncounted + m.bottom := by
  cases h <;> exact ⟨rfl, rfl⟩

theorem Acquires.holds (h : Acquires pc m pc') : pc.holds = false ∧ (pc'.holds = true ↔ m = .queue_protector_) := by
  cases h <;> simp [Pc.holds]

theorem Acquires.ne_popFront (h : Acquires pc m pc') (v : T) : pc' ≠ .popFront v := by
  cases h <;> exact nofun

theorem Releases.acquiring (h : Releases pc m pc') : pc.acquiring = none := by
  cases h <;> rfl

/-- The thread gives the token away. -/
theorem Releases.counted (h : Releases pc m pc') :
    pc.between = pc'.between + m.bound ∧ pc.uncounted = pc'.uncounted + m.bottom := by
  cases h <;> exact ⟨rfl, rfl⟩

theorem Releases.holds (h : Releases pc m pc') : pc'.holds = false ∧ (pc.holds = true ↔ m = .queue_protector_) := by
  cases h <;> simp [Pc.holds]

theorem Releases.ne_popFront (h : Releases pc m pc') (v : T) : pc' ≠ .popFront v := by
  cases h <;> exact nofun

theorem Calls.idle (h : Calls pc) : pc.between = 0 ∧ pc.uncounted = 0 ∧ pc.holds = false ∧ ∀ v, pc ≠ .popFront v := by
  cases h <;> exact ⟨rfl, rfl, rfl, nofun⟩

end

/-- The tokens left in semaphore `m`. -/
def left (semaphores : Tokens → Semaphore ι) (m : Tokens) : Nat := (semaphores m).current_number_.toNat

section

variable {semaphores : Tokens → Semaphore ι} {t : ι} {m : Tokens} {q : Semaphore ι}

/-- A semaphore whose sleepers changed. -/
theorem left_update_same (hq : q.current_number_ = (semaphores m).current_number_) :
    left (Function.update semaphores m q) = left semaphores := by
  funext m'
  unfold left
  by_cases hm : m' = m
  · subst hm
    rw [Function.update_self, hq]
  · rw [Function.update_of_ne hm]

/-- One token less in semaphore `m`. -/
theorem left_less {f g : Tokens → Nat} (hm : g m + 1 = f m) (hothers : ∀ m', m' ≠ m → g m' = f m') :
    g .bound_top_tokens_ + g .bound_bottom_tokens_ + m.bound = f .bound_top_tokens_ + f .bound_bottom_tokens_ ∧
      g .bound_bottom_tokens_ + m.bottom = f .bound_bottom_tokens_ := by
  cases m with
  | bound_top_tokens_ =>
      have hbottom := hothers .bound_bottom_tokens_ nofun
      simp only [Tokens.bound, Tokens.bottom]
      omega
  | bound_bottom_tokens_ =>
      have htop := hothers .bound_top_tokens_ nofun
      simp only [Tokens.bound, Tokens.bottom]
      omega
  | queue_protector_ =>
      have htop := hothers .bound_top_tokens_ nofun
      have hbottom := hothers .bound_bottom_tokens_ nofun
      simp only [Tokens.bound, Tokens.bottom]
      omega

theorem left_update_of_ne {m' : Tokens} (hne : m' ≠ m) :
    left (Function.update semaphores m q) m' = left semaphores m' := by
  unfold left
  rw [Function.update_of_ne hne]

theorem left_acquire (hq : (semaphores m).acquire t = (true, q)) :
    left (Function.update semaphores m q) m + 1 = left semaphores m := by
  unfold left
  rw [Function.update_self]
  exact (Semaphore.toNat_of_acquire hq).1

theorem left_release {c : Option ι} (hq : (semaphores m).release c = some q) (hover : ¬ (semaphores m).Overflows) :
    left (Function.update semaphores m q) m = left semaphores m + 1 := by
  have hnumber := Semaphore.toNat_of_release hq
  unfold left
  rw [Function.update_self]
  rwa [if_neg hover] at hnumber

end

/-- `queue_protector_` is a mutex. -/
inductive Guard (s : State T ι) : Prop where
  | free (token : left s.semaphores .queue_protector_ = 1) (nobody : Nobody Pc.holds s.pc)
  | held (t : ι) (token : left s.semaphores .queue_protector_ = 0) (only : Only Pc.holds s.pc t)

/-- Whoever waits in a semaphore is in its `Acquire`. -/
def InAcquire (s : State T ι) : Prop :=
  ∀ t m, (s.semaphores m).enough_tokens_.Waits t → (s.pc t).acquiring = some m

variable [Fintype ι]

structure Inv (capacity : UInt64) (s : State T ι) : Prop where
  tokens : left s.semaphores .bound_top_tokens_ + left s.semaphores .bound_bottom_tokens_ + total Pc.between s.pc =
    capacity.toNat
  length : s.buffer_.length = left s.semaphores .bound_bottom_tokens_ + total Pc.uncounted s.pc
  contents : s.pushed = s.taken ++ s.buffer_
  guard : Guard s
  /-- What `front` has returned is there until `pop_front`. -/
  front : ∀ t v, s.pc t = .popFront v → s.buffer_.head? = some v
  waits : InAcquire s
  covered : ∀ m, (s.semaphores m).Covered

omit [Fintype ι] in
/-- Only one thread is between the two calls to `queue_protector_`. -/
theorem Guard.unique {s : State T ι} (h : Guard s) {t u : ι} (ht : (s.pc t).holds = true)
    (hu : (s.pc u).holds = true) : t = u := by
  cases h with
  | free token nobody => exact (nobody.not ht).elim
  | held i token only => exact (only.eq ht).trans (only.eq hu).symm

omit [Fintype ι] in
theorem Guard.congr {s s' : State T ι} (h : Guard s)
    (htoken : left s'.semaphores .queue_protector_ = left s.semaphores .queue_protector_)
    (hholds : ∀ i, (s'.pc i).holds = (s.pc i).holds) : Guard s' := by
  cases h with
  | free token nobody => exact .free (htoken.trans token) (nobody.congr hholds)
  | held t token only => exact .held t (htoken.trans token) (only.congr hholds)

/-- **No `Release` overflows**: the token was taken before. -/
theorem Inv.not_overflows {capacity : UInt64} {s : State T ι} (h : Inv capacity s) {t : ι} {m : Tokens} {pc : Pc T}
    (hat : Releases (s.pc t) m pc) : ¬ (s.semaphores m).Overflows := by
  have hlt := capacity.toNat_lt
  have htokens := h.tokens
  have hbetween := le_total Pc.between s.pc t
  have hcounted := hat.counted.1
  unfold Semaphore.Overflows
  show left s.semaphores m ≠ 2 ^ 64 - 1
  cases m with
  | bound_top_tokens_ | bound_bottom_tokens_ =>
      -- one of the `capacity` tokens is still with the thread
      simp only [Tokens.bound] at hcounted
      omega
  | queue_protector_ =>
      have hholds := hat.holds.2.mpr rfl
      cases h.guard with
      | free token nobody => exact (nobody.not hholds).elim
      | held i token only =>
          rw [token]
          decide

/-- A step that moves no token. -/
theorem Inv.tokens_kept {capacity : UInt64} {s s' : State T ι} (h : Inv capacity s)
    (htokens : left s'.semaphores = left s.semaphores)
    (hbetween : total Pc.between s'.pc = total Pc.between s.pc) :
    left s'.semaphores .bound_top_tokens_ + left s'.semaphores .bound_bottom_tokens_ +
      total Pc.between s'.pc = capacity.toNat := by
  rw [htokens, hbetween]
  exact h.tokens

theorem Inv.tokens_stepped {capacity : UInt64} {s s' : State T ι} (h : Inv capacity s) (hstep : Stepped s s') :
    left s'.semaphores .bound_top_tokens_ + left s'.semaphores .bound_bottom_tokens_ +
      total Pc.between s'.pc = capacity.toNat := by
  have htokens := h.tokens
  cases hstep with
  | call t pc out calls =>
      have htotal := total_step Pc.between out pc
      rw [calls.idle.1] at htotal
      exact h.tokens_kept rfl htotal
  | acquire t m pc q at_ awake acquired =>
      -- the token goes from the semaphore to the thread
      have hless := left_less (left_acquire acquired) fun m' => left_update_of_ne
      have htotal := total_update Pc.between s.pc t pc
      rw [at_.counted.1] at htotal
      show left (Function.update s.semaphores m q) _ + left (Function.update s.semaphores m q) _ +
        total Pc.between (Function.update s.pc t pc) = capacity.toNat
      omega
  | sleep t m pc q at_ awake slept =>
      exact h.tokens_kept (left_update_same (Semaphore.toNat_of_sleep slept).2.1) rfl
  | release t m pc c q at_ released =>
      have hmore := left_less (left_release released (h.not_overflows at_)).symm
        fun m' hne => (left_update_of_ne hne).symm
      have htotal := total_update Pc.between s.pc t pc
      rw [at_.counted.1] at htotal
      show left (Function.update s.semaphores m q) _ + left (Function.update s.semaphores m q) _ +
        total Pc.between (Function.update s.pc t pc) = capacity.toNat
      omega
  | pushBack t v pc => exact h.tokens_kept rfl (Nat.add_right_cancel (total_step Pc.between pc .unprotectPut))
  | front t v pc head => exact h.tokens_kept rfl (Nat.add_right_cancel (total_step Pc.between pc (.popFront v)))
  | popFront t v w rest pc buffer =>
      exact h.tokens_kept rfl (Nat.add_right_cancel (total_step Pc.between pc (.unprotectTake v)))
  | wake t m q woken => exact h.tokens_kept (left_update_same (Semaphore.wake_eq_some woken).2.1) rfl

/-- **The buffer holds a value for each token at the bottom**, and for each thread that has not put its token
    there or not taken its value out. -/
theorem Inv.length_stepped {capacity : UInt64} {s s' : State T ι} (h : Inv capacity s) (hstep : Stepped s s') :
    s'.buffer_.length = left s'.semaphores .bound_bottom_tokens_ + total Pc.uncounted s'.pc := by
  have hlength := h.length
  cases hstep with
  | call t pc out calls =>
      have htotal := total_step Pc.uncounted out pc
      rw [calls.idle.2.1] at htotal
      exact hlength.trans (congrArg _ htotal.symm)
  | acquire t m pc q at_ awake acquired =>
      have hless := left_less (left_acquire acquired) fun m' => left_update_of_ne
      have htotal := total_update Pc.uncounted s.pc t pc
      rw [at_.counted.2] at htotal
      show s.buffer_.length = left (Function.update s.semaphores m q) _ +
        total Pc.uncounted (Function.update s.pc t pc)
      omega
  | sleep t m pc q at_ awake slept =>
      rw [left_update_same (Semaphore.toNat_of_sleep slept).2.1]
      exact hlength
  | release t m pc c q at_ released =>
      have hmore := left_less (left_release released (h.not_overflows at_)).symm
        fun m' hne => (left_update_of_ne hne).symm
      have htotal := total_update Pc.uncounted s.pc t pc
      rw [at_.counted.2] at htotal
      show s.buffer_.length = left (Function.update s.semaphores m q) _ +
        total Pc.uncounted (Function.update s.pc t pc)
      omega
  | pushBack t v pc =>
      have htotal := total_step Pc.uncounted pc .unprotectPut
      show (s.buffer_ ++ [v]).length = _ + total Pc.uncounted (Function.update s.pc t .unprotectPut)
      rw [List.length_append, List.length_singleton, hlength, Nat.add_assoc]
      exact congrArg _ htotal.symm
  | front t v pc head =>
      have htotal := total_step Pc.uncounted pc (.popFront v)
      exact hlength.trans (congrArg _ (Nat.add_right_cancel htotal).symm)
  | popFront t v w rest pc buffer =>
      -- the value goes with the token that the thread has taken
      have htotal := total_step Pc.uncounted pc (.unprotectTake v)
      rw [buffer, List.length_cons] at hlength
      change total Pc.uncounted (Function.update s.pc t _) + 1 = total Pc.uncounted s.pc + 0 at htotal
      show rest.length = left s.semaphores _ + total Pc.uncounted (Function.update s.pc t _)
      omega
  | wake t m q woken =>
      rw [left_update_same (Semaphore.wake_eq_some woken).2.1]
      exact hlength

theorem Inv.contents_stepped {capacity : UInt64} {s s' : State T ι} (h : Inv capacity s) (hstep : Stepped s s') :
    s'.pushed = s'.taken ++ s'.buffer_ := by
  have hcontents := h.contents
  cases hstep with
  | pushBack t v pc =>
      show s.pushed ++ [v] = s.taken ++ (s.buffer_ ++ [v])
      rw [hcontents, List.append_assoc]
  | popFront t v w rest pc buffer =>
      -- the value at the front is the one that `front` has returned
      have hfront := h.front t v pc
      rw [buffer] at hfront
      obtain rfl := Option.some.inj hfront
      show s.pushed = s.taken ++ [w] ++ rest
      rw [hcontents, buffer, List.append_assoc]
      rfl
  | call | acquire | sleep | release | front | wake => exact hcontents

omit [Fintype ι] in
theorem Guard.stepped {s s' : State T ι} (h : Guard s) (hstep : Stepped s s')
    (hover : ∀ t m pc, Releases (s.pc t) m pc → ¬ (s.semaphores m).Overflows) : Guard s' := by
  cases hstep with
  | call t pc out calls =>
      refine h.congr rfl (update_same ?_)
      rw [calls.idle.2.2.1, out]
      rfl
  | acquire t m pc q at_ awake acquired =>
      by_cases hm : m = .queue_protector_
      · subst hm
        have hless := left_acquire acquired
        cases h with
        | free token nobody =>
            refine .held t ?_ (nobody.take (at_.holds.2.mpr rfl))
            show left (Function.update s.semaphores _ q) _ = 0
            omega
        -- there is no token to take
        | held i token only => omega
      · apply h.congr (left_update_of_ne (Ne.symm hm))
        refine update_same ?_
        rw [at_.holds.1, Bool.eq_false_iff]
        exact mt at_.holds.2.mp hm
  | sleep t m pc q at_ awake slept =>
      exact h.congr (congrFun (left_update_same (Semaphore.toNat_of_sleep slept).2.1) _) fun _ => rfl
  | release t m pc c q at_ released =>
      by_cases hm : m = .queue_protector_
      · subst hm
        have hmore := left_release released (hover t _ pc at_)
        have hholds := at_.holds.2.mpr rfl
        cases h with
        | free token nobody => exact (nobody.not hholds).elim
        | held i token only =>
            obtain rfl := only.eq hholds
            refine .free ?_ (only.drop at_.holds.1)
            show left (Function.update s.semaphores _ q) _ = 1
            omega
      · apply h.congr (left_update_of_ne (Ne.symm hm))
        refine update_same ?_
        rw [at_.holds.1, eq_comm, Bool.eq_false_iff]
        exact mt at_.holds.2.mp hm
  | pushBack t v pc => exact h.congr rfl (update_same (by rw [pc]; rfl))
  | front t v pc head => exact h.congr rfl (update_same (by rw [pc]; rfl))
  | popFront t v w rest pc buffer => exact h.congr rfl (update_same (by rw [pc]; rfl))
  | wake t m q woken => exact h.congr (congrFun (left_update_same (Semaphore.wake_eq_some woken).2.1) _) fun _ => rfl

omit [Fintype ι] in
/-- A thread that is at `pop_front` after a step of thread `t` was there before. -/
theorem pc_popFront {pcs : ι → Pc T} {t u : ι} {pc : Pc T} {v : T} (hpc : pc ≠ .popFront v)
    (h : Function.update pcs t pc u = .popFront v) : u ≠ t ∧ pcs u = .popFront v :=
  of_update (P := fun pc : Pc T => pc = .popFront v) hpc h

theorem Inv.front_stepped {capacity : UInt64} {s s' : State T ι} (h : Inv capacity s) (hstep : Stepped s s') :
    ∀ u v, s'.pc u = .popFront v → s'.buffer_.head? = some v := by
  intro u x hu
  -- only the thread that holds the protector changes the buffer
  have hother : ∀ t, (s.pc t).holds = true → u ≠ t → s.pc u ≠ .popFront x := by
    intro t ht hne hpc
    exact hne (h.guard.unique (by rw [hpc]; rfl) ht)
  cases hstep with
  | call t pc out calls => exact h.front u x (pc_popFront (calls.idle.2.2.2 x) hu).2
  | acquire t m pc q at_ awake acquired => exact h.front u x (pc_popFront (at_.ne_popFront x) hu).2
  | sleep | wake => exact h.front u x hu
  | release t m pc c q at_ released => exact h.front u x (pc_popFront (at_.ne_popFront x) hu).2
  | pushBack t v pc =>
      have hpushed : Pc.unprotectPut ≠ .popFront x := nofun
      obtain ⟨hne, hpc⟩ := pc_popFront hpushed hu
      exact absurd hpc (hother t (by rw [pc]; rfl) hne)
  | front t v pc head =>
      by_cases hut : u = t
      · change Function.update s.pc t _ u = _ at hu
        rw [hut, Function.update_self] at hu
        rwa [← Pc.popFront.inj hu]
      · change Function.update s.pc t _ u = _ at hu
        rw [Function.update_of_ne hut] at hu
        exact h.front u x hu
  | popFront t v w rest pc buffer =>
      have hpopped : Pc.unprotectTake v ≠ .popFront x := nofun
      obtain ⟨hne, hpc⟩ := pc_popFront hpopped hu
      exact absurd hpc (hother t (by rw [pc]; rfl) hne)

omit [Fintype ι] in
theorem InAcquire.update {s : State T ι} (h : InAcquire s) {m : Tokens} {q : Semaphore ι} {pcs : ι → Pc T}
    (hm : ∀ u, q.enough_tokens_.Waits u → (pcs u).acquiring = some m)
    (hothers : ∀ u m', m' ≠ m → (s.pc u).acquiring = some m' → (pcs u).acquiring = some m') (u : ι) (m' : Tokens)
    (hwaits : (Function.update s.semaphores m q m').enough_tokens_.Waits u) : (pcs u).acquiring = some m' := by
  by_cases hm' : m' = m
  · subst hm'
    rw [Function.update_self] at hwaits
    exact hm u hwaits
  · rw [Function.update_of_ne hm'] at hwaits
    exact hothers u m' hm' (h u m' hwaits)

omit [Fintype ι] in
theorem InAcquire.stepped {s s' : State T ι} (h : InAcquire s) (hstep : Stepped s s') : InAcquire s' := by
  -- a thread that is in no `Acquire`, or leaves the one it is in, waits nowhere
  have hmoved : ∀ (t : ι) (pc : Pc T) (m : Tokens), (∀ m', (s.pc t).acquiring = some m' → m' = m) →
      ∀ u m', m' ≠ m → (s.pc u).acquiring = some m' → (Function.update s.pc t pc u).acquiring = some m' := by
    intro t pc m hpc u m' hne hu
    by_cases hut : u = t
    · subst hut
      exact absurd (hpc m' hu) hne
    · rwa [Function.update_of_ne hut]
  have hidle : ∀ (t : ι) (pc : Pc T), (s.pc t).acquiring = none →
      ∀ u m', (s.pc u).acquiring = some m' → (Function.update s.pc t pc u).acquiring = some m' := by
    intro t pc hpc u m' hu
    by_cases hut : u = t
    · rw [hut, hpc] at hu
      cases hu
    · rwa [Function.update_of_ne hut]
  cases hstep with
  | call t pc out calls => exact fun u m' hu => hidle t pc (by rw [out]; rfl) u m' (h u m' hu)
  | acquire t m pc q at_ awake acquired =>
      have htokens := (Semaphore.toNat_of_acquire acquired).2
      refine h.update (fun u hu => ?_) (hmoved t pc m fun m' hm' => ?_)
      · rw [htokens] at hu
        by_cases hut : u = t
        · subst hut
          exact absurd hu (WaitSet.not_waits_leave awake)
        · show (Function.update s.pc t pc u).acquiring = some m
          rw [Function.update_of_ne hut]
          exact h u m ((WaitSet.leave_sameAt hut).waits.mp hu)
      · rw [at_.acquiring] at hm'
        exact (Option.some.inj hm').symm
  | sleep t m pc q at_ awake slept =>
      have htokens := (Semaphore.toNat_of_sleep slept).2.2
      refine h.update (fun u hu => ?_) fun _ _ _ => id
      rw [htokens] at hu
      by_cases hut : u = t
      · subst hut
        exact at_.acquiring
      · exact h u m ((WaitSet.sleep_sameAt hut).waits.mp hu)
  | release t m pc c q at_ released =>
      have hnotified := Semaphore.notified_of_release released
      refine h.update (fun u hu => ?_) fun u m' _ => hidle t pc at_.acquiring u m'
      exact hidle t pc at_.acquiring u m (h u m ((WaitSet.waits_of_notifyOne hnotified).mp hu))
  | pushBack t v pc => exact fun u m' hu => hidle t _ (by rw [pc]; rfl) u m' (h u m' hu)
  | front t v pc head => exact fun u m' hu => hidle t _ (by rw [pc]; rfl) u m' (h u m' hu)
  | popFront t v w rest pc buffer => exact fun u m' hu => hidle t _ (by rw [pc]; rfl) u m' (h u m' hu)
  | wake t m q woken =>
      obtain ⟨hasleep, -, htokens⟩ := Semaphore.wake_eq_some woken
      refine h.update (fun u hu => ?_) fun _ _ _ => id
      rw [htokens] at hu
      exact h u m ((WaitSet.waits_of_wake hasleep).mp hu)

omit [Fintype ι] in
theorem covered_stepped {s s' : State T ι} (h : ∀ m, (s.semaphores m).Covered) (hstep : Stepped s s') :
    ∀ m, (s'.semaphores m).Covered := by
  have hupdate : ∀ (m : Tokens) (q : Semaphore ι), q.Covered → ∀ m', (Function.update s.semaphores m q m').Covered := by
    intro m q hq m'
    by_cases hm : m' = m
    · rwa [hm, Function.update_self]
    · rw [Function.update_of_ne hm]
      exact h m'
  cases hstep with
  | acquire t m pc q at_ awake acquired => exact hupdate m q ((h m).acquire acquired)
  | sleep t m pc q at_ awake slept => exact hupdate m q (Semaphore.Covered.sleep slept)
  | release t m pc c q at_ released => exact hupdate m q ((h m).release released)
  | wake t m q woken => exact hupdate m q ((h m).wake woken)
  | call | pushBack | front | popFront => exact h

/-- **A step keeps the invariant.** -/
theorem Inv.stepped {capacity : UInt64} {s s' : State T ι} (h : Inv capacity s) (hstep : Stepped s s') :
    Inv capacity s' where
  tokens := h.tokens_stepped hstep
  length := h.length_stepped hstep
  contents := h.contents_stepped hstep
  guard := h.guard.stepped hstep fun _ _ _ hat => h.not_overflows hat
  front := h.front_stepped hstep
  waits := h.waits.stepped hstep
  covered := covered_stepped h.covered hstep

theorem inv_init (capacity : UInt64) : Inv capacity (init T ι capacity) where
  tokens := congrArg (capacity.toNat + 0 + ·) (total_eq_zero fun _ => rfl)
  length := (congrArg (0 + ·) (total_eq_zero fun _ => rfl)).symm
  contents := rfl
  guard := .free rfl fun _ => rfl
  front := nofun
  waits t m hwaits := by
    cases m <;> exact absurd hwaits (by rintro (h | h) <;> exact absurd h (Finset.notMem_empty t))
  covered m := by
    cases m <;> exact Semaphore.covered_init _

theorem reachable_inv {capacity : UInt64} {s : State T ι} (h : (system T ι capacity).Reachable s) : Inv capacity s :=
  h.invariant_next (inv_init capacity) fun _ _ _ hinv hnext => hinv.stepped (next_stepped hnext)

/-! ## The queue does not block itself -/

/-- Thread `t` is blocked. -/
def State.Asleep (s : State T ι) (t : ι) : Prop := ∃ m, t ∈ (s.semaphores m).enough_tokens_.asleep

omit [Fintype ι] in
theorem exists_acquire {s : State T ι} {t : ι} (h : ¬ s.Asleep t) (m : Tokens) (pc : Pc T) :
    ∃ s', s.acquire t m pc = some s' := by
  have hawake : t ∉ (s.semaphores m).enough_tokens_.asleep := fun hasleep => h ⟨m, hasleep⟩
  unfold State.acquire
  rw [if_neg hawake]
  split <;> exact ⟨_, rfl⟩

omit [Fintype ι] in
theorem exists_release (s : State T ι) (t : ι) (m : Tokens) (pc : Pc T) :
    ∃ c s', s.release t m c pc = some s' := by
  obtain ⟨c, w, hw⟩ := (s.semaphores m).enough_tokens_.exists_notifyOne
  refine ⟨c, ?_⟩
  unfold State.release Semaphore.release
  rw [hw]
  exact ⟨_, rfl⟩

/-- A thread that takes a value out finds one. -/
theorem Inv.buffer_ne_nil {capacity : UInt64} {s : State T ι} (h : Inv capacity s) {t : ι}
    (ht : (s.pc t).uncounted = 1) : s.buffer_ ≠ [] := by
  have hle := le_total Pc.uncounted s.pc t
  have hlength := h.length
  rw [ne_eq, ← List.length_eq_zero_iff]
  omega

/-- **A thread inside the queue that does not sleep can step.** -/
theorem Inv.exists_exec {capacity : UInt64} {s : State T ι} (h : Inv capacity s) {t : ι} (hin : s.pc t ≠ .out)
    (hawake : ¬ s.Asleep t) : ∃ c s', exec s t c = some s' := by
  unfold exec
  cases hpc : s.pc t with
  | out => exact absurd hpc hin
  | acquireTop | protectPut | acquireBottom | protectTake => exact ⟨none, exists_acquire hawake _ _⟩
  | unprotectPut | releaseBottom | unprotectTake | releaseTop => exact exists_release s t _ _
  | pushBack v => exact ⟨none, _, rfl⟩
  | front =>
      obtain ⟨v, hv⟩ := List.exists_mem_of_ne_nil _ (h.buffer_ne_nil (by rw [hpc]; rfl))
      cases hbuffer : s.buffer_ with
      | nil => exact absurd hbuffer (List.ne_nil_of_mem hv)
      | cons w rest => exact ⟨none, _, rfl⟩
  | popFront v =>
      cases hbuffer : s.buffer_ with
      | nil => exact absurd hbuffer (h.buffer_ne_nil (by rw [hpc]; rfl))
      | cons w rest => exact ⟨none, _, rfl⟩

/-- All threads inside the queue sleep. -/
def State.Stuck (s : State T ι) : Prop := ∀ t, s.pc t ≠ .out → s.Asleep t

/-- In a stuck state a thread is in the `Acquire` it sleeps in. -/
theorem Inv.stuck_acquiring {capacity : UInt64} {s : State T ι} (h : Inv capacity s) (hstuck : s.Stuck) {t : ι}
    (hin : s.pc t ≠ .out) : ∃ m, (s.pc t).acquiring = some m ∧ t ∈ (s.semaphores m).enough_tokens_.asleep := by
  obtain ⟨m, hasleep⟩ := hstuck t hin
  exact ⟨m, h.waits t m (.inl hasleep), hasleep⟩

/-- In a stuck state nobody sleeps beside a token. -/
theorem Inv.stuck_left {capacity : UInt64} {s : State T ι} (h : Inv capacity s) (hstuck : s.Stuck) {t : ι} {m : Tokens}
    (ht : t ∈ (s.semaphores m).enough_tokens_.asleep) : left s.semaphores m = 0 := by
  by_contra hne
  obtain ⟨u, hu⟩ := (h.covered m).woken_nonempty (Nat.pos_of_ne_zero hne) ⟨t, ht⟩
  -- the woken thread is in this `Acquire`, so it sleeps in no other
  have hacquiring := h.waits u m (.inr hu)
  have hin : s.pc u ≠ .out := by
    intro hout
    rw [hout] at hacquiring
    cases hacquiring
  obtain ⟨m', hm', hasleep⟩ := h.stuck_acquiring hstuck hin
  obtain rfl := Option.some.inj (hacquiring.symm.trans hm')
  exact Finset.disjoint_left.mp (s.semaphores m).enough_tokens_.disjoint hasleep hu

/-- In a stuck state nobody holds the protector. -/
theorem Inv.stuck_protector {capacity : UInt64} {s : State T ι} (h : Inv capacity s) (hstuck : s.Stuck) :
    left s.semaphores .queue_protector_ = 1 := by
  cases h.guard with
  | free token nobody => exact token
  | held t token only =>
      have hholds := only.holder
      have hin : s.pc t ≠ .out := by
        intro hout
        rw [hout] at hholds
        cases hholds
      obtain ⟨m, hm, -⟩ := h.stuck_acquiring hstuck hin
      rw [Pc.acquiring_of_holds hholds] at hm
      cases hm

/-- So nobody waits for it. -/
theorem Inv.stuck_ne_protector {capacity : UInt64} {s : State T ι} (h : Inv capacity s) (hstuck : s.Stuck) {t : ι}
    {m : Tokens} (ht : t ∈ (s.semaphores m).enough_tokens_.asleep) : m ≠ .queue_protector_ := by
  rintro rfl
  have hfree := h.stuck_protector hstuck
  rw [h.stuck_left hstuck ht] at hfree
  cases hfree

/-- **In a stuck state every thread waits for a token of its own end**, so all tokens are in the semaphores. -/
theorem Inv.stuck_tokens {capacity : UInt64} {s : State T ι} (h : Inv capacity s) (hstuck : s.Stuck) :
    left s.semaphores .bound_top_tokens_ + left s.semaphores .bound_bottom_tokens_ = capacity.toNat := by
  have hbetween : total Pc.between s.pc = 0 := by
    apply total_eq_zero
    intro t
    by_cases hin : s.pc t = .out
    · rw [hin]
      rfl
    · obtain ⟨m, hm, hasleep⟩ := h.stuck_acquiring hstuck hin
      exact Pc.between_of_acquiring hm (h.stuck_ne_protector hstuck hasleep)
  have htokens := h.tokens
  rwa [hbetween] at htokens

namespace Pc

/-- In `Put`. -/
def isPut : Pc T → Bool
  | .acquireTop _ => true
  | .protectPut _ => true
  | .pushBack _ => true
  | .unprotectPut => true
  | .releaseBottom => true
  | _ => false

/-- In `Take`. -/
def isTake : Pc T → Bool
  | .acquireBottom => true
  | .protectTake => true
  | .front => true
  | .popFront _ => true
  | .unprotectTake _ => true
  | .releaseTop _ => true
  | _ => false

/-- At an access of `buffer_`. -/
def accesses : Pc T → Bool
  | .pushBack _ => true
  | .front => true
  | .popFront _ => true
  | _ => false

theorem holds_of_accesses {pc : Pc T} (h : pc.accesses = true) : pc.holds = true := by
  cases pc <;> first | rfl | cases h

end Pc

theorem Pc.isPut_acquiring {pc : Pc T} (h : pc.isPut = true) : pc ≠ .out ∧ pc.acquiring ≠ some .bound_bottom_tokens_ := by
  cases pc with
  | acquireTop | protectPut | pushBack | unprotectPut | releaseBottom => simp [Pc.acquiring]
  | out | acquireBottom | protectTake | front | popFront | unprotectTake | releaseTop => cases h

theorem Pc.isTake_acquiring {pc : Pc T} (h : pc.isTake = true) : pc ≠ .out ∧ pc.acquiring ≠ some .bound_top_tokens_ := by
  cases pc with
  | acquireBottom | protectTake | front | popFront | unprotectTake | releaseTop => simp [Pc.acquiring]
  | out | acquireTop | protectPut | pushBack | unprotectPut | releaseBottom => cases h

/-- Who sleeps at one end finds no token there. -/
theorem Inv.stuck_end {capacity : UInt64} {s : State T ι} (h : Inv capacity s) (hstuck : s.Stuck) {t : ι}
    {end_ other : Tokens} (hin : s.pc t ≠ .out) (hother : (s.pc t).acquiring ≠ some other)
    (hends : ∀ m, m = end_ ∨ m = other ∨ m = .queue_protector_) : left s.semaphores end_ = 0 := by
  obtain ⟨m, hm, hasleep⟩ := h.stuck_acquiring hstuck hin
  rcases hends m with rfl | rfl | rfl
  · exact h.stuck_left hstuck hasleep
  · exact absurd hm hother
  · exact absurd rfl (h.stuck_ne_protector hstuck hasleep)

/-- **A queue that can hold something does not block itself.** -/
theorem Inv.not_stuck {capacity : UInt64} {s : State T ι} (h : Inv capacity s) (hpos : 1 ≤ capacity.toNat) {t u : ι}
    (ht : (s.pc t).isPut = true) (hu : (s.pc u).isTake = true) : ¬ s.Stuck := by
  intro hstuck
  have htokens := h.stuck_tokens hstuck
  have htop : left s.semaphores .bound_top_tokens_ = 0 := by
    obtain ⟨hin, hother⟩ := Pc.isPut_acquiring ht
    exact h.stuck_end hstuck hin hother fun m => by cases m <;> simp
  have hbottom : left s.semaphores .bound_bottom_tokens_ = 0 := by
    obtain ⟨hin, hother⟩ := Pc.isTake_acquiring hu
    exact h.stuck_end hstuck hin hother fun m => by cases m <;> simp
  -- but there are `capacity` tokens, all in the two semaphores
  omega

/-- **A bounded queue.** In every reachable state: at most one thread is at an access of `buffer_`; the buffer holds
    at most `capacity` values, and one for whoever is at `front` or `pop_front`; the values taken are the first of
    those pushed, and the others are in the buffer; the tokens at both ends and those on their way are `capacity`;
    and if that is not zero, a thread can step whenever a producer and a consumer are blocked. -/
theorem bounded_fifo {capacity : UInt64} {s : State T ι} (h : (system T ι capacity).Reachable s) :
    (∀ t u, (s.pc t).accesses = true → (s.pc u).accesses = true → t = u) ∧
      s.buffer_.length ≤ capacity.toNat ∧
      (∀ t, (s.pc t = .front ∨ ∃ v, s.pc t = .popFront v) → s.buffer_ ≠ []) ∧
      (s.taken <+: s.pushed ∧ s.pushed = s.taken ++ s.buffer_) ∧
      left s.semaphores .bound_top_tokens_ + left s.semaphores .bound_bottom_tokens_ + total Pc.between s.pc =
        capacity.toNat ∧
      (1 ≤ capacity.toNat → ∀ t u, (s.pc t).isPut = true → s.Asleep t → (s.pc u).isTake = true → s.Asleep u →
        ∃ i c s', next s (.step i c) = some s') := by
  have hinv := reachable_inv h
  refine ⟨fun t u ht hu => ?_, ?_, fun t ht => ?_, ⟨?_, hinv.contents⟩, hinv.tokens, ?_⟩
  · exact hinv.guard.unique (Pc.holds_of_accesses ht) (Pc.holds_of_accesses hu)
  · have hle : total Pc.uncounted s.pc ≤ total Pc.between s.pc :=
      total_le_total fun i => (s.pc i).uncounted_le_between
    have hlength := hinv.length
    have htokens := hinv.tokens
    omega
  · apply hinv.buffer_ne_nil (t := t)
    rcases ht with ht | ⟨v, ht⟩ <;> rw [ht] <;> rfl
  · rw [hinv.contents]
    exact List.prefix_append _ _
  · intro hpos t u ht _ hu _
    by_contra hnone
    refine hinv.not_stuck hpos ht hu fun i hin => ?_
    by_contra hawake
    obtain ⟨c, s', hexec⟩ := hinv.exists_exec hin hawake
    exact hnone ⟨i, c, s', hexec⟩

/-- Room for one value: the second `Put` sleeps until the `Take`. -/
theorem bounded_fifo_one : ∃ s : State Nat (Fin 3), (system Nat (Fin 3) 1).Reachable s ∧ s.pushed = [7] ∧
    s.taken = [7] ∧ s.pc 1 = .acquireTop 8 ∧ s.taken <+: s.pushed := by
  have hrun : ∃ s, System.run next (init Nat (Fin 3) 1)
      [.put 0 7, .step 0 none, .step 0 none, .step 0 none, .step 0 none, .put 1 8, .step 1 none,
        .step 0 none, .take 2, .step 2 none, .step 2 none, .step 2 none, .step 2 none, .step 2 none,
        .step 2 (some 1)] = some s ∧ s.pushed = [7] ∧ s.taken = [7] ∧ s.pc 1 = .acquireTop 8 :=
    ⟨_, rfl, rfl, rfl, rfl⟩
  obtain ⟨s, hs, hpushed, htaken, hpc⟩ := hrun
  have h : (system Nat (Fin 3) 1).Reachable s := System.reachable_of_run _ hs
  exact ⟨s, h, hpushed, htaken, hpc, (bounded_fifo h).2.2.2.1.1⟩

end BlockingQueue
end Condvar
end Tpcc
