import Tpcc.Machine.X86

/-!
# `Machine.Tso` — memory behind store buffers

Each thread has a buffer of stores that have not reached the memory; it sees the memory through its own buffer
(`view`). Stores reach the memory one at a time, in the order of their thread (`flush`), at any moment. An exchange
waits until the thread's buffer is empty, and goes to the memory.

The lemmas say of one byte what a thread sees. Nothing here names a program.
-/

namespace Tpcc
namespace Machine

/-- A memory, and the stores of each thread that have not reached it, oldest first. -/
structure Tso (ι : Type) where
  memory : Memory
  buffer : ι → List (Word × Word) := fun _ => []

namespace Tso

variable {ι : Type}

/-- The memory as thread `t` sees it. -/
def view (s : Tso ι) (t : ι) : Memory := writes s.memory (s.buffer t)

variable [DecidableEq ι]

/-- Thread `t` stores `v` at `a`. -/
def store (s : Tso ι) (t : ι) (a v : Word) : Tso ι :=
  { s with buffer := Function.update s.buffer t (s.buffer t ++ [(a, v)]) }

/-- Store `w` of thread `t` reaches the memory; `stores` are still to come. -/
def flushed (s : Tso ι) (t : ι) (w : Word × Word) (stores : List (Word × Word)) : Tso ι where
  memory := s.memory.store w.1 w.2
  buffer := Function.update s.buffer t stores

/-- The oldest store of thread `t` reaches the memory. -/
def flush (s : Tso ι) (t : ι) : Option (Tso ι) :=
  match s.buffer t with
  | [] => none
  | w :: stores => some (s.flushed t w stores)

/-- An access by thread `t`, and the word it loads, if it does. -/
def perform (s : Tso ι) (t : ι) : Access → Option (Tso ι × Word)
  | .none => some (s, 0)
  | .load a => some (s, (s.view t).load a)
  | .store a v => some (s.store t a v, 0)
  | .xchg a v =>
      match s.buffer t with
      | [] => some ({ s with memory := s.memory.store a v }, s.memory.load a)
      | _ :: _ => none

section

variable {s s' : Tso ι} {t u : ι} {a v x : Word}

theorem view_store_self : (s.store t a v).view t = (s.view t).store a v := by
  show writes s.memory (Function.update s.buffer t (s.buffer t ++ [(a, v)]) t) = _
  rw [Function.update_self, writes_snoc]
  rfl

theorem view_store_of_ne (h : u ≠ t) : (s.store t a v).view u = s.view u := by
  show writes s.memory (Function.update s.buffer t (s.buffer t ++ [(a, v)]) u) = _
  rw [Function.update_of_ne h]
  rfl

/-- A store that reaches the memory. -/
theorem flush_cons (h : s.flush t = some s') : ∃ w stores, s.buffer t = w :: stores ∧ s' = s.flushed t w stores := by
  unfold flush at h
  split at h
  · cases h
  · next w stores hbuffer => exact ⟨w, stores, hbuffer, (Option.some.inj h).symm⟩

/-- **A thread does not notice that its stores reach the memory.** -/
theorem view_flush_self {w : Word × Word} {stores : List (Word × Word)} (h : s.buffer t = w :: stores) :
    (s.flushed t w stores).view t = s.view t := by
  show writes (s.memory.store w.1 w.2) (Function.update s.buffer t stores t) = writes s.memory (s.buffer t)
  rw [Function.update_self, h]
  rfl

/-- The others notice, if it is a byte of theirs. -/
theorem view_flush_of_ne {w : Word × Word} {stores : List (Word × Word)} (h : u ≠ t) (hx : ¬ Within w.1 x) :
    (s.flushed t w stores).view u x = s.view u x := by
  show writes (s.memory.store w.1 w.2) (Function.update s.buffer t stores u) x = writes s.memory (s.buffer u) x
  rw [Function.update_of_ne h]
  exact writes_congr (Memory.store_of_not_within hx)

/-- An exchange, with the thread's buffer empty. -/
theorem xchg_spec {p : Tso ι × Word} (h : s.perform t (.xchg a v) = some p) :
    s.buffer t = [] ∧ p = ({ s with memory := s.memory.store a v }, s.memory.load a) := by
  unfold perform at h
  dsimp only at h
  split at h
  · next hbuffer => exact ⟨hbuffer, (Option.some.inj h).symm⟩
  · cases h

end

end Tso
end Machine
end Tpcc
