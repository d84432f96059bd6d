import Tpcc.Machine.X86
import Tpcc.Transition.System

/-!
# `Intro.Jump` — local jumps

`Capture` and `JumpTo` of `jump.S`, in a program that calls them with any contexts, as often as it likes, and does
anything else between the calls but write to its contexts.

`JumpTo` puts the address to go back to at the top of its own stack, and only then takes over the stack pointer of the
context; so its `ret` finds that address when both calls were made with the same stack pointer, and otherwise what the
program has left where `Capture` was called (`jump_resumes`).
-/

namespace Tpcc
namespace Intro

open Machine Transition

def Capture : List Instr :=
  [.load 0 .rsp .rax, .store .rax 0 .rdi,
    .store .rbx 8 .rdi, .store .rsp 16 .rdi, .store .rbp 24 .rdi,
    .store .r12 32 .rdi, .store .r13 40 .rdi, .store .r14 48 .rdi, .store .r15 56 .rdi,
    .ret]

def JumpTo : List Instr :=
  [.load 0 .rdi .rax, .store .rax 0 .rsp,
    .load 8 .rdi .rbx, .load 16 .rdi .rsp, .load 24 .rdi .rbp,
    .load 32 .rdi .r12, .load 40 .rdi .r13, .load 48 .rdi .r14, .load 56 .rdi .r15,
    .ret]

/-- A `JumpContext`. -/
structure JumpContext where
  rip : Word
  rbx : Word
  rsp : Word
  rbp : Word
  r12 : Word
  r13 : Word
  r14 : Word
  r15 : Word

namespace JumpContext

/-- The address of the `k`-th member. -/
def member (ctx : Word) (k : Nat) : Word := ctx + BitVec.ofNat 64 (8 * k)

/-- The members, in order. -/
def words (c : JumpContext) : List Word := [c.rip, c.rbx, c.rsp, c.rbp, c.r12, c.r13, c.r14, c.r15]

/-- What is in the memory. -/
def image (ctx : Word) (c : JumpContext) : List (Word × Word) := c.words.mapIdx fun k v => (member ctx k, v)

/-- What `Capture` saves, called with these registers by code that goes on at `back`. -/
def saved (r : Regs) (back : Word) : JumpContext where
  rip := back
  rbx := r .rbx
  rsp := r .rsp - 8
  rbp := r .rbp
  r12 := r .r12
  r13 := r .r13
  r14 := r .r14
  r15 := r .r15

/-- The word at `a` is not part of the context. -/
def Clear (ctx a : Word) : Prop := ∀ k < 8, Apart (member ctx k) a

end JumpContext

namespace Jump

open JumpContext

/-- The program: its registers and memory, and where its code goes on. `captured` is history: what `Capture` has last
    saved in a context. -/
structure State where
  regs : Regs
  memory : Memory
  rip : Word
  captured : Word → Option JumpContext := fun _ => none

/-- What the program does: anything, or a call whose return address is `back`. -/
inductive Action where
  | code (regs : Regs) (memory : Memory) (rip : Word)
  | capture (ctx back : Word)
  | jumpTo (ctx back : Word)

def next (s : State) : Action → Option State
  | .code regs memory rip => some { s with regs, memory, rip }
  | .capture ctx back =>
      (call (Function.update s.regs .rdi ctx, s.memory) back Capture).map fun (regs, memory, rip) =>
        { regs, memory, rip, captured := Function.update s.captured ctx (some (saved s.regs back)) }
  | .jumpTo ctx back =>
      (call (Function.update s.regs .rdi ctx, s.memory) back JumpTo).map fun (regs, memory, rip) =>
        { s with regs, memory, rip }

/-- The top of the stack in a call. -/
def State.slot (s : State) : Word := s.regs .rsp - 8

/-- The program leaves the contexts it has captured alone, keeps its stack aligned and clear of them, and jumps only to
    these; a context that it captures is one of them, or has nothing in common with them. -/
def Allowed (s : State) : Action → Prop
  | .code _ memory _ => ∀ ctx c, s.captured ctx = some c → ∀ k < 8, memory.load (member ctx k) = s.memory.load (member ctx k)
  | .capture ctx _ =>
      Aligned s.slot ∧ Clear ctx s.slot ∧ ∀ ctx' c, s.captured ctx' = some c →
        Clear ctx' s.slot ∧ (ctx' ≠ ctx → ∀ k < 8, Clear ctx' (member ctx k))
  | .jumpTo ctx _ =>
      Aligned s.slot ∧ s.captured ctx ≠ none ∧ ∀ ctx' c, s.captured ctx' = some c → Clear ctx' s.slot

/-- All runs of such a program. -/
def system (regs : Regs) (memory : Memory) (rip : Word) : System State :=
  System.ofNextIf { regs, memory, rip } next Allowed

/-! ## The two routines -/

/-- What is in the memory is there member by member. -/
theorem mem_image {ctx : Word} {c : JumpContext} {w : Word × Word} :
    w ∈ image ctx c ↔ ∃ k, k < 8 ∧ w.1 = member ctx k ∧ c.words[k]? = some w.2 := by
  unfold image
  rw [List.mem_mapIdx]
  constructor
  · rintro ⟨k, hk, rfl⟩
    exact ⟨k, hk, rfl, List.getElem?_eq_getElem hk⟩
  · rintro ⟨k, hk, haddress, hword⟩
    obtain ⟨hlt, hword⟩ := List.getElem?_eq_some_iff.mp hword
    exact ⟨k, hlt, Prod.ext haddress.symm hword⟩

/-- The members are apart. -/
theorem pairwise_image (ctx : Word) (c : JumpContext) : (image ctx c).Pairwise fun w w' => Apart w.1 w'.1 := by
  rw [List.pairwise_iff_getElem]
  intro i j hi hj hij
  have hlength : (image ctx c).length = 8 := by simp [image, words]
  rw [hlength] at hi hj
  simp only [image, List.getElem_mapIdx]
  exact apart_row (by omega) (by omega) (Nat.ne_of_lt hij)

/-- A word that is clear of the context. -/
theorem apart_image {ctx a : Word} {c : JumpContext} (h : Clear ctx a) : ∀ w ∈ image ctx c, Apart w.1 a := by
  intro w hw
  obtain ⟨k, hk, haddress, -⟩ := mem_image.mp hw
  rw [haddress]
  exact h k hk

/-- **`Capture` saves the context, and returns.** -/
theorem call_capture (r : Regs) (m : Memory) (back : Word) (h : Clear (r .rdi) (r .rsp - 8)) :
    call (r, m) back Capture = some
      (Function.update r .rax back, writes (m.store (r .rsp - 8) back) (image (r .rdi) (saved r back)), back) := by
  have hregs : Function.update (Function.update (Function.update r .rsp (r .rsp - 8)) .rax back) .rsp (r .rsp - 8 + 8) =
      Function.update r .rax back := by
    funext reg
    rw [BitVec.sub_add_cancel]
    cases reg <;> simp [Function.update]
  have hback : (writes (m.store (r .rsp - 8) back) (image (r .rdi) (saved r back))).load (r .rsp - 8) = back := by
    rw [load_writes_of_apart (apart_image h), Memory.load_store_self]
  have hrun : call (r, m) back Capture = some
      (Function.update (Function.update (Function.update r .rsp (r .rsp - 8)) .rax back) .rsp (r .rsp - 8 + 8),
        writes (m.store (r .rsp - 8) back) (image (r .rdi) (saved r back)),
        (writes (m.store (r .rsp - 8) back) (image (r .rdi) (saved r back))).load (r .rsp - 8)) := by
    simp [call, run, Capture, step, Instr.access, Instr.retire, Access.perform, Memory.load_store_self, writes, image,
      words, saved, member]
  rw [hrun, hregs, hback]

/-- The context is in the memory. -/
def Holds (m : Memory) (ctx : Word) (c : JumpContext) : Prop := ∀ k v, c.words[k]? = some v → m.load (member ctx k) = v

/-- A store clear of the context. -/
theorem Holds.store {m : Memory} {ctx a v : Word} {c : JumpContext} (h : Holds m ctx c) (ha : Clear ctx a) :
    Holds (m.store a v) ctx c := by
  intro k w hk
  have hlt : k < 8 := (List.getElem?_eq_some_iff.mp hk).1
  rw [Memory.load_store_of_apart m v (ha k hlt).symm]
  exact h k w hk

/-- The registers that `JumpTo` restores. -/
def restored (r : Regs) (c : JumpContext) : Regs
  | .rax => c.rip
  | .rbx => c.rbx
  | .rsp => c.rsp + 8
  | .rbp => c.rbp
  | .rsi => r .rsi
  | .rdi => r .rdi
  | .r12 => c.r12
  | .r13 => c.r13
  | .r14 => c.r14
  | .r15 => c.r15

/-- **`JumpTo` restores the context**, and goes where the word at its stack pointer says. -/
theorem call_jumpTo (r : Regs) (m : Memory) (back : Word) (c : JumpContext) (hc : Holds m (r .rdi) c)
    (h : Clear (r .rdi) (r .rsp - 8)) :
    call (r, m) back JumpTo = some
      (restored r c, (m.store (r .rsp - 8) back).store (r .rsp - 8) c.rip,
        ((m.store (r .rsp - 8) back).store (r .rsp - 8) c.rip).load c.rsp) := by
  have hpushed := hc.store (v := back) h
  have hstored := hpushed.store (v := c.rip) h
  have hrip := hpushed 0 _ rfl
  have hrbx := hstored 1 _ rfl
  have hrsp := hstored 2 _ rfl
  have hrbp := hstored 3 _ rfl
  have hr12 := hstored 4 _ rfl
  have hr13 := hstored 5 _ rfl
  have hr14 := hstored 6 _ rfl
  have hr15 := hstored 7 _ rfl
  simp only [member, Nat.mul_zero, Nat.reduceMul, BitVec.ofNat_eq_ofNat, BitVec.add_zero] at hrip hrbx hrsp hrbp
  simp only [member, Nat.reduceMul, BitVec.ofNat_eq_ofNat] at hr12 hr13 hr14 hr15
  have hregs : ∀ reg, (Function.update (Function.update (Function.update (Function.update (Function.update (Function.update
      (Function.update (Function.update (Function.update (Function.update r .rsp (r .rsp - 8)) .rax c.rip) .rbx c.rbx) .rsp
      c.rsp) .rbp c.rbp) .r12 c.r12) .r13 c.r13) .r14 c.r14) .r15 c.r15) .rsp (c.rsp + 8)) reg = restored r c reg := by
    intro reg
    cases reg <;> simp [Function.update, restored]
  simp [call, run, JumpTo, step, Instr.access, Instr.retire, Access.perform, hrip, hrbx, hrsp, hrbp, hr12, hr13, hr14, hr15]
  exact funext hregs

/-! ## All runs -/

/-- What has been captured is still there. -/
structure Inv (s : State) : Prop where
  holds : ∀ ctx c, s.captured ctx = some c → Holds s.memory ctx c
  aligned : ∀ ctx c, s.captured ctx = some c → Aligned c.rsp

theorem saved_rdi (r : Regs) (ctx back : Word) : saved (Function.update r .rdi ctx) back = saved r back := by
  simp [saved]

theorem update_rdi_rsp (r : Regs) (ctx : Word) : Function.update r .rdi ctx .rsp = r .rsp := by simp

/-- The program after `Capture`. -/
def State.afterCapture (s : State) (ctx back : Word) : State where
  regs := Function.update (Function.update s.regs .rdi ctx) .rax back
  memory := writes (s.memory.store s.slot back) (image ctx (saved s.regs back))
  rip := back
  captured := Function.update s.captured ctx (some (saved s.regs back))

theorem next_capture {s : State} {ctx back : Word} (hallowed : Allowed s (.capture ctx back)) :
    next s (.capture ctx back) = some (s.afterCapture ctx back) := by
  obtain ⟨-, hclear, -⟩ := hallowed
  have hcall := call_capture (Function.update s.regs .rdi ctx) s.memory back
    (by rw [Function.update_self, update_rdi_rsp]; exact hclear)
  simp only [next, hcall, Option.map_some]
  rw [saved_rdi, Function.update_self, update_rdi_rsp]
  rfl

/-- The program after `JumpTo`. -/
def State.afterJump (s : State) (ctx back : Word) (c : JumpContext) : State :=
  { s with
    regs := restored (Function.update s.regs .rdi ctx) c
    memory := (s.memory.store s.slot back).store s.slot c.rip
    rip := ((s.memory.store s.slot back).store s.slot c.rip).load c.rsp }

theorem next_jumpTo {s : State} {ctx back : Word} {c : JumpContext} (h : Inv s)
    (hallowed : Allowed s (.jumpTo ctx back)) (hc : s.captured ctx = some c) :
    next s (.jumpTo ctx back) = some (s.afterJump ctx back c) := by
  obtain ⟨-, -, hclear⟩ := hallowed
  have hcall := call_jumpTo (Function.update s.regs .rdi ctx) s.memory back c
    (by rw [Function.update_self]; exact h.holds ctx c hc)
    (by rw [Function.update_self, update_rdi_rsp]; exact hclear ctx c hc)
  simp only [next, hcall, Option.map_some]
  rw [update_rdi_rsp]
  rfl

/-- **Every step keeps the contexts.** -/
theorem Inv.next {s s' : State} {a : Action} (h : Inv s) (hallowed : Allowed s a) (hnext : next s a = some s') :
    Inv s' := by
  cases a with
  | code regs memory rip =>
      cases hnext
      refine ⟨?_, h.aligned⟩
      intro ctx c hc k v hk
      have hlt : k < 8 := (List.getElem?_eq_some_iff.mp hk).1
      exact (hallowed ctx c hc k hlt).trans (h.holds ctx c hc k v hk)
  | jumpTo ctx back =>
      have hallowed' := hallowed
      obtain ⟨-, hsome, hclear⟩ := hallowed'
      obtain ⟨c, hc⟩ := Option.ne_none_iff_exists'.mp hsome
      rw [next_jumpTo h hallowed hc] at hnext
      cases hnext
      refine ⟨?_, h.aligned⟩
      intro ctx' c' hc'
      exact ((h.holds ctx' c' hc').store (hclear ctx' c' hc')).store (hclear ctx' c' hc')
  | capture ctx back =>
      rw [next_capture hallowed] at hnext
      cases hnext
      obtain ⟨haligned, -, hothers⟩ := hallowed
      refine ⟨?_, ?_⟩
      · intro ctx' c' hc'
        change Function.update s.captured ctx _ ctx' = some c' at hc'
        by_cases hctx : ctx' = ctx
        · subst hctx
          rw [Function.update_self] at hc'
          cases hc'
          intro k v hk
          exact load_writes (w := (member ctx' k, v)) (pairwise_image ..)
            (mem_image.mpr ⟨k, (List.getElem?_eq_some_iff.mp hk).1, rfl, hk⟩)
        · rw [Function.update_of_ne hctx] at hc'
          obtain ⟨hslot, hmembers⟩ := hothers ctx' c' hc'
          intro k v hk
          have hlt : k < 8 := (List.getElem?_eq_some_iff.mp hk).1
          show (writes _ _).load (member ctx' k) = v
          rw [load_writes_of_apart, (h.holds ctx' c' hc').store hslot k v hk]
          intro w hw
          obtain ⟨j, hj, haddress, -⟩ := mem_image.mp hw
          rw [haddress]
          exact (hmembers hctx j hj k hlt).symm
      · intro ctx' c' hc'
        change Function.update s.captured ctx _ ctx' = some c' at hc'
        by_cases hctx : ctx' = ctx
        · subst hctx
          rw [Function.update_self] at hc'
          cases hc'
          exact haligned
        · rw [Function.update_of_ne hctx] at hc'
          exact h.aligned ctx' c' hc'

theorem reachable_inv {regs : Regs} {memory : Memory} {rip : Word} {s : State}
    (hs : (system regs memory rip).Reachable s) : Inv s := by
  refine hs.invariant ?_ ?_
  · rintro s rfl
    exact ⟨nofun, nofun⟩
  · rintro s s' h ⟨a, hallowed, hnext⟩
    exact h.next hallowed hnext

/-- The registers that a call keeps are those of the context, and the stack is as `Capture` left it. -/
structure Resumed (r : Regs) (c : JumpContext) : Prop where
  rbx : r .rbx = c.rbx
  rsp : r .rsp = c.rsp + 8
  rbp : r .rbp = c.rbp
  r12 : r .r12 = c.r12
  r13 : r .r13 = c.r13
  r14 : r .r14 = c.r14
  r15 : r .r15 = c.r15

/-- **`JumpTo` always restores the registers; it resumes the program where `Capture` returned, if and only if it is called
    with the stack pointer of that call, or the program has left the word at the top of that call's stack as it was.** -/
theorem jump_resumes (regs : Regs) (memory : Memory) (rip : Word) (s s' : State) (ctx back : Word) (c : JumpContext)
    (hs : (system regs memory rip).Reachable s) (hallowed : Allowed s (.jumpTo ctx back))
    (hnext : next s (.jumpTo ctx back) = some s') (hc : s.captured ctx = some c) :
    Resumed s'.regs c ∧ (s'.rip = c.rip ↔ s.slot = c.rsp ∨ s.memory.load c.rsp = c.rip) := by
  have h := reachable_inv hs
  rw [next_jumpTo h hallowed hc] at hnext
  cases hnext
  refine ⟨⟨rfl, rfl, rfl, rfl, rfl, rfl, rfl⟩, ?_⟩
  show ((s.memory.store s.slot back).store s.slot c.rip).load c.rsp = c.rip ↔ _
  by_cases hslot : s.slot = c.rsp
  · refine iff_of_true ?_ (.inl hslot)
    rw [hslot]
    exact Memory.load_store_self ..
  · have hapart := apart_of_aligned hallowed.1 (h.aligned ctx c hc) hslot
    rw [Memory.load_store_of_apart _ _ hapart, Memory.load_store_of_apart _ _ hapart]
    exact ⟨.inr, fun hor => hor.resolve_left hslot⟩

/-- A frame whose stack pointer is 4096. -/
def frame : State where
  regs := Function.update (fun _ => 0) .rsp 4096
  memory := fun _ => 0
  rip := 1

theorem clear_frame : Clear 8192 frame.slot := by
  intro k hk
  have haddress : Aligned (member 8192 k) ∧ member 8192 k ≠ frame.slot := by
    revert k
    decide
  exact apart_of_aligned haddress.1 (by decide) haddress.2

/-- A context is captured in the frame, other code runs, and `JumpTo` is called in the frame. -/
theorem jump_resumes_local : ∃ s' : State, Resumed s'.regs (saved frame.regs 2) ∧ s'.rip = 2 := by
  have hinit : (system frame.regs frame.memory frame.rip).Reachable frame := .of_init rfl
  have hcapture : Allowed frame (.capture 8192 2) := ⟨by decide, clear_frame, nofun⟩
  have hcaptured := hinit.step ⟨_, hcapture, next_capture hcapture⟩
  have hcode := hcaptured.step ⟨.code (Function.update frame.regs .rbx 5) _ 3, fun _ _ _ _ _ => rfl, rfl⟩
  have hallowed : Allowed { frame.afterCapture 8192 2 with regs := Function.update frame.regs .rbx 5, rip := 3 }
      (.jumpTo 8192 4) := by
    refine ⟨by decide, nofun, ?_⟩
    intro ctx c hc
    by_cases hctx : ctx = 8192
    · subst hctx
      exact clear_frame
    · have hnone : (frame.afterCapture 8192 2).captured ctx = none := Function.update_of_ne hctx ..
      rw [show (frame.afterCapture 8192 2).captured ctx = some c from hc] at hnone
      cases hnone
  have hnext := next_jumpTo (reachable_inv hcode) hallowed rfl
  obtain ⟨hresumed, hrip⟩ := jump_resumes _ _ _ _ _ 8192 4 _ hcode hallowed hnext rfl
  exact ⟨_, hresumed, hrip.mpr (.inl (by decide))⟩

end Jump
end Intro
end Tpcc
