import Tpcc.Machine.Memory

/-!
# `Machine.X86` — a few instructions

Moves between registers, loads and stores of words, the exchange with its implied lock, and `ret`. An instruction
says what it wants of the memory (`access`) and, once it has the word it loads, what it does to the registers
(`retire`); so one set of instructions runs over any memory. `run` and `call` run them over bytes, one thread alone. Nothing here
names a program.
-/

namespace Tpcc
namespace Machine

inductive Reg where
  | rax
  | rbx
  | rsp
  | rbp
  | rsi
  | rdi
  | r12
  | r13
  | r14
  | r15
  deriving DecidableEq

abbrev Regs : Type := Reg → Word

/-- Instructions, operands in the order of the assembler: source first. -/
inductive Instr where
  /-- `movq %src, %dst`. -/
  | mov (src dst : Reg)
  /-- `movq disp(%base), %dst`. -/
  | load (disp : Word) (base dst : Reg)
  /-- `movq %src, disp(%base)`. -/
  | store (src : Reg) (disp : Word) (base : Reg)
  /-- `xchgq (%base), %reg`. -/
  | xchg (base reg : Reg)
  | ret
  deriving DecidableEq

/-- What an instruction wants of the memory. -/
inductive Access where
  | none
  | load (a : Word)
  | store (a v : Word)
  /-- A load and a store with nothing between them. -/
  | xchg (a v : Word)

namespace Instr

def access (r : Regs) : Instr → Access
  | .mov _ _ => .none
  | .load disp base _ => .load (r base + disp)
  | .store src disp base => .store (r base + disp) (r src)
  | .xchg base reg => .xchg (r base) (r reg)
  | .ret => .load (r .rsp)

/-- The registers once `v` is loaded. -/
def retire (r : Regs) (v : Word) : Instr → Regs
  | .mov src dst => Function.update r dst (r src)
  | .load _ _ dst => Function.update r dst v
  | .store _ _ _ => r
  | .xchg _ reg => Function.update r reg v
  | .ret => Function.update r .rsp (r .rsp + 8)

end Instr

/-- The memory after the access, and the word it loads, if it does. -/
def Access.perform (m : Memory) : Access → Memory × Word
  | .none => (m, 0)
  | .load a => (m, m.load a)
  | .store a v => (m.store a v, 0)
  | .xchg a v => (m.store a v, m.load a)

/-- One instruction. -/
def step (p : Regs × Memory) (i : Instr) : Regs × Memory :=
  (i.retire p.1 ((i.access p.1).perform p.2).2, ((i.access p.1).perform p.2).1)

/-- The instructions up to a `ret`: the registers and the memory then, and the address it goes back to. -/
def run (p : Regs × Memory) : List Instr → Option (Regs × Memory × Word)
  | [] => none
  | .ret :: _ => some (Instr.retire p.1 0 .ret, p.2, p.2.load (p.1 .rsp))
  | i :: code => run (step p i) code

/-- The code is called: `back` is on the stack. -/
def call (p : Regs × Memory) (back : Word) (code : List Instr) : Option (Regs × Memory × Word) :=
  run (Function.update p.1 .rsp (p.1 .rsp - 8), p.2.store (p.1 .rsp - 8) back) code

end Machine
end Tpcc
