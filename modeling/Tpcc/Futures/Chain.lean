import Tpcc.Futures.Machine

/-!
# `Futures.Chain` — synchronous chains fold their stages over the source result

A chain is built on a fresh contract by any number of `Via`s and of synchronous `Then` / `Recover` /
`Transform` stages, and ends in a `Subscribe`. One thread builds it while another fulfils the source
promise; the stages themselves run on either, or in the tasks of executors.

The futures of a chain are numbered by their places: the source is at place `0`, and stage `j` takes
the result of place `j` to place `j + 1`. `Chain.result` is what the stages mean; `callTransform_eq`
is the one lemma about the lambda of a stage: it fulfils its promise with that meaning.
-/

namespace Tpcc
namespace Futures

open Transition Futures.Machine

variable {V E X ι : Type}

/-! ## What the stages mean -/

/-- The result a call of user code ends in. -/
def ofOutcome (toError : X → E) : Except X V → Result V E
  | .ok v => .ok v
  | .error x => .fail (toError x)

/-- The meaning of a stage: `Then` applies to values and skips errors, `Recover` applies to errors and
    skips values, and a throw becomes an error. -/
def Stage.apply (toError : X → E) : Stage V E X → Result V E → Result V E
  | .then_ cont, .ok v => ofOutcome toError (cont v)
  | .then_ _, .fail e => .fail e
  | .recover _, .ok v => .ok v
  | .recover handler, .fail e => ofOutcome toError (handler e)
  | .transform f, r =>
      match f r with
      | .ok r' => r'
      | .error x => .fail (toError x)

/-- Whether a stage invokes its callable: `Then` on a value, `Recover` on an error. -/
def Stage.invokes : Stage V E X → Result V E → Bool
  | .then_ _, r => r.isOk
  | .recover _, r => !r.isOk
  | .transform _, _ => true

/-- A call on the future other than the last `Subscribe`. -/
inductive ChainOp (V E X ι : Type) where
  | via (e : Option ι)
  | stage (s : Stage V E X)

def ChainOp.toOp : ChainOp V E X ι → Op V E X ι
  | .via e => .via e
  | .stage s => .stage s

def stagesOf : List (ChainOp V E X ι) → List (Stage V E X)
  | [] => []
  | .via _ :: ops => stagesOf ops
  | .stage s :: ops => s :: stagesOf ops

theorem stagesOf_append (ops ops' : List (ChainOp V E X ι)) :
    stagesOf (ops ++ ops') = stagesOf ops ++ stagesOf ops' := by
  induction ops with
  | nil => rfl
  | cons op ops ih => cases op <;> simp [stagesOf, ih]

/-- A chain, the result its source promise is fulfilled with, and the callback subscribed at its end. -/
structure Chain (V E X ι : Type) where
  ops : List (ChainOp V E X ι)
  source : Result V E
  body : Result V E → Except X Unit

namespace Chain

def stages (c : Chain V E X ι) : List (Stage V E X) := stagesOf c.ops

/-- The chain is built on futures without an executor. -/
def Inline (c : Chain V E X ι) : Prop := ∀ e, ChainOp.via (some e) ∉ c.ops

/-- The number of stages, and the place of the last future. -/
def size (c : Chain V E X ι) : Nat := c.stages.length

/-- The result of folding the first `j` stages over the source. -/
def result (c : Chain V E X ι) (toError : X → E) (j : Nat) : Result V E :=
  (c.stages.take j).foldl (fun r s => s.apply toError r) c.source

/-- The result of folding all stages over the source. -/
def fold (c : Chain V E X ι) (toError : X → E) : Result V E :=
  c.stages.foldl (fun r s => s.apply toError r) c.source

theorem result_succ {c : Chain V E X ι} {j : Nat} {s : Stage V E X} (h : c.stages[j]? = some s)
    (toError : X → E) : c.result toError (j + 1) = s.apply toError (c.result toError j) := by
  simp [result, List.take_add_one, h]

theorem result_size (c : Chain V E X ι) (toError : X → E) :
    c.result toError c.size = c.fold toError := by
  simp [result, size, fold]

/-! ## The machine of a chain -/

/-- The calls of the building thread. -/
def program (c : Chain V E X ι) (ops : List (ChainOp V E X ι)) : List (Op V E X ι) :=
  ops.map ChainOp.toOp ++ [.subscribe c.body]

/-- A fresh contract, the thread that builds the chain on its future, and the thread that fulfils its
    promise. -/
def machine (c : Chain V E X ι) : Machine V E X ι where
  mem := { heap := [{}] }
  threads := [⟨none, [.build 0 (c.program c.ops)]⟩, ⟨none, [.set ⟨some 0⟩ c.source]⟩]

/-- All runs of the chain: of the two threads, and of the executors. -/
def system (W : Wheels V E X) (c : Chain V E X ι) : System (Machine V E X ι) :=
  Machine.system W c.machine

/-- The callback that ends up subscribed at place `j`. -/
def callback (c : Chain V E X ι) (j : Nat) : Callback V E X :=
  match c.stages[j]? with
  | some s => .transform s ⟨some (j + 1)⟩
  | none => .consumer c.body

/-- Whether the callable of stage `j` is invoked. -/
def invokes (c : Chain V E X ι) (toError : X → E) (j : Nat) : Bool :=
  match c.stages[j]? with
  | some s => s.invokes (c.result toError j)
  | none => false

/-- The promises of the stages among the first `n` whose callable is invoked. -/
def invokedUpTo (c : Chain V E X ι) (toError : X → E) (n : Nat) : List Promise :=
  ((List.range n).filter (c.invokes toError)).map fun j => ⟨some (j + 1)⟩

theorem invokedUpTo_succ (c : Chain V E X ι) (toError : X → E) (n : Nat) :
    c.invokedUpTo toError (n + 1) = c.invokedUpTo toError n ++
      if c.invokes toError n then [⟨some (n + 1)⟩] else [] := by
  simp only [invokedUpTo, List.range_succ, List.filter_append, List.map_append]
  cases h : c.invokes toError n <;> simp [List.filter, h]

end Chain

/-! ## A stage's lambda computes the stage's meaning -/

/-- The frames a stage's lambda leaves: it fulfils its promise, from inside the `try` block if with a
    value. -/
def stageFrames (p : Promise) (r : Result V E) : List (Frame V E X ι) :=
  .set p r :: if r.isOk then [.catchSetError ⟨none⟩] else []

/-- The number of `try` blocks this opens. -/
def openTries (r : Result V E) : Nat := if r.isOk then 1 else 0

theorem openTries_le (r : Result V E) : openTries r ≤ 1 := by
  unfold openTries
  split <;> omega

theorem coe_stageFrames (p : Promise) (r : Result V E) :
    ((stageFrames p r : List (Frame V E X ι)) : Multiset (Frame V E X ι)) =
      {.set p r} + Multiset.replicate (openTries r) (Frame.catchSetError ⟨none⟩) := by
  unfold stageFrames openTries
  cases r.isOk <;> rfl

theorem stageFrames_append (p : Promise) (r : Result V E) (q : Nat) :
    stageFrames p r ++ List.replicate q (Frame.catchSetError ⟨none⟩) =
      (.set p r :: List.replicate (q + openTries r) (.catchSetError ⟨none⟩) : List (Frame V E X ι)) := by
  unfold stageFrames openTries
  cases r.isOk <;> rfl

/-- The transformer invokes the callable as it should, and either throws or returns the meaning of the
    stage. -/
theorem transformer_spec {W : Wheels V E X} (hW : W.Documented) (s : Stage V E X) (r : Result V E) :
    (s.transformer W r).1 = s.invokes r ∧
      ((s.transformer W r).2 = .ok (s.apply W.toError r) ∨
        ∃ x, (s.transformer W r).2 = .error x ∧ s.apply W.toError r = .fail (W.toError x)) := by
  cases s with
  | then_ cont =>
      cases r with
      | ok v =>
          refine ⟨rfl, .inl ?_⟩
          simp only [Stage.transformer, Stage.apply]
          cases cont v with
          | ok u => rw [hW.invoke_return]; rfl
          | error x => rw [hW.invoke_throw]; rfl
      | fail e =>
          refine ⟨rfl, .inl ?_⟩
          simp only [Stage.transformer, Stage.apply]
          rw [hW.propagateError_fail]
  | recover handler =>
      cases r with
      | ok v => exact ⟨rfl, .inl rfl⟩
      | fail e =>
          refine ⟨rfl, .inl ?_⟩
          simp only [Stage.transformer, Stage.apply]
          cases handler e with
          | ok u => rw [hW.invoke_return]; rfl
          | error x => rw [hW.invoke_throw]; rfl
  | transform f =>
      refine ⟨rfl, ?_⟩
      simp only [Stage.transformer, Stage.apply]
      cases f r with
      | ok r' => exact .inl rfl
      | error x => exact .inr ⟨x, rfl, rfl⟩

theorem callTransform_eq {W : Wheels V E X} (hW : W.Documented) (m : Memory V E X ι)
    (s : Stage V E X) (p : Promise) (r : Result V E) (on : Option ι) :
    callTransform W m s p r on =
      (m.logInvoked (s.invokes r) p on, none, stageFrames p (s.apply W.toError r)) := by
  obtain ⟨hinvokes, hok | ⟨x, hx, happly⟩⟩ := transformer_spec hW s r
  · simp only [callTransform, hinvokes, hok]
    cases s.apply W.toError r with
    | ok v => simp only [hW.unwrap_ok]; rfl
    | fail e =>
        -- a failed result leaves through the exception of the implicit conversion
        obtain ⟨x, hx, he⟩ := hW.unwrap_fail e
        simp only [hx, he]; rfl
  · simp only [callTransform, hinvokes, hx, happly]; rfl

end Futures
end Tpcc
