import Tpcc.Support.Wheels

/-!
# `Futures.SharedState` — the state shared by a promise and its future

The data of `detail::SharedState` and its methods run without interference, each written as the code
computes it. A method that fails a `WHEELS_VERIFY`, or reads an optional that holds nothing, ends in a
`Violation`. `OneShot` runs the same methods one atomic operation at a time; `Machine` runs each of
them as one step.

`SharedState::Execute` needs the caller's thread and the executors, so the two methods that call it
return what they hand to it (`Handover`).
-/

namespace Tpcc
namespace Futures

/-- `detail::SubscriptionState`. -/
inductive SubscriptionState where
  | start
  | onlyResult
  | onlyCallback
  | done
  deriving DecidableEq

/-- The checks the futures can fail. -/
inductive Violation where
  /-- `SetResult`: "Expected OnlyCallback". -/
  | expectedOnlyCallback
  /-- `PassCallback`: "Expected OnlyResult". -/
  | expectedOnlyResult
  /-- `HoldState::CheckState`: "No shared state or shared state released". -/
  | noSharedState
  /-- `callback_.value()` or `*result_` on an empty optional. -/
  | emptyOptional
  /-- A result that has been moved out before. -/
  | movedFrom
  /-- `results_[counter_]` past the end of the vector. -/
  | outOfBounds
  deriving DecidableEq

/-- `std::optional` of something that gets moved out: after the move it still holds a (moved-from)
    value. -/
inductive Slot (α : Type) where
  | empty
  | full (a : α)
  | moved
  deriving DecidableEq

/-- `detail::SharedState`, over the types of callbacks `κ`, results `ρ` and executors `ι`. -/
structure SharedState (κ ρ ι : Type) where
  state : SubscriptionState := .start
  callback : Option κ := none
  result : Slot ρ := .empty
  executor : Option ι := none
  deriving DecidableEq

/-- The arguments of one call of `SharedState::Execute`, with the executor it finds. -/
structure Handover (κ ρ ι : Type) where
  callback : κ
  result : ρ
  executor : Option ι
  deriving DecidableEq

/-- A call in `Except` that returned. -/
theorem Except.exists_of_map {ε α β : Type} {x : Except ε α} {f : α → β} {b : β}
    (h : x.map f = .ok b) : ∃ a, x = .ok a ∧ f a = b := by
  cases x with
  | error e => cases h
  | ok a => exact ⟨a, rfl, Except.ok.inj h⟩

namespace SharedState

variable {κ ρ ι : Type}

/-- `HasResult`. -/
def hasResult (s : SharedState κ ρ ι) : Bool := s.state == .onlyResult

/-- `GetReadyResult`: store `Done`, then move the result out. -/
def getReadyResult (s : SharedState κ ρ ι) : Except Violation (ρ × SharedState κ ρ ι) :=
  match s.result with
  | .full r => .ok (r, { s with state := .done, result := .moved })
  | .empty => .error .emptyOptional
  | .moved => .error .movedFrom

/-- `Execute(std::move(callback_.value()), std::move(GetReadyResult()))`, up to the call of `Execute`. -/
def handOver (s : SharedState κ ρ ι) :
    Except Violation (SharedState κ ρ ι × Option (Handover κ ρ ι)) :=
  match s.callback with
  | none => .error .emptyOptional
  | some cb => s.getReadyResult.map fun (r, s') => (s', some ⟨cb, r, s.executor⟩)

/-- `SetResult`. -/
def setResult (s : SharedState κ ρ ι) (r : ρ) :
    Except Violation (SharedState κ ρ ι × Option (Handover κ ρ ι)) :=
  let s := { s with result := .full r }
  match s.state with
  | .start => .ok ({ s with state := .onlyResult }, none)
  | .onlyCallback => s.handOver
  | _ => .error .expectedOnlyCallback

/-- `PassCallback`. -/
def passCallback (s : SharedState κ ρ ι) (cb : κ) :
    Except Violation (SharedState κ ρ ι × Option (Handover κ ρ ι)) :=
  let s := { s with callback := some cb }
  match s.state with
  | .start => .ok ({ s with state := .onlyCallback }, none)
  | .onlyResult => s.handOver
  | _ => .error .expectedOnlyResult

/-- `Future::Subscribe` after `ReleaseState`. -/
def subscribe (s : SharedState κ ρ ι) (cb : κ) :
    Except Violation (SharedState κ ρ ι × Option (Handover κ ρ ι)) :=
  if s.hasResult then
    s.getReadyResult.map fun (r, s') => (s', some ⟨cb, r, s.executor⟩)
  else
    s.passCallback cb

/-- `SetExecutor`. -/
def setExecutor (s : SharedState κ ρ ι) (e : Option ι) : SharedState κ ρ ι := { s with executor := e }

/-! ## What the methods do, by the state they find -/

theorem setResult_start {s : SharedState κ ρ ι} (h : s.state = .start) (r : ρ) :
    s.setResult r = .ok ({ s with state := .onlyResult, result := .full r }, none) := by
  simp [setResult, h]

theorem setResult_onlyCallback {s : SharedState κ ρ ι} {cb : κ} (h : s.state = .onlyCallback)
    (hcb : s.callback = some cb) (r : ρ) :
    s.setResult r
      = .ok ({ s with state := .done, result := .moved }, some ⟨cb, r, s.executor⟩) := by
  simp [setResult, h, handOver, hcb, getReadyResult, Except.map]

theorem subscribe_start {s : SharedState κ ρ ι} (h : s.state = .start) (cb : κ) :
    s.subscribe cb = .ok ({ s with state := .onlyCallback, callback := some cb }, none) := by
  simp [subscribe, hasResult, passCallback, h]

theorem subscribe_onlyResult {s : SharedState κ ρ ι} {r : ρ} (h : s.state = .onlyResult)
    (hr : s.result = .full r) (cb : κ) :
    s.subscribe cb
      = .ok ({ s with state := .done, result := .moved }, some ⟨cb, r, s.executor⟩) := by
  simp [subscribe, hasResult, h, getReadyResult, hr, Except.map]

end SharedState

/-- The three ways to fulfil a promise. -/
inductive Fulfilment (V E : Type) where
  | setValue (v : V)
  | setError (e : E)
  | set (r : Result V E)

/-- The result `SetValue`, `SetError` and `Set` pass to `SetResult`. -/
def Fulfilment.result {V E : Type} : Fulfilment V E → Result V E
  | .setValue v => .ok v
  | .setError e => .fail e
  | .set r => r

end Futures
end Tpcc
