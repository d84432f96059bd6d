import Mathlib.Logic.Basic

/-!
# `Support.Wheels` — the third-party `wheels` types the futures are written against

`wheels` is not part of the repository. What the futures use of it is the result type, and four
operations on it that are taken as a parameter (`Wheels`). The properties the code relies on are the
named fields of `Wheels.Documented`, and every theorem that needs them says so.

Stage functions and transformers are user code: a call of one is modelled by its outcome, an
`Except X _` that either returns or throws an exception `x : X`.
-/

namespace Tpcc

/-- `wheels::Result<T>`: a value or a `wheels::Error`. -/
inductive Result (V E : Type) where
  | ok (v : V)
  | fail (e : E)
  deriving DecidableEq

/-- `Result::IsOk`. -/
def Result.isOk {V E : Type} : Result V E → Bool
  | .ok _ => true
  | .fail _ => false

/-- The operations of `wheels` that the futures call. `X` is the type of C++ exceptions
    (`std::exception_ptr`). -/
structure Wheels (V E X : Type) where
  /-- The implicit conversion of a `Result<T>` to `T`, which may throw. -/
  unwrap : Result V E → Except X V
  /-- The implicit conversion of a `std::exception_ptr` to `wheels::Error`. -/
  toError : X → E
  /-- `make_result::PropagateError`. -/
  propagateError : Result V E → Result V E
  /-- `make_result::Invoke`, as a function of the outcome of the one call it makes. -/
  invoke : Except X V → Result V E

/-- What the futures rely on. -/
structure Wheels.Documented {V E X : Type} (W : Wheels V E X) : Prop where
  unwrap_ok : ∀ v, W.unwrap (.ok v) = .ok v
  unwrap_fail : ∀ e, ∃ x, W.unwrap (.fail e) = .error x ∧ W.toError x = e
  propagateError_fail : ∀ e, W.propagateError (.fail e) = .fail e
  invoke_return : ∀ v, W.invoke (.ok v) = .ok v
  invoke_throw : ∀ x, W.invoke (.error x) = .fail (W.toError x)

namespace Wheels

/-- The library with `wheels::Error` a wrapped `std::exception_ptr`. -/
def exceptionPtr (V X : Type) : Wheels V X X where
  unwrap
    | .ok v => .ok v
    | .fail x => .error x
  toError := id
  propagateError := id
  invoke
    | .ok v => .ok v
    | .error x => .fail x

theorem exceptionPtr_documented (V X : Type) : (exceptionPtr V X).Documented where
  unwrap_ok _ := rfl
  unwrap_fail e := ⟨e, rfl, rfl⟩
  propagateError_fail _ := rfl
  invoke_return _ := rfl
  invoke_throw _ := rfl

end Wheels
end Tpcc
