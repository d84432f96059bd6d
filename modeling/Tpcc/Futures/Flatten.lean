import Tpcc.Futures.Rendezvous

/-!
# `Futures.Flatten` — asynchronous `Then` and `Transform`

One asynchronous stage between a source future and a subscriber. The stage's callable returns the future
of a second contract, which another thread fulfils whenever it likes. So there are three shared states:
the source, the inner one, and the output that the stage allocates; one thread builds, one fulfils the
source, one the inner promise, and executors may run any of the callbacks.

The lambda subscribed to the inner future passes its result to `SetValue`, so a failed one throws where
nothing handles it, and the output promise dies with the lambda; `Then` itself makes such a future, out
of a failed source or an exception of the continuation. And if the inner future is there when the stage's lambda
subscribes to it, the output's subscriber runs inside the `try` block of that lambda, whose promise has been moved
away. `flattens_iff` says what is left.
-/

namespace Tpcc
namespace Futures

open Transition Futures.Machine

variable {V E X ι : Type}

/-- The user's callable, by its outcomes: returning means returning the inner future. -/
inductive AsyncCallable (V E X : Type) where
  | then_ (cont : V → Except X Unit)
  | transform (transformer : Result V E → Except X Unit)

namespace Flatten

/-- The places of the three shared states. -/
abbrev sourceLoc : Loc := 0
abbrev innerLoc : Loc := 1
abbrev outputLoc : Loc := 2

end Flatten

open Flatten

namespace AsyncCallable

/-- The stage it makes. -/
def stage : AsyncCallable V E X → AsyncStage V E X
  | .then_ cont => .then_ fun v => (cont v).map fun _ => innerLoc
  | .transform f => .transform fun r => (f r).map fun _ => innerLoc

/-- The outcome of the callable on a source result; `none`: it is not invoked. -/
def outcome : AsyncCallable V E X → Result V E → Option (Except X Unit)
  | .then_ cont, .ok v => some (cont v)
  | .then_ _, .fail _ => none
  | .transform f, r => some (f r)

end AsyncCallable

/-- The callable, the results of the source and of the inner future, and the callback that is subscribed to the
    output, by its outcomes. -/
structure Flatten (V E X : Type) where
  callable : AsyncCallable V E X
  source : Result V E
  inner : Result V E
  consumer : Result V E → Except X Unit

namespace Flatten

/-- What the output future should be fulfilled with. -/
def expected (F : Flatten V E X) (toError : X → E) : Result V E :=
  match F.callable.outcome F.source with
  | none => F.source
  | some (.error x) => .fail (toError x)
  | some (.ok ()) => F.inner

/-- How often the callable should be invoked. -/
def invocations (F : Flatten V E X) : Nat :=
  match F.callable.outcome F.source with
  | none => 0
  | some _ => 1

/-- The contracts of the source and the inner future, with the executors these were given; the threads
    that build the stage, fulfil the source, and fulfil the inner promise. -/
def machine (F : Flatten V E X) (sourceVia innerVia : Option ι) : Machine V E X ι where
  mem := { heap := [{ executor := sourceVia }, { executor := innerVia }] }
  threads :=
    [⟨none, [.build sourceLoc [.asyncStage F.callable.stage, .subscribe F.consumer]]⟩,
      ⟨none, [.set ⟨some sourceLoc⟩ F.source]⟩,
      ⟨none, [.set ⟨some innerLoc⟩ F.inner]⟩]

def system (W : Wheels V E X) (F : Flatten V E X) (sourceVia innerVia : Option ι) :
    System (Machine V E X ι) :=
  Machine.system W (F.machine sourceVia innerVia)

/-- **Flattening.** In every run: no check fails, and in particular no released promise is set; the output
    is fulfilled at most once, and with nothing but the expected result; the callable is invoked at most
    as often as it should be. No run goes on forever, and where it ends the output has been fulfilled and
    passed to its subscriber. -/
def Flattens (ι : Type) (W : Wheels V E X) (F : Flatten V E X) : Prop :=
  ∀ (sourceVia innerVia : Option ι) m, (F.system W sourceVia innerVia).Reachable m →
    m.violated = none ∧
    m.mem.setsAt outputLoc <+: [F.expected W.toError] ∧
    m.mem.invocations ⟨some outputLoc⟩ ≤ F.invocations ∧
    (F.system W sourceVia innerVia).Terminates m ∧
    ((F.system W sourceVia innerVia).Quiescent m →
      m.mem.setsAt outputLoc = [F.expected W.toError] ∧
      m.mem.consumed = [F.expected W.toError] ∧
      m.mem.invocations ⟨some outputLoc⟩ = F.invocations)

/-! ## The runs that work -/

/-- The callable returns the inner future. -/
def returns (F : Flatten V E X) : Bool :=
  match F.callable.outcome F.source with
  | some (.ok ()) => true
  | _ => false

/-- A `Transform` whose transformer throws never gets to an inner future. Otherwise the future that the
    stage subscribes to must be the user's, and end with a value, on which the output's subscriber does not throw. -/
def works (F : Flatten V E X) : Bool :=
  match F.callable, F.callable.outcome F.source with
  | .transform _, some (.error _) => true
  | _, some (.ok ()) => F.inner.isOk && (F.consumer F.inner).isOk
  | _, _ => false

/-- The callback subscribed at each place. -/
def callback (F : Flatten V E X) : Loc → Callback V E X
  | 0 => .asyncTransform F.callable.stage ⟨some outputLoc⟩
  | 1 => .forward ⟨some outputLoc⟩
  | _ => .consumer F.consumer

/-- The result set at each place. -/
def result (F : Flatten V E X) (toError : X → E) : Loc → Result V E
  | 0 => F.source
  | 1 => F.inner
  | _ => F.expected toError

/-- The frames the stage's lambda leaves: it subscribes to the inner future from inside its `try` block,
    or fulfils the output with what the transformer threw. -/
def lambdaFrames (F : Flatten V E X) (toError : X → E) : List (Frame V E X ι) :=
  if F.returns then [.subscribe innerLoc (F.callback innerLoc), .catchSetError ⟨none⟩]
  else [.set ⟨some outputLoc⟩ (F.result toError outputLoc)]

theorem outcome_of_returns {F : Flatten V E X} (h : F.returns = true) :
    F.callable.outcome F.source = some (.ok ()) := by
  unfold returns at h
  split at h
  · assumption
  · cases h

/-- The stage's lambda, by what the callable does. -/
theorem callAsyncTransform_cases (W : Wheels V E X) (F : Flatten V E X) :
    (F.returns = true ∧ ∀ (m : Memory V E X ι) on,
      callAsyncTransform W m F.callable.stage ⟨some outputLoc⟩ F.source on =
        (m.logInvoked true ⟨some outputLoc⟩ on, none,
          [.subscribe innerLoc (.forward ⟨some outputLoc⟩), .catchSetError ⟨none⟩])) ∨
    (F.works = true ∧ F.returns = false ∧ ∀ (m : Memory V E X ι) on,
      callAsyncTransform W m F.callable.stage ⟨some outputLoc⟩ F.source on =
        (m.logInvoked true ⟨some outputLoc⟩ on, none,
          [.set ⟨some outputLoc⟩ (F.expected W.toError)])) ∨
    (F.works = false ∧ ∃ invoked e, ∀ (m : Memory V E X ι) on,
      callAsyncTransform W m F.callable.stage ⟨some outputLoc⟩ F.source on =
        ((m.logInvoked invoked ⟨some outputLoc⟩ on).allocFailed e, none,
          [.subscribe m.heap.length (.forward ⟨some outputLoc⟩), .catchSetError ⟨none⟩])) := by
  obtain ⟨callable, source, inner, consumer⟩ := F
  cases callable with
  | then_ cont =>
      cases source with
      | fail e => exact .inr (.inr ⟨rfl, false, e, fun _ _ => rfl⟩)
      | ok v =>
          cases hcont : cont v with
          | ok u =>
              refine .inl ⟨by simp only [returns, AsyncCallable.outcome, hcont], fun m on => ?_⟩
              simp only [callAsyncTransform, AsyncCallable.stage, AsyncStage.transformer, hcont, Except.map]
          | error x =>
              refine .inr (.inr ⟨?_, true, W.toError x, fun m on => ?_⟩)
              · simp only [works, AsyncCallable.outcome, hcont]
              · simp only [callAsyncTransform, AsyncCallable.stage, AsyncStage.transformer, hcont,
                  Except.map]
                rfl
  | transform f =>
      cases hf : f source with
      | ok u =>
          refine .inl ⟨by simp only [returns, AsyncCallable.outcome, hf], fun m on => ?_⟩
          simp only [callAsyncTransform, AsyncCallable.stage, AsyncStage.transformer, hf, Except.map]
      | error x =>
          refine .inr (.inl ⟨?_, ?_, fun m on => ?_⟩)
          · simp only [works, AsyncCallable.outcome, hf]
          · simp only [returns, AsyncCallable.outcome, hf]
          · simp only [callAsyncTransform, AsyncCallable.stage, AsyncStage.transformer, hf, Except.map,
              expected, AsyncCallable.outcome]

theorem callAsyncTransform_eq {W : Wheels V E X} {F : Flatten V E X} (hworks : F.works = true)
    (m : Memory V E X ι) (on : Option ι) :
    callAsyncTransform W m F.callable.stage ⟨some outputLoc⟩ F.source on =
      (m.logInvoked true ⟨some outputLoc⟩ on, none, F.lambdaFrames W.toError) := by
  rcases callAsyncTransform_cases W F with ⟨hret, hcall⟩ | ⟨-, hret, hcall⟩ | ⟨hfails, -⟩
  · rw [hcall, lambdaFrames, if_pos hret]
    rfl
  · rw [hcall, lambdaFrames, hret]
    rfl
  · rw [hworks] at hfails
    cases hfails

theorem works_of_returns {F : Flatten V E X} (hret : F.returns = true) :
    F.works = (F.inner.isOk && (F.consumer F.inner).isOk) := by
  have hout := outcome_of_returns hret
  unfold works
  rw [hout]
  split
  · next h => cases h
  · rfl
  · next h _ => exact absurd rfl h

/-- If the inner future is subscribed to, it has a value, that is what the output should get, and its subscriber
    does not throw. -/
theorem inner_of_returns {F : Flatten V E X} (hworks : F.works = true) (hret : F.returns = true)
    (toError : X → E) : ∃ v, F.inner = .ok v ∧ F.expected toError = .ok v ∧ F.consumer (.ok v) = .ok () := by
  have hout := outcome_of_returns hret
  rw [works_of_returns hret, Bool.and_eq_true] at hworks
  cases hinner : F.inner with
  | ok v =>
      refine ⟨v, rfl, by simp only [expected, hout, hinner], ?_⟩
      have hconsumer := hworks.2
      rw [hinner] at hconsumer
      cases hbody : F.consumer (.ok v) with
      | ok u => rfl
      | error x =>
          rw [hbody] at hconsumer
          cases hconsumer
  | fail e =>
      rw [hinner] at hworks
      cases hworks.1

theorem invocations_of_works {F : Flatten V E X} (hworks : F.works = true) : F.invocations = 1 := by
  unfold works at hworks
  unfold invocations
  split at hworks
  · next h => rw [h]
  · next h => rw [h]
  · cases hworks

end Flatten
end Futures
end Tpcc
