import Mathlib.Data.List.Perm.Basic
import Mathlib.Algebra.Order.Group.Multiset
import Mathlib.Tactic.Abel
import Tpcc.Transition.System
import Tpcc.Futures.SharedState

/-!
# `Futures.Machine` — threads that run futures code over a heap of shared states

The futures call one another's callbacks: fulfilling a promise runs the callback subscribed to it on
the same thread, that callback fulfils the next promise, and so on down the chain, with the `try`
blocks of the callbacks on the way left open on the stack. The machine makes this explicit:

* the **heap** is a list of `SharedState`s; a `Promise` is a reference into it, or holds none;
* a **callback** is the lambda it is in the source, as data (`Callback`);
* a **thread** is a stack of `Frame`s, one for each call in progress, and possibly an exception in
  flight;
* the **executors** hold the tasks submitted to them; any of these may be started at any time, on a
  thread of its own.

One step runs the top frame of one thread: one call of `SetResult` or `Subscribe` (each takes effect
atomically, `OneShot`), or the code between two such calls. A value type per stage of a chain is not
needed to follow the control flow: all futures carry a `Result V E`.
-/

namespace Tpcc
namespace Futures

open Transition

/-- The place of a `SharedState` in the heap. -/
abbrev Loc := Nat

/-- `Promise<T>`: its `state_`, which holds nothing once it is released or moved away. -/
structure Promise where
  state : Option Loc
  deriving DecidableEq

/-- The callables a synchronous stage is built from, by their outcomes. -/
inductive Stage (V E X : Type) where
  | then_ (cont : V → Except X V)
  | recover (handler : E → Except X V)
  | transform (transformer : Result V E → Except X (Result V E))

/-- The callables an asynchronous stage is built from; the future they return is given by the place of
    its shared state. -/
inductive AsyncStage (V E X : Type) where
  | then_ (cont : V → Except X Loc)
  | transform (transformer : Result V E → Except X Loc)

/-- The lambdas that get subscribed. -/
inductive Callback (V E X : Type) where
  /-- `Transform(Transformer)`: captures `t_promise` and the transformer. -/
  | transform (stage : Stage V E X) (t_promise : Promise)
  /-- `Transform(AsyncTransformer)`: captures `t_promise` and the transformer. -/
  | asyncTransform (stage : AsyncStage V E X) (t_promise : Promise)
  /-- The lambda the previous one subscribes to the inner future: captures `t_promise`. -/
  | forward (t_promise : Promise)
  /-- A callback of the user, by its outcomes. -/
  | consumer (body : Result V E → Except X Unit)

/-- One call on the future a thread is building a chain on. -/
inductive Op (V E X ι : Type) where
  | via (e : Option ι)
  | stage (s : Stage V E X)
  | asyncStage (s : AsyncStage V E X)
  | subscribe (body : Result V E → Except X Unit)

/-- A call in progress. -/
inductive Frame (V E X ι : Type) where
  /-- The calls left on the future at `l`. -/
  | build (l : Loc) (ops : List (Op V E X ι))
  /-- `std::move(p).SetValue / SetError / Set`. -/
  | set (p : Promise) (r : Result V E)
  /-- `std::move(f).Subscribe(cb)`, `f` the future at `l`. -/
  | subscribe (l : Loc) (cb : Callback V E X)
  /-- `callback(std::move(result))`; `on` is the executor whose task makes the call, if any. -/
  | call (cb : Callback V E X) (r : Result V E) (on : Option ι)
  /-- `catch (...) { std::move(t_promise).SetError(std::current_exception()); }`. -/
  | catchSetError (t_promise : Promise)

structure Thread (V E X ι : Type) where
  raised : Option X := none
  stack : List (Frame V E X ι)

/-- What the threads share. `pending` are the tasks submitted and not started. The last three fields
    record what happened: the stages whose callable was invoked (by the place of their promise), the
    results the user's callback got, and the calls of `SetResult`. -/
structure Memory (V E X ι : Type) where
  heap : List (SharedState (Callback V E X) (Result V E) ι) := []
  pending : List (ι × Callback V E X × Result V E) := []
  invoked : List (Promise × Option ι) := []
  consumed : List (Result V E) := []
  sets : List (Loc × Result V E) := []

structure Machine (V E X ι : Type) where
  mem : Memory V E X ι
  threads : List (Thread V E X ι)
  violated : Option Violation := none

variable {V E X ι : Type}

/-! ## Stages -/

/-- The `Transformer` that `Then` and `Recover` build from their callable: whether it invokes the
    callable, and what it returns or throws. -/
def Stage.transformer (W : Wheels V E X) :
    Stage V E X → Result V E → Bool × Except X (Result V E)
  | .then_ cont, .ok v => (true, .ok (W.invoke (cont v)))
  | .then_ _, .fail e => (false, .ok (W.propagateError (.fail e)))
  | .recover _, .ok v => (false, .ok (.ok v))
  | .recover handler, .fail e => (true, .ok (W.invoke (handler e)))
  | .transform f, r => (true, f r)

/-- The future an `AsyncTransformer` returns: one that exists, or a fresh `Future<U>::Failed(e)`. -/
inductive AsyncOutcome (E : Type) where
  | future (l : Loc)
  | failed (e : E)

/-- The `AsyncTransformer` that `Then` builds from its continuation. -/
def AsyncStage.transformer (W : Wheels V E X) :
    AsyncStage V E X → Result V E → Bool × Except X (AsyncOutcome E)
  | .then_ _, .fail e => (false, .ok (.failed e))
  | .then_ cont, .ok v =>
      match cont v with
      | .ok l => (true, .ok (.future l))
      | .error x => (true, .ok (.failed (W.toError x)))
  | .transform f, r => (true, (f r).map .future)

/-! ## One step of a thread -/

namespace Memory

/-- Put the new state of `l` back, and run `Execute` on what it hands over: call the callback next, or
    submit a task. -/
def commit (m : Memory V E X ι) (l : Loc) :
    SharedState (Callback V E X) (Result V E) ι × Option (Handover (Callback V E X) (Result V E) ι) →
      Memory V E X ι × List (Frame V E X ι)
  | (c, none) => ({ m with heap := m.heap.set l c }, [])
  | (c, some ⟨cb, r, none⟩) => ({ m with heap := m.heap.set l c }, [.call cb r none])
  | (c, some ⟨cb, r, some e⟩) =>
      ({ m with heap := m.heap.set l c, pending := m.pending ++ [(e, cb, r)] }, [])

/-- `SetResult` on the state at `l`. -/
def setResult (m : Memory V E X ι) (l : Loc) (r : Result V E) :
    Except Violation (Memory V E X ι × List (Frame V E X ι)) :=
  match m.heap[l]? with
  | none => .error .noSharedState
  | some c => (c.setResult r).map ({ m with sets := m.sets ++ [(l, r)] }.commit l)

/-- `Subscribe` on the state at `l`. -/
def subscribe (m : Memory V E X ι) (l : Loc) (cb : Callback V E X) :
    Except Violation (Memory V E X ι × List (Frame V E X ι)) :=
  match m.heap[l]? with
  | none => .error .noSharedState
  | some c => (c.subscribe cb).map (m.commit l)

/-- `state_->GetExecutor()` of the future at `l`. -/
def executorAt (m : Memory V E X ι) (l : Loc) : Option ι := m.heap[l]?.bind (·.executor)

/-- `Promise<U> t_promise; t_promise.MakeFuture().Via(executor)`. -/
def alloc (m : Memory V E X ι) (executor : Option ι) : Memory V E X ι :=
  { m with heap := m.heap ++ [{ executor }] }

/-- `Future<U>::Failed(e)`: a fresh state with the error set. -/
def allocFailed (m : Memory V E X ι) (e : E) : Memory V E X ι :=
  { m with heap := m.heap ++ [{ state := .onlyResult, result := .full (.fail e) }] }

/-- Record whether the callable of a stage was invoked. -/
def logInvoked (m : Memory V E X ι) (invokes : Bool) (p : Promise) (on : Option ι) :
    Memory V E X ι :=
  { m with invoked := m.invoked ++ if invokes then [(p, on)] else [] }

/-- The results the promise of `l` was fulfilled with. -/
def setsAt (m : Memory V E X ι) (l : Loc) : List (Result V E) :=
  (m.sets.filter (·.1 == l)).map Prod.snd

/-- How often the callable of the stage that fulfils `p` was invoked. -/
def invocations (m : Memory V E X ι) (p : Promise) : Nat := (m.invoked.map Prod.fst).count p

theorem setsAt_append (m : Memory V E X ι) (l l' : Loc) (r : Result V E) :
    { m with sets := m.sets ++ [(l', r)] }.setsAt l = m.setsAt l ++ if l' = l then [r] else [] := by
  rw [setsAt, setsAt, List.filter_append, List.map_append]
  by_cases h : l' = l <;> simp [h]

theorem invocations_logInvoked (m : Memory V E X ι) (p : Promise) (invokes : Bool) (on : Option ι) :
    (m.logInvoked invokes p on).invocations p = m.invocations p + if invokes then 1 else 0 := by
  rw [invocations, invocations, logInvoked, List.map_append, List.count_append]
  cases invokes <;> simp

end Memory

/-- What running one frame does: the new memory, an exception that leaves the frame, and the frames
    that replace it. -/
abbrev Effect (V E X ι : Type) := Memory V E X ι × Option X × List (Frame V E X ι)

/-- The lambda of `Transform(Transformer)`, up to the call that fulfils `t_promise`. -/
def callTransform (W : Wheels V E X) (m : Memory V E X ι) (s : Stage V E X) (t_promise : Promise)
    (r : Result V E) (on : Option ι) : Effect V E X ι :=
  let (invokes, outcome) := s.transformer W r
  let m := m.logInvoked invokes t_promise on
  match outcome with
  | .error x => (m, none, [.set t_promise (.fail (W.toError x))])
  | .ok new_result =>
      match W.unwrap new_result with
      | .error x => (m, none, [.set t_promise (.fail (W.toError x))])
      | .ok v => (m, none, [.set t_promise (.ok v), .catchSetError ⟨none⟩])

/-- The lambda of `Transform(AsyncTransformer)`, up to the `Subscribe` on the inner future. -/
def callAsyncTransform (W : Wheels V E X) (m : Memory V E X ι) (s : AsyncStage V E X)
    (t_promise : Promise) (r : Result V E) (on : Option ι) : Effect V E X ι :=
  let (invokes, outcome) := s.transformer W r
  let m := m.logInvoked invokes t_promise on
  match outcome with
  | .error x => (m, none, [.set t_promise (.fail (W.toError x))])
  | .ok (.future l) => (m, none, [.subscribe l (.forward t_promise), .catchSetError ⟨none⟩])
  | .ok (.failed e) =>
      (m.allocFailed e, none,
        [.subscribe m.heap.length (.forward t_promise), .catchSetError ⟨none⟩])

/-- `callback(std::move(result))`. -/
def call (W : Wheels V E X) (m : Memory V E X ι) (r : Result V E) (on : Option ι) :
    Callback V E X → Effect V E X ι
  | .transform s p => callTransform W m s p r on
  | .asyncTransform s p => callAsyncTransform W m s p r on
  | .forward p =>
      match W.unwrap r with
      | .error x => (m, some x, [])
      | .ok v => (m, none, [.set p (.ok v)])
  | .consumer body =>
      let m := { m with consumed := m.consumed ++ [r] }
      match body r with
      | .error x => (m, some x, [])
      | .ok () => (m, none, [])

/-- One call on the future at `l`. `Transform` makes the new promise, subscribes the stage's lambda to
    the future at `l`, and goes on with the new future. -/
def build (m : Memory V E X ι) (l : Loc) (ops : List (Op V E X ι)) :
    Op V E X ι → Except Violation (Memory V E X ι × List (Frame V E X ι))
  | .via e =>
      .ok ({ m with heap := m.heap.modify l (·.setExecutor e) }, [.build l ops])
  | .stage s =>
      let t_promise : Promise := ⟨some m.heap.length⟩
      ((m.alloc (m.executorAt l)).subscribe l (.transform s t_promise)).map
        fun (m', fs) => (m', fs ++ [.build m.heap.length ops])
  | .asyncStage s =>
      let t_promise : Promise := ⟨some m.heap.length⟩
      ((m.alloc (m.executorAt l)).subscribe l (.asyncTransform s t_promise)).map
        fun (m', fs) => (m', fs ++ [.build m.heap.length ops])
  | .subscribe body => m.subscribe l (.consumer body)

/-- Run the top frame. -/
def exec (W : Wheels V E X) (m : Memory V E X ι) : Frame V E X ι → Except Violation (Effect V E X ι)
  | .build _ [] => .ok (m, none, [])
  | .build l (op :: ops) => (build m l ops op).map fun (m', fs) => (m', none, fs)
  | .set ⟨none⟩ _ => .error .noSharedState
  | .set ⟨some l⟩ r => (m.setResult l r).map fun (m', fs) => (m', none, fs)
  | .subscribe l cb => (m.subscribe l cb).map fun (m', fs) => (m', none, fs)
  | .call cb r on => .ok (call W m r on cb)
  | .catchSetError _ => .ok (m, none, [])

/-- The frames that a call can return to. -/
def Frame.isCaller : Frame V E X ι → Bool
  | .build _ _ => true
  | .catchSetError _ => true
  | _ => false

/-- `Execute` makes one call at most. -/
theorem Memory.commit_tail (m : Memory V E X ι) (l : Loc)
    (s : SharedState (Callback V E X) (Result V E) ι × Option (Handover (Callback V E X) (Result V E) ι)) :
    (m.commit l s).2.tail = [] := by
  obtain ⟨c, _ | ⟨cb, r, _ | e⟩⟩ := s <;> rfl

theorem Memory.setResult_tail {m m' : Memory V E X ι} {l : Loc} {r : Result V E} {fs : List (Frame V E X ι)}
    (h : m.setResult l r = .ok (m', fs)) : fs.tail = [] := by
  unfold Memory.setResult at h
  split at h
  · cases h
  · obtain ⟨s, -, hs⟩ := Except.exists_of_map h
    have htail := Memory.commit_tail { m with sets := m.sets ++ [(l, r)] } l s
    rw [hs] at htail
    exact htail

theorem Memory.subscribe_tail {m m' : Memory V E X ι} {l : Loc} {cb : Callback V E X} {fs : List (Frame V E X ι)}
    (h : m.subscribe l cb = .ok (m', fs)) : fs.tail = [] := by
  unfold Memory.subscribe at h
  split at h
  · cases h
  · obtain ⟨s, -, hs⟩ := Except.exists_of_map h
    have htail := m.commit_tail l s
    rw [hs] at htail
    exact htail

/-- A call, and the rest of the chain to build. -/
theorem mem_tail_append_build {fs : List (Frame V E X ι)} {l : Loc} {ops : List (Op V E X ι)} (h : fs.tail = []) :
    ∀ g ∈ (fs ++ [Frame.build l ops]).tail, g.isCaller = true := by
  intro g hg
  cases fs with
  | nil => cases hg
  | cons f rest =>
      obtain rfl : rest = [] := h
      rw [List.mem_singleton.mp hg]
      rfl

theorem build_tail {m m' : Memory V E X ι} {l : Loc} {ops : List (Op V E X ι)} {op : Op V E X ι}
    {fs : List (Frame V E X ι)} (h : build m l ops op = .ok (m', fs)) : ∀ g ∈ fs.tail, g.isCaller = true := by
  cases op with
  | via e =>
      cases h
      exact nofun
  | stage s | asyncStage s =>
      obtain ⟨⟨m₁, fs₁⟩, hsubscribe, heq⟩ := Except.exists_of_map h
      cases heq
      exact mem_tail_append_build (Memory.subscribe_tail hsubscribe)
  | subscribe body =>
      rw [Memory.subscribe_tail h]
      exact nofun

theorem call_tail (W : Wheels V E X) (m : Memory V E X ι) (r : Result V E) (on : Option ι) (cb : Callback V E X) :
    ∀ g ∈ (call W m r on cb).2.2.tail, g.isCaller = true := by
  cases cb with
  | transform s p =>
      simp only [call, callTransform]
      split
      · exact nofun
      · split <;> simp [Frame.isCaller]
  | asyncTransform s p =>
      simp only [call, callAsyncTransform]
      split <;> simp [Frame.isCaller]
  | forward p =>
      simp only [call]
      split <;> exact nofun
  | consumer body =>
      simp only [call]
      split <;> exact nofun

/-- **A frame is replaced by a call, and by what that returns to.** -/
theorem exec_tail {W : Wheels V E X} {m m' : Memory V E X ι} {f : Frame V E X ι} {raised : Option X}
    {fs : List (Frame V E X ι)} (h : exec W m f = .ok (m', raised, fs)) : ∀ g ∈ fs.tail, g.isCaller = true := by
  cases f with
  | build l ops =>
      cases ops with
      | nil =>
          cases h
          exact nofun
      | cons op ops =>
          obtain ⟨⟨m₁, fs₁⟩, hbuild, heq⟩ := Except.exists_of_map h
          cases heq
          exact build_tail hbuild
  | set p r =>
      obtain ⟨_ | l⟩ := p
      · cases h
      · obtain ⟨⟨m₁, fs₁⟩, hset, heq⟩ := Except.exists_of_map h
        cases heq
        rw [Memory.setResult_tail hset]
        exact nofun
  | subscribe l cb =>
      obtain ⟨⟨m₁, fs₁⟩, hsubscribe, heq⟩ := Except.exists_of_map h
      cases heq
      rw [Memory.subscribe_tail hsubscribe]
      exact nofun
  | call cb r on =>
      have hcall := call_tail W m r on cb
      rw [Except.ok.inj h] at hcall
      exact hcall
  | catchSetError p =>
      cases h
      exact nofun

theorem exec_set {W : Wheels V E X} {m m' : Memory V E X ι} {l : Loc} {r : Result V E}
    {fs : List (Frame V E X ι)} (h : m.setResult l r = .ok (m', fs)) :
    exec W m (.set ⟨some l⟩ r) = .ok (m', none, fs) := by
  simp only [exec, h, Except.map]

theorem exec_subscribe {W : Wheels V E X} {m m' : Memory V E X ι} {l : Loc} {cb : Callback V E X}
    {fs : List (Frame V E X ι)} (h : m.subscribe l cb = .ok (m', fs)) :
    exec W m (.subscribe l cb) = .ok (m', none, fs) := by
  simp only [exec, h, Except.map]

/-- A failed result leaves the forwarding lambda as an exception. -/
theorem exec_forward_throw {W : Wheels V E X} {r : Result V E} {x : X} (h : W.unwrap r = .error x)
    (m : Memory V E X ι) (p : Promise) (on : Option ι) :
    exec W m (.call (.forward p) r on) = .ok (m, some x, []) := by
  simp only [exec, call, h]

theorem exec_forward {W : Wheels V E X} {r : Result V E} {v : V} (h : W.unwrap r = .ok v)
    (m : Memory V E X ι) (p : Promise) (on : Option ι) :
    exec W m (.call (.forward p) r on) = .ok (m, none, [.set p (.ok v)]) := by
  simp only [exec, call, h]

/-- What a subscriber throws leaves it. -/
theorem exec_consumer_throw {W : Wheels V E X} {body : Result V E → Except X Unit} {r : Result V E} {x : X}
    (h : body r = .error x) (m : Memory V E X ι) (on : Option ι) :
    exec W m (.call (.consumer body) r on) = .ok ({ m with consumed := m.consumed ++ [r] }, some x, []) := by
  simp only [exec, call, h]

theorem exec_build_asyncStage {W : Wheels V E X} {m m' : Memory V E X ι} {l : Loc}
    {s : AsyncStage V E X} {ops : List (Op V E X ι)} {fs : List (Frame V E X ι)}
    (h : (m.alloc (m.executorAt l)).subscribe l (.asyncTransform s ⟨some m.heap.length⟩) = .ok (m', fs)) :
    exec W m (.build l (.asyncStage s :: ops)) = .ok (m', none, fs ++ [.build m.heap.length ops]) := by
  simp only [exec, build, h, Except.map]

theorem exec_build_subscribe {W : Wheels V E X} {m m' : Memory V E X ι} {l : Loc}
    {body : Result V E → Except X Unit} {ops : List (Op V E X ι)} {fs : List (Frame V E X ι)}
    (h : m.subscribe l (.consumer body) = .ok (m', fs)) :
    exec W m (.build l (.subscribe body :: ops)) = .ok (m', none, fs) := by
  simp only [exec, build, h, Except.map]

/-- An exception meets a frame: a `catch` clause handles it, anything else it leaves. -/
def unwind (W : Wheels V E X) (x : X) : Frame V E X ι → Option X × List (Frame V E X ι)
  | .catchSetError p => (none, [.set p (.fail (W.toError x))])
  | _ => (some x, [])

namespace Machine

/-- Who takes the next step: a thread, or an executor that starts its `i`-th pending task. -/
inductive Action where
  | thread (i : Nat)
  | start (i : Nat)
  deriving DecidableEq

/-- Thread `t`, at index `i`, takes a step. A failed check stops the whole process. -/
def stepThread (W : Wheels V E X) (m : Machine V E X ι) (i : Nat) :
    Thread V E X ι → Option (Machine V E X ι)
  | ⟨_, []⟩ => none
  | ⟨some x, f :: stk⟩ =>
      let (raised, fs) := unwind W x f
      some { m with threads := m.threads.set i ⟨raised, fs ++ stk⟩ }
  | ⟨none, f :: stk⟩ =>
      match exec W m.mem f with
      | .error v => some { m with violated := some v }
      | .ok (mem, raised, fs) => some { m with mem, threads := m.threads.set i ⟨raised, fs ++ stk⟩ }

def next (W : Wheels V E X) (m : Machine V E X ι) : Action → Option (Machine V E X ι)
  | .thread i =>
      if m.violated.isSome then none else m.threads[i]?.bind (m.stepThread W i)
  | .start i =>
      if m.violated.isSome then none else
        m.mem.pending[i]?.map fun (e, cb, r) =>
          { m with mem := { m.mem with pending := m.mem.pending.eraseIdx i }
                   threads := m.threads ++ [⟨none, [.call cb r (some e)]⟩] }

/-- All runs from `m₀`. -/
def system (W : Wheels V E X) (m₀ : Machine V E X ι) : System (Machine V E X ι) :=
  System.ofNext m₀ (next W)

/-! ## The frames of all threads -/

/-- The calls in progress, on whatever thread. -/
def frames (m : Machine V E X ι) : Multiset (Frame V E X ι) :=
  ((m.threads.map Thread.stack).flatten : List (Frame V E X ι))

theorem frames_eq (m : Machine V E X ι) {i : Nat} {t : Thread V E X ι} (ht : m.threads[i]? = some t) :
    m.frames = (t.stack : Multiset (Frame V E X ι)) +
      (((m.threads.eraseIdx i).map Thread.stack).flatten : List (Frame V E X ι)) := by
  obtain ⟨hi, rfl⟩ := List.getElem?_eq_some_iff.mp ht
  have hperm := (List.getElem_cons_eraseIdx_perm hi).symm
  rw [Multiset.coe_add]
  exact Multiset.coe_eq_coe.mpr ((hperm.map Thread.stack).flatten)

theorem mem_frames {m : Machine V E X ι} {t : Thread V E X ι} {f : Frame V E X ι}
    (ht : t ∈ m.threads) (hf : f ∈ t.stack) : f ∈ m.frames := by
  rw [frames, Multiset.mem_coe, List.mem_flatten]
  exact ⟨t.stack, List.mem_map_of_mem ht, hf⟩

/-- The rest of the machine keeps its frames when one thread's top frame `f` is replaced by `fs`. -/
theorem frames_set {m : Machine V E X ι} (m' : Machine V E X ι) {i : Nat} {r r' : Option X} {f : Frame V E X ι}
    {fs stk : List (Frame V E X ι)} (ht : m.threads[i]? = some ⟨r, f :: stk⟩)
    (hm' : m'.threads = m.threads.set i ⟨r', fs ++ stk⟩) :
    m'.frames + {f} = m.frames + fs := by
  have hi : i < m.threads.length := (List.getElem?_eq_some_iff.mp ht).1
  have ht' : m'.threads[i]? = some ⟨r', fs ++ stk⟩ := by rw [hm']; simp [hi]
  rw [frames_eq m ht, frames_eq m' ht', hm', List.eraseIdx_set_eq]
  simp only [← Multiset.cons_coe, ← Multiset.coe_add, ← Multiset.singleton_add]
  abel

/-- The same, with the rest named. -/
theorem exists_frames_rest {m : Machine V E X ι} (m' : Machine V E X ι) {i : Nat} {r r' : Option X}
    {f : Frame V E X ι} {fs stk : List (Frame V E X ι)} (ht : m.threads[i]? = some ⟨r, f :: stk⟩)
    (hm' : m'.threads = m.threads.set i ⟨r', fs ++ stk⟩) :
    ∃ rest, m.frames = f ::ₘ rest ∧ m'.frames = rest + fs := by
  obtain ⟨rest, hrest⟩ :=
    Multiset.exists_cons_of_mem (mem_frames (List.mem_of_getElem? ht) (List.mem_cons_self (a := f)))
  have hset := frames_set m' ht hm'
  rw [hrest, ← Multiset.singleton_add, add_comm m'.frames, add_assoc] at hset
  exact ⟨rest, hrest, add_left_cancel hset⟩

/-- A new thread adds its frames. -/
theorem frames_append (m : Machine V E X ι) (mem : Memory V E X ι) (t : Thread V E X ι) :
    ({ m with mem, threads := m.threads ++ [t] } : Machine V E X ι).frames =
      m.frames + (t.stack : Multiset (Frame V E X ι)) := by
  simp [frames]

/-! ## What a step can do -/

/-- The four kinds of step. -/
inductive Stepped (W : Wheels V E X) (m : Machine V E X ι) : Machine V E X ι → Prop where
  | unwind {i : Nat} {x : X} {f : Frame V E X ι} {stk : List (Frame V E X ι)}
      (thread : m.threads[i]? = some ⟨some x, f :: stk⟩) :
      Stepped W m ({ m with
        threads := m.threads.set i ⟨(Futures.unwind W x f).1, (Futures.unwind W x f).2 ++ stk⟩ })
  | violate {i : Nat} {f : Frame V E X ι} {stk : List (Frame V E X ι)} {v : Violation}
      (thread : m.threads[i]? = some ⟨none, f :: stk⟩) (failed : exec W m.mem f = .error v) :
      Stepped W m { m with violated := some v }
  | run {i : Nat} {f : Frame V E X ι} {fs stk : List (Frame V E X ι)} {mem : Memory V E X ι}
      {raised : Option X} (thread : m.threads[i]? = some ⟨none, f :: stk⟩)
      (done : exec W m.mem f = .ok (mem, raised, fs)) :
      Stepped W m { m with mem, threads := m.threads.set i ⟨raised, fs ++ stk⟩ }
  | start {i : Nat} {e : ι} {cb : Callback V E X} {r : Result V E}
      (task : m.mem.pending[i]? = some (e, cb, r)) :
      Stepped W m { m with mem := { m.mem with pending := m.mem.pending.eraseIdx i }
                           threads := m.threads ++ [⟨none, [.call cb r (some e)]⟩] }

/-- A thread that takes a step has a call in progress. -/
theorem next_thread {W : Wheels V E X} {m m' : Machine V E X ι} {i : Nat}
    (h : next W m (.thread i) = some m') :
    m.violated = none ∧ ∃ raised f stk, m.threads[i]? = some ⟨raised, f :: stk⟩ ∧
      m.stepThread W i ⟨raised, f :: stk⟩ = some m' := by
  simp only [next] at h
  split at h
  · cases h
  · next hv =>
      obtain ⟨⟨raised, stack⟩, ht, h⟩ := Option.bind_eq_some_iff.mp h
      cases stack with
      | nil => simp [stepThread] at h
      | cons f stk => exact ⟨by simpa using hv, raised, f, stk, ht, h⟩

theorem next_stepped {W : Wheels V E X} {m m' : Machine V E X ι} {a : Action}
    (h : next W m a = some m') : m.violated = none ∧ Stepped W m m' := by
  cases a with
  | thread i =>
      obtain ⟨hv, raised, f, stk, ht, h⟩ := next_thread h
      refine ⟨hv, ?_⟩
      cases raised with
      | some x =>
          obtain rfl := Option.some.inj h
          exact .unwind ht
      | none =>
          simp only [stepThread] at h
          split at h
          · next v he =>
              obtain rfl := Option.some.inj h
              exact .violate ht he
          · next mem raised fs he =>
              obtain rfl := Option.some.inj h
              exact .run ht he
  | start i =>
      simp only [next] at h
      split at h
      · cases h
      · next hv =>
          refine ⟨by simpa using hv, ?_⟩
          obtain ⟨⟨e, cb, r⟩, ht, rfl⟩ := Option.map_eq_some_iff.mp h
          exact .start ht

/-- These are the steps there are. -/
theorem step_of_stepped {W : Wheels V E X} {m₀ m m' : Machine V E X ι} (hv : m.violated = none)
    (h : Stepped W m m') : (system W m₀).step m m' := by
  cases h with
  | @unwind i x f stk thread => exact ⟨.thread i, by simp [next, hv, thread, stepThread]⟩
  | @violate i f stk v thread failed =>
      exact ⟨.thread i, by simp [next, hv, thread, stepThread, failed]⟩
  | @run i f fs stk mem raised thread done =>
      exact ⟨.thread i, by simp [next, hv, thread, stepThread, done]⟩
  | @start i e cb r task => exact ⟨.start i, by simp [next, hv, task]⟩

/-- On every thread, the calls under the top one are those that it can return to. -/
def Nested (m : Machine V E X ι) : Prop := ∀ t ∈ m.threads, ∀ f ∈ t.stack.tail, f.isCaller = true

/-- The top frame of a thread is replaced. -/
theorem Nested.set {m : Machine V E X ι} (h : m.Nested) {i : Nat} {r r' : Option X} {f : Frame V E X ι}
    {fs stk : List (Frame V E X ι)} (thread : m.threads[i]? = some ⟨r, f :: stk⟩)
    (hfs : ∀ g ∈ fs.tail, g.isCaller = true) :
    ∀ t ∈ m.threads.set i ⟨r', fs ++ stk⟩, ∀ g ∈ t.stack.tail, g.isCaller = true := by
  intro t ht g hg
  have hstk : ∀ g ∈ stk, g.isCaller = true := h _ (List.mem_of_getElem? thread)
  rcases List.mem_or_eq_of_mem_set ht with ht | rfl
  · exact h t ht g hg
  · cases fs with
    | nil => exact hstk g (List.mem_of_mem_tail hg)
    | cons f' rest =>
        rcases List.mem_append.mp hg with hg | hg
        · exact hfs g hg
        · exact hstk g hg

theorem Nested.stepped {W : Wheels V E X} {m m' : Machine V E X ι} (h : m.Nested) (hstep : Stepped W m m') :
    m'.Nested := by
  cases hstep with
  | @unwind i x f stk thread =>
      apply h.set thread
      cases f with
      | build | set | subscribe | call | catchSetError => exact nofun
  | violate thread failed => exact h
  | run thread done => exact h.set thread (exec_tail done)
  | start task =>
      intro t ht
      rcases List.mem_append.mp ht with ht | ht
      · exact h t ht
      · obtain rfl := List.mem_singleton.mp ht
        exact nofun

/-- A thread with a call in progress can take a step: no call blocks. -/
theorem exists_stepThread (W : Wheels V E X) (m : Machine V E X ι) (i : Nat) (raised : Option X)
    (f : Frame V E X ι) (stk : List (Frame V E X ι)) :
    ∃ m', m.stepThread W i ⟨raised, f :: stk⟩ = some m' := by
  cases raised with
  | some x => exact ⟨_, rfl⟩
  | none =>
      cases he : exec W m.mem f with
      | error v => exact ⟨{ m with violated := some v }, by simp only [stepThread, he]⟩
      | ok eff => exact ⟨_, by simp only [stepThread, he]; rfl⟩

/-- No call is in progress, and no task pending. -/
def idle (m : Machine V E X ι) : Bool := m.threads.all (·.stack.isEmpty) && m.mem.pending.isEmpty

/-- An idle machine stands still. -/
theorem quiescent_of_idle {W : Wheels V E X} {m₀ m : Machine V E X ι} (h : m.idle = true) :
    (system W m₀).Quiescent m := by
  rw [idle, Bool.and_eq_true, List.all_eq_true, List.isEmpty_iff] at h
  obtain ⟨hthreads, hpending⟩ := h
  have hstack : ∀ t ∈ m.threads, t.stack = [] := fun t ht => List.isEmpty_iff.mp (hthreads t ht)
  rintro m' ⟨a, hnext⟩
  cases (next_stepped hnext).2 with
  | unwind thread => cases hstack _ (List.mem_of_getElem? thread)
  | violate thread => cases hstack _ (List.mem_of_getElem? thread)
  | run thread => cases hstack _ (List.mem_of_getElem? thread)
  | start task => simp [hpending] at task

/-- A machine that stands still has no call in progress and no task pending. -/
theorem quiescent_frames {W : Wheels V E X} {m₀ m : Machine V E X ι}
    (hq : (system W m₀).Quiescent m) (hv : m.violated = none) :
    m.frames = 0 ∧ m.mem.pending = [] := by
  constructor
  · refine (Multiset.coe_eq_zero _).mpr (List.flatten_eq_nil_iff.mpr ?_)
    intro stk hstk
    obtain ⟨t, ht, rfl⟩ := List.mem_map.mp hstk
    obtain ⟨i, hi, rfl⟩ := List.getElem_of_mem ht
    by_contra hne
    obtain ⟨f, stk, hstk⟩ := List.exists_cons_of_ne_nil hne
    have hget : m.threads[i]? = some m.threads[i] := List.getElem?_eq_getElem hi
    have ht : m.threads[i] = ⟨m.threads[i].raised, f :: stk⟩ := by rw [← hstk]
    obtain ⟨m', hm'⟩ := exists_stepThread W m i m.threads[i].raised f stk
    rw [← ht] at hm'
    exact hq m' ⟨.thread i, by simp [next, hv, hget, hm']⟩
  · by_contra hne
    obtain ⟨⟨e, cb, r⟩, ts, hts⟩ := List.exists_cons_of_ne_nil hne
    exact hq _ ⟨.start 0, by simp only [next, hv, hts]; rfl⟩

end Machine
end Futures
end Tpcc
