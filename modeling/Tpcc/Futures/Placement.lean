import Tpcc.Futures.Chain

/-!
# `Futures.Placement` — which executor the callables of a chain run on

A chain of `Via`s and stages, of either kind, on the future of a contract, of `Completed` or `Failed`, or
of `AsyncVia`; the asynchronous stages return inner futures, which have executors of their own. One thread
builds the chain, others fulfil the source and the inner promises, and executors may run any task.

A stage reads the executor of the future it is called on, copies it to the future it returns, and has its
lambda handed to the executor that is there when the result meets it. What keeps the three the same is
that nobody calls `Via` on a future with a stage's lambda in it: `Inv` says that every lambda that waits
at a shared state, in a task, or in a call is with the executor of its stage, and that the future the
building thread holds carries the executor of the next stage and no stage's lambda.
-/

namespace Tpcc
namespace Futures

open Transition Futures.Machine

variable {V E X ι : Type}

/-! ## Chains -/

/-- Where the first future of a chain comes from. -/
inductive Source (V E X ι : Type) where
  /-- `MakeContract`, with the result its promise gets. -/
  | contract (r : Result V E)
  | completed (value : V)
  | failed (error : E)
  | asyncVia (e : ι) (target : Except X V)

/-- A chain of calls on the future of a source, and the inner futures: the executor attached to each, and
    the result its promise gets. -/
structure Composed (V E X ι : Type) where
  source : Source V E X ι
  calls : List (Op V E X ι)
  inner : List (Option ι × Result V E)

/-- The place of the first future. -/
abbrev firstLoc : Loc := 0

namespace Source

/-- The shared state of the first future. -/
def state : Source V E X ι → SharedState (Callback V E X) (Result V E) ι
  | .completed value => { state := .onlyResult, result := .full (.ok value) }
  | .failed error => { state := .onlyResult, result := .full (.fail error) }
  | _ => {}

/-- `AsyncVia` calls `Via` on the future it returns. -/
def calls : Source V E X ι → List (Op V E X ι)
  | .asyncVia e _ => [.via (some e)]
  | _ => []

/-- The task of `AsyncVia`: its lambda is that of a stage which ignores the result it is given. -/
def tasks (W : Wheels V E X) : Source V E X ι → List (ι × Callback V E X × Result V E)
  | .asyncVia e target =>
      [(e, .transform (.transform fun _ => target.map .ok) ⟨some firstLoc⟩,
        ofOutcome W.toError target)]
  | _ => []

/-- The thread that fulfils the promise of a contract. -/
def threads : Source V E X ι → List (Thread V E X ι)
  | .contract r => [⟨none, [.set ⟨some firstLoc⟩ r]⟩]
  | _ => []

end Source

/-- The executors of the stages: each is given by the last `via` before it. -/
def executorsFrom : Option ι → List (Op V E X ι) → List (Option ι)
  | _, [] => []
  | _, .via e :: ops => executorsFrom e ops
  | on, .stage _ :: ops => on :: executorsFrom on ops
  | on, .asyncStage _ :: ops => on :: executorsFrom on ops
  | _, .subscribe _ :: _ => []

/-- An executor among them was given by some `via`. -/
theorem mem_executorsFrom {ops : List (Op V E X ι)} {on : Option ι} {e : ι}
    (h : some e ∈ executorsFrom on ops) : on = some e ∨ .via (some e) ∈ ops := by
  induction ops generalizing on with
  | nil => cases h
  | cons op ops ih =>
      cases op with
      | via e' =>
          rcases ih h with he | he
          · cases he
            exact .inr List.mem_cons_self
          · exact .inr (List.mem_cons_of_mem _ he)
      | stage s | asyncStage s =>
          rcases List.mem_cons.mp h with he | he
          · exact .inl he.symm
          · exact (ih he).imp_right (List.mem_cons_of_mem _)
      | subscribe body => cases h

namespace Composed

/-- The calls on the first future. -/
def program (c : Composed V E X ι) : List (Op V E X ι) := c.source.calls ++ c.calls

/-- The executors of the stages of the chain. -/
def executors (c : Composed V E X ι) : List (Option ι) := executorsFrom none c.program

/-- The threads that fulfil the promises of the source and of the inner futures. -/
def producers (c : Composed V E X ι) : List (Thread V E X ι) :=
  c.source.threads ++ c.inner.mapIdx fun k (_, r) => ⟨none, [.set ⟨some (k + 1)⟩ r]⟩

/-- The source and the inner futures, inner future `k` at place `k + 1`; the thread that builds the chain,
    and those that fulfil the promises. -/
def machine (W : Wheels V E X) (c : Composed V E X ι) : Machine V E X ι where
  mem := { heap := c.source.state :: c.inner.map fun (executor, _) => { executor }
           pending := c.source.tasks W }
  threads := ⟨none, [.build firstLoc c.program]⟩ :: c.producers

end Composed

/-! ## Which stage a promise belongs to -/

/-- A machine, with the promises of the stages built so far: `places[j]` is where stage `j` has its own. -/
structure Traced (V E X ι : Type) where
  machine : Machine V E X ι
  places : List Loc := []

/-- The place of the promise that a call of the building thread makes. -/
def Frame.opened (m m' : Memory V E X ι) : Frame V E X ι → List Loc
  | .build _ _ => if m.heap.length < m'.heap.length then [m.heap.length] else []
  | _ => []

namespace Traced

def opened (m m' : Machine V E X ι) : Action → List Loc
  | .thread i =>
      match m.threads[i]? with
      | some ⟨_, f :: _⟩ => f.opened m.mem m'.mem
      | _ => []
  | .start _ => []

def next (W : Wheels V E X) (s : Traced V E X ι) (a : Action) : Option (Traced V E X ι) :=
  (s.machine.next W a).map fun m => ⟨m, s.places ++ opened s.machine m a⟩

end Traced

namespace Composed

/-- All runs of the chain, traced. -/
def system (W : Wheels V E X) (c : Composed V E X ι) : System (Traced V E X ι) :=
  System.ofNext ⟨c.machine W, []⟩ (Traced.next W)

/-- Tracing leaves out no run. -/
theorem exists_traced {W : Wheels V E X} {c : Composed V E X ι} {m : Machine V E X ι}
    (h : (Machine.system W (c.machine W)).Reachable m) :
    ∃ places, (c.system W).Reachable ⟨m, places⟩ := by
  refine h.invariant (P := fun m => ∃ places, (c.system W).Reachable ⟨m, places⟩) ?_ ?_
  · rintro m rfl
    exact ⟨[], .of_init rfl⟩
  · rintro m m' ⟨places, hm⟩ ⟨a, hnext⟩
    refine ⟨places ++ Traced.opened m m' a, hm.step ⟨a, ?_⟩⟩
    simp only [Traced.next, hnext, Option.map_some]

/-- Where the callable that fulfils `p` is to run: the target of `AsyncVia` on its executor, and that of
    a stage on the executor of the stage, inline if it has none. -/
inductive RunsOn (c : Composed V E X ι) (places : List Loc) : Promise → Option ι → Prop where
  | target {e : ι} {target : Except X V} (source : c.source = .asyncVia e target) :
      RunsOn c places ⟨some firstLoc⟩ (some e)
  | stage {j : Nat} {l : Loc} {on : Option ι} (place : places[j]? = some l)
      (executor : c.executors[j]? = some on) : RunsOn c places ⟨some l⟩ on

theorem RunsOn.append {c : Composed V E X ι} {places : List Loc} {p : Promise} {on : Option ι}
    (h : c.RunsOn places p on) (ls : List Loc) : c.RunsOn (places ++ ls) p on := by
  cases h with
  | target source => exact .target source
  | stage place executor =>
      exact .stage (List.getElem?_append_left (List.getElem?_eq_some_iff.mp place).1 ▸ place) executor

/-- An executor that a callable runs on was given by a `Via` of the chain. -/
theorem RunsOn.via {c : Composed V E X ι} {places : List Loc} {p : Promise} {e : ι}
    (h : c.RunsOn places p (some e)) : .via (some e) ∈ c.program := by
  cases h with
  | target source => simp [program, source, Source.calls]
  | stage place executor =>
      rcases mem_executorsFrom (List.mem_of_getElem? executor) with he | he
      · cases he
      · exact he

end Composed

/-! ## Callbacks and the executors they are with -/

/-- The promise a stage's lambda fulfils. -/
def Callback.stagePromise : Callback V E X → Option Promise
  | .transform _ p => some p
  | .asyncTransform _ p => some p
  | .forward _ => none
  | .consumer _ => none

namespace Memory

/-- The callback in the state at `l`. -/
def callbackAt (m : Memory V E X ι) (l : Loc) : Option (Callback V E X) :=
  m.heap[l]?.bind (·.callback)

/-- `cb` waits at a shared state with executor `on`, or in a task of it. -/
def Holds (m : Memory V E X ι) (on : Option ι) (cb : Callback V E X) : Prop :=
  (∃ l, m.callbackAt l = some cb ∧ m.executorAt l = on) ∨ ∃ e r, on = some e ∧ (e, cb, r) ∈ m.pending

/-- What the methods that call `Execute` on the state at `l` do: the callbacks they may take or leave
    there are those that were there, and those that `New` says. -/
structure Served (New : Callback V E X → Prop) (l : Loc) (m m' : Memory V E X ι)
    (fs : List (Frame V E X ι)) : Prop where
  length : m'.heap.length = m.heap.length
  invoked : m'.invoked = m.invoked
  executorAt : ∀ k, m'.executorAt k = m.executorAt k
  callbackAt : ∀ k cb, m'.callbackAt k = some cb → m.callbackAt k = some cb ∨ k = l ∧ New cb
  pending : ∀ e cb r, (e, cb, r) ∈ m'.pending → (e, cb, r) ∈ m.pending ∨
    m.executorAt l = some e ∧ (m.callbackAt l = some cb ∨ New cb)
  frames : ∀ f ∈ fs, ∃ cb r, f = .call cb r none ∧
    m.executorAt l = none ∧ (m.callbackAt l = some cb ∨ New cb)

end Memory

/-- The same of the methods of the shared state. -/
structure SharedState.Serves {κ ρ : Type} (New : κ → Prop) (s : SharedState κ ρ ι)
    (out : SharedState κ ρ ι × Option (Handover κ ρ ι)) : Prop where
  executor : out.1.executor = s.executor
  callback : ∀ cb, out.1.callback = some cb → s.callback = some cb ∨ New cb
  handover : ∀ h, out.2 = some h → h.executor = s.executor ∧ (s.callback = some h.callback ∨ New h.callback)

namespace SharedState

variable {κ ρ : Type} {s : SharedState κ ρ ι} {out : SharedState κ ρ ι × Option (Handover κ ρ ι)}

theorem serves_setResult {r : ρ} (h : s.setResult r = .ok out) : s.Serves (fun _ => False) out := by
  cases hstate : s.state with
  | start =>
      rw [setResult_start hstate] at h
      cases h
      exact ⟨rfl, fun _ => .inl, nofun⟩
  | onlyCallback =>
      cases hcb : s.callback with
      | none => simp [setResult, hstate, handOver, hcb] at h
      | some cb =>
          rw [setResult_onlyCallback hstate hcb] at h
          cases h
          refine ⟨rfl, fun _ => .inl, ?_⟩
          rintro _ ⟨⟩
          exact ⟨rfl, .inl hcb⟩
  | onlyResult | done => simp [setResult, hstate] at h

theorem serves_subscribe {cb : κ} (h : s.subscribe cb = .ok out) : s.Serves (· = cb) out := by
  cases hstate : s.state with
  | start =>
      rw [subscribe_start hstate] at h
      cases h
      refine ⟨rfl, ?_, nofun⟩
      rintro _ ⟨⟩
      exact .inr rfl
  | onlyResult =>
      cases hr : s.result with
      | full r =>
          rw [subscribe_onlyResult hstate hr] at h
          cases h
          refine ⟨rfl, fun _ => .inl, ?_⟩
          rintro _ ⟨⟩
          exact ⟨rfl, .inr rfl⟩
      | empty | moved => simp [subscribe, hasResult, hstate, getReadyResult, hr, Except.map] at h
  | onlyCallback | done => simp [subscribe, hasResult, passCallback, hstate] at h

end SharedState

namespace Memory

variable {m m' : Memory V E X ι} {l : Loc} {fs : List (Frame V E X ι)}

theorem lt_of_callbackAt {cb : Callback V E X} (h : m.callbackAt l = some cb) : l < m.heap.length := by
  obtain ⟨s, hs, -⟩ := Option.bind_eq_some_iff.mp h
  exact (List.getElem?_eq_some_iff.mp hs).1

/-- A new state has the executor it is made with, and no callback; the others are as they were. -/
theorem executorAt_alloc_self (on : Option ι) : (m.alloc on).executorAt m.heap.length = on := by
  simp [executorAt, alloc]

theorem executorAt_alloc_of_lt {on : Option ι} (h : l < m.heap.length) :
    (m.alloc on).executorAt l = m.executorAt l := by
  rw [executorAt, alloc, List.getElem?_append_left h, executorAt]

theorem callbackAt_alloc (on : Option ι) (l : Loc) : (m.alloc on).callbackAt l = m.callbackAt l := by
  unfold callbackAt alloc
  by_cases h : l < m.heap.length
  · rw [List.getElem?_append_left h]
  · have hle := Nat.le_of_not_lt h
    rw [List.getElem?_append_right hle, List.getElem?_eq_none hle]
    cases l - m.heap.length <;> rfl

theorem holds_alloc {on on' : Option ι} {cb : Callback V E X} (h : (m.alloc on').Holds on cb) :
    m.Holds on cb := by
  rcases h with ⟨k, hcb, rfl⟩ | htask
  · rw [callbackAt_alloc] at hcb
    exact .inl ⟨k, hcb, (executorAt_alloc_of_lt (lt_of_callbackAt hcb)).symm⟩
  · exact .inr htask

theorem executorAt_set {s s' : SharedState (Callback V E X) (Result V E) ι} (hs : m.heap[l]? = some s)
    (he : s'.executor = s.executor) (k : Loc) :
    (m.heap.set l s')[k]?.bind (·.executor) = m.executorAt k := by
  obtain ⟨hl, rfl⟩ := List.getElem?_eq_some_iff.mp hs
  unfold executorAt
  by_cases hk : k = l
  · subst hk
    simp [hl, he]
  · rw [List.getElem?_set_ne (Ne.symm hk)]

theorem callbackAt_set {s s' : SharedState (Callback V E X) (Result V E) ι} (hs : m.heap[l]? = some s)
    (k : Loc) : (m.heap.set l s')[k]?.bind (·.callback) = if k = l then s'.callback else m.callbackAt k := by
  obtain ⟨hl, rfl⟩ := List.getElem?_eq_some_iff.mp hs
  unfold callbackAt
  by_cases hk : k = l
  · subst hk
    simp [hl]
  · rw [List.getElem?_set_ne (Ne.symm hk), if_neg hk]

theorem served_commit {New : Callback V E X → Prop} {s : SharedState (Callback V E X) (Result V E) ι}
    {out : SharedState (Callback V E X) (Result V E) ι × Option (Handover (Callback V E X) (Result V E) ι)}
    (hs : m.heap[l]? = some s) (hout : s.Serves New out) (h : m.commit l out = (m', fs)) :
    Served New l m m' fs := by
  obtain ⟨s', handover⟩ := out
  have hexecutor : m.executorAt l = s.executor := by rw [executorAt, hs]; rfl
  have hcallback : m.callbackAt l = s.callback := by rw [callbackAt, hs]; rfl
  have hheap : m'.heap = m.heap.set l s' := by
    rcases handover with _ | ⟨cb, r, _ | e⟩ <;> cases h <;> rfl
  have hlength : m'.heap.length = m.heap.length := by rw [hheap, List.length_set]
  have hexecutors : ∀ k, m'.executorAt k = m.executorAt k := by
    intro k
    rw [executorAt, hheap]
    exact executorAt_set hs hout.executor k
  have hcallbacks : ∀ k cb, m'.callbackAt k = some cb → m.callbackAt k = some cb ∨ k = l ∧ New cb := by
    intro k cb hcb
    rw [callbackAt, hheap, callbackAt_set hs] at hcb
    split at hcb
    · next hk => exact (hout.callback cb hcb).imp (fun h => by rw [hk, hcallback, h]) fun hnew => ⟨hk, hnew⟩
    · exact .inl hcb
  match handover with
  | none =>
      cases h
      exact ⟨hlength, rfl, hexecutors, hcallbacks, fun _ _ _ => .inl, List.forall_mem_nil _⟩
  | some ⟨cb, r, none⟩ =>
      obtain ⟨he, hcb⟩ := hout.handover _ rfl
      cases h
      refine ⟨hlength, rfl, hexecutors, hcallbacks, fun _ _ _ => .inl, ?_⟩
      intro f hf
      rw [hexecutor, hcallback]
      exact ⟨cb, r, List.mem_singleton.mp hf, he.symm, hcb⟩
  | some ⟨cb, r, some e⟩ =>
      obtain ⟨he, hcb⟩ := hout.handover _ rfl
      cases h
      refine ⟨hlength, rfl, hexecutors, hcallbacks, ?_, List.forall_mem_nil _⟩
      intro e' cb' r' htask
      rcases List.mem_append.mp htask with htask | htask
      · exact .inl htask
      · cases List.mem_singleton.mp htask
        rw [hexecutor, hcallback]
        exact .inr ⟨he.symm, hcb⟩

/-- **`SetResult`** serves no callback but the one that is there. -/
theorem served_setResult {r : Result V E} (h : m.setResult l r = .ok (m', fs)) :
    Served (fun _ => False) l m m' fs := by
  unfold setResult at h
  split at h
  · cases h
  · next s hs =>
      obtain ⟨out, hout, h⟩ := Except.exists_of_map h
      -- the log of the calls of `SetResult` is not looked at
      obtain ⟨hlength, hinvoked, hexecutor, hcallback, hpending, hframes⟩ :=
        served_commit (m := { m with sets := m.sets ++ [(l, r)] }) hs (SharedState.serves_setResult hout) h
      exact ⟨hlength, hinvoked, hexecutor, hcallback, hpending, hframes⟩

/-- **`Subscribe`** may serve the callback that it is given. -/
theorem served_subscribe {cb : Callback V E X} (h : m.subscribe l cb = .ok (m', fs)) :
    Served (· = cb) l m m' fs := by
  unfold subscribe at h
  split at h
  · cases h
  · next s hs =>
      obtain ⟨out, hout, h⟩ := Except.exists_of_map h
      exact served_commit hs (SharedState.serves_subscribe hout) h

/-- What is held afterwards was held before, or is new and with the executor of the state. -/
theorem Served.holds {New : Callback V E X → Prop} (h : Served New l m m' fs) {on : Option ι}
    {cb : Callback V E X} (hcb : m'.Holds on cb ∨ ∃ r, Frame.call cb r on ∈ fs) :
    m.Holds on cb ∨ on = m.executorAt l ∧ New cb := by
  rcases hcb with (⟨k, hcb, rfl⟩ | ⟨e, r, rfl, htask⟩) | ⟨r, hf⟩
  · rcases h.callbackAt k cb hcb with hcb | ⟨rfl, hnew⟩
    · exact .inl (.inl ⟨k, hcb, (h.executorAt k).symm⟩)
    · exact .inr ⟨h.executorAt k, hnew⟩
  · rcases h.pending e cb r htask with htask | ⟨he, hcb | hnew⟩
    · exact .inl (.inr ⟨e, r, rfl, htask⟩)
    · exact .inl (.inl ⟨l, hcb, he⟩)
    · exact .inr ⟨he.symm, hnew⟩
  · obtain ⟨cb', r', hf, he, hcb⟩ := h.frames _ hf
    cases hf
    rcases hcb with hcb | hnew
    · exact .inl (.inl ⟨l, hcb, he⟩)
    · exact .inr ⟨he.symm, hnew⟩

end Memory

/-! ## The invariant -/

def Frame.isBuild : Frame V E X ι → Bool
  | .build _ _ => true
  | _ => false

/-- Neither calls a callback nor subscribes a stage's lambda. -/
def Frame.isInert : Frame V E X ι → Bool
  | .set _ _ => true
  | .subscribe _ cb => cb.stagePromise.isNone
  | .catchSetError _ => true
  | .build _ _ => false
  | .call _ _ _ => false

namespace Composed

/-- A stage's lambda is with the executor of its stage. -/
def Fits (c : Composed V E X ι) (places : List Loc) (on : Option ι) (cb : Callback V E X) : Prop :=
  ∀ p, cb.stagePromise = some p → c.RunsOn places p on

theorem Fits.of_none {c : Composed V E X ι} {places : List Loc} {on : Option ι} {cb : Callback V E X}
    (h : cb.stagePromise = none) : c.Fits places on cb := by
  intro p hp
  rw [h] at hp
  cases hp

theorem Fits.append {c : Composed V E X ι} {places : List Loc} {on : Option ι} {cb : Callback V E X}
    (h : c.Fits places on cb) (ls : List Loc) : c.Fits (places ++ ls) on cb :=
  fun p hp => (h p hp).append ls

/-- The future at `l`, on which the building thread has `ops` left, carries the executor of the next
    stage, and no stage's lambda. -/
structure Building (c : Composed V E X ι) (m : Memory V E X ι) (places : List Loc) (l : Loc)
    (ops : List (Op V E X ι)) : Prop where
  lt : l < m.heap.length
  free : ∀ cb, m.callbackAt l = some cb → cb.stagePromise = none
  executors : c.executors.drop places.length = executorsFrom (m.executorAt l) ops

structure Inv (c : Composed V E X ι) (m : Memory V E X ι) (F : Multiset (Frame V E X ι))
    (places : List Loc) : Prop where
  first : 0 < m.heap.length ∧ firstLoc ∉ places
  nodup : places.Nodup
  lt : ∀ l ∈ places, l < m.heap.length
  held : ∀ on cb, m.Holds on cb → c.Fits places on cb
  called : ∀ cb r on, .call cb r on ∈ F → c.Fits places on cb
  subscribed : ∀ l cb, .subscribe l cb ∈ F → cb.stagePromise = none
  invoked : ∀ p on, (p, on) ∈ m.invoked → c.RunsOn places p on
  building : ∀ l ops, .build l ops ∈ F → c.Building m places l ops
  single : F.countP (·.isBuild) ≤ 1

/-- What all steps but `Via` and the attachment of a stage do: they move callbacks on with the executors
    they are with, add no stage's lambda, and change the executor of no future. -/
structure Keeps (m : Memory V E X ι) (F : Multiset (Frame V E X ι)) (m' : Memory V E X ι)
    (fs : List (Frame V E X ι)) : Prop where
  length : m.heap.length ≤ m'.heap.length
  executorAt : ∀ k < m.heap.length, m'.executorAt k = m.executorAt k
  callbackAt : ∀ k cb, m'.callbackAt k = some cb → m.callbackAt k = some cb ∨ cb.stagePromise = none
  held : ∀ on cb, (m'.Holds on cb ∨ ∃ r, .call cb r on ∈ fs) → m.Holds on cb ∨ cb.stagePromise = none
  invoked : ∀ p on, (p, on) ∈ m'.invoked →
    (p, on) ∈ m.invoked ∨ ∃ cb r, .call cb r on ∈ F ∧ cb.stagePromise = some p
  subscribed : ∀ l cb, .subscribe l cb ∈ fs → cb.stagePromise = none
  quiet : ∀ f ∈ fs, f.isBuild = false

section Steps

variable {c : Composed V E X ι} {m m' : Memory V E X ι} {F rest : Multiset (Frame V E X ι)}
  {fs : List (Frame V E X ι)} {places : List Loc} {l : Loc} {ops : List (Op V E X ι)}

/-- The invariant after such a step, where `rest` are the frames it leaves. -/
theorem Inv.keeps (h : c.Inv m F places) (hrest : rest ≤ F) (hk : Keeps m F m' fs) :
    c.Inv m' (rest + fs) places where
  first := ⟨h.first.1.trans_le hk.length, h.first.2⟩
  nodup := h.nodup
  lt l hl := (h.lt l hl).trans_le hk.length
  held on cb hcb := (hk.held on cb (.inl hcb)).elim (h.held on cb) .of_none
  called cb r on hf := by
    rcases Multiset.mem_add.mp hf with hf | hf
    · exact h.called cb r on (Multiset.mem_of_le hrest hf)
    · exact (hk.held on cb (.inr ⟨r, hf⟩)).elim (h.held on cb) .of_none
  subscribed l cb hf := by
    rcases Multiset.mem_add.mp hf with hf | hf
    · exact h.subscribed l cb (Multiset.mem_of_le hrest hf)
    · exact hk.subscribed l cb hf
  invoked p on hp := by
    rcases hk.invoked p on hp with hp | ⟨cb, r, hf, hcb⟩
    · exact h.invoked p on hp
    · exact h.called cb r on hf p hcb
  building l ops hf := by
    rcases Multiset.mem_add.mp hf with hf | hf
    · obtain ⟨hlt, hfree, hexecutors⟩ := h.building l ops (Multiset.mem_of_le hrest hf)
      refine ⟨hlt.trans_le hk.length, fun cb hcb => (hk.callbackAt l cb hcb).elim (hfree cb) id, ?_⟩
      rw [hexecutors, hk.executorAt l hlt]
    · exact absurd (hk.quiet _ hf) (by simp [Frame.isBuild])
  single := by
    have hquiet : (fs : Multiset (Frame V E X ι)).countP (·.isBuild) = 0 := by
      rw [Multiset.countP_eq_zero]
      intro f hf
      rw [hk.quiet f hf]
      exact Bool.false_ne_true
    rw [Multiset.countP_add, hquiet, Nat.add_zero]
    exact (Multiset.countP_le_of_le _ hrest).trans h.single

/-- `SetResult`, and a `Subscribe` of anything but a stage's lambda. -/
theorem keeps_served {New : Callback V E X → Prop} (h : m.Served New l m' fs)
    (hnew : ∀ cb, New cb → cb.stagePromise = none) : Keeps m F m' fs where
  length := h.length.ge
  executorAt k _ := h.executorAt k
  callbackAt k cb hcb := (h.callbackAt k cb hcb).imp_right fun hn => hnew cb hn.2
  held _ cb hcb := (h.holds hcb).imp_right fun hn => hnew cb hn.2
  invoked p on hp := .inl (h.invoked ▸ hp)
  subscribed l cb hf := by
    obtain ⟨_, _, hf, -⟩ := h.frames _ hf
    cases hf
  quiet f hf := by
    obtain ⟨_, _, rfl, -⟩ := h.frames f hf
    rfl

/-- The steps that fulfil, subscribe to an inner future, or log, and allocate states without a callback. -/
theorem keeps_inert {sts : List (SharedState (Callback V E X) (Result V E) ι)}
    (hheap : m'.heap = m.heap ++ sts) (hsts : ∀ st ∈ sts, st.callback = none)
    (hpending : m'.pending = m.pending)
    (hinvoked : ∀ p on, (p, on) ∈ m'.invoked →
      (p, on) ∈ m.invoked ∨ ∃ cb r, .call cb r on ∈ F ∧ cb.stagePromise = some p)
    (hfs : ∀ f ∈ fs, f.isInert = true) : Keeps m F m' fs := by
  have hexecutor : ∀ k < m.heap.length, m'.executorAt k = m.executorAt k := by
    intro k hk
    rw [Memory.executorAt, hheap, List.getElem?_append_left hk, Memory.executorAt]
  have hcallback : ∀ k cb, m'.callbackAt k = some cb → k < m.heap.length ∧ m.callbackAt k = some cb := by
    intro k cb hcb
    rw [Memory.callbackAt, hheap] at hcb
    by_cases hk : k < m.heap.length
    · rw [List.getElem?_append_left hk] at hcb
      exact ⟨hk, hcb⟩
    · rw [List.getElem?_append_right (Nat.le_of_not_lt hk)] at hcb
      obtain ⟨st, hst, hcb⟩ := Option.bind_eq_some_iff.mp hcb
      rw [hsts st (List.mem_of_getElem? hst)] at hcb
      cases hcb
  refine ⟨?_, hexecutor, fun k cb hcb => .inl (hcallback k cb hcb).2, ?_, hinvoked, ?_, ?_⟩
  · rw [hheap, List.length_append]
    exact Nat.le_add_right _ _
  · rintro on cb ((⟨k, hcb, rfl⟩ | ⟨e, r, rfl, htask⟩) | ⟨r, hf⟩)
    · obtain ⟨hk, hcb⟩ := hcallback k cb hcb
      exact .inl (.inl ⟨k, hcb, (hexecutor k hk).symm⟩)
    · exact .inl (.inr ⟨e, r, rfl, hpending ▸ htask⟩)
    · cases hfs _ hf
  · intro l cb hf
    exact Option.isNone_iff_eq_none.mp (hfs _ hf)
  · intro f hf
    cases f with
    | build l ops => cases hfs _ hf
    | set | subscribe | call | catchSetError => rfl

/-- The same, where nothing is allocated. -/
theorem keeps_heap (hheap : m'.heap = m.heap) (hpending : m'.pending = m.pending)
    (hinvoked : ∀ p on, (p, on) ∈ m'.invoked →
      (p, on) ∈ m.invoked ∨ ∃ cb r, .call cb r on ∈ F ∧ cb.stagePromise = some p)
    (hfs : ∀ f ∈ fs, f.isInert = true) : Keeps m F m' fs := by
  have happend : m'.heap = m.heap ++ [] := by rw [hheap, List.append_nil]
  exact keeps_inert happend (List.forall_mem_nil _) hpending hinvoked hfs

theorem mem_logInvoked {invokes : Bool} {p p' : Promise} {on on' : Option ι}
    (h : (p', on') ∈ (m.logInvoked invokes p on).invoked) :
    (p', on') ∈ m.invoked ∨ p' = p ∧ on' = on := by
  rcases List.mem_append.mp h with h | h
  · exact .inl h
  · cases invokes with
    | false => cases h
    | true =>
        cases List.mem_singleton.mp h
        exact .inr ⟨rfl, rfl⟩

/-- `callback(std::move(result))`: a stage's lambda logs its own promise, and what it subscribes to the
    inner future is no stage's lambda. -/
theorem keeps_call {W : Wheels V E X} {r : Result V E} {on : Option ι} {cb : Callback V E X}
    {raised : Option X} (hf : .call cb r on ∈ F) (h : call W m r on cb = (m', raised, fs)) :
    Keeps m F m' fs := by
  have hlog : ∀ {invokes : Bool} {p : Promise}, cb.stagePromise = some p → ∀ p' on',
      (p', on') ∈ (m.logInvoked invokes p on).invoked →
      (p', on') ∈ m.invoked ∨ ∃ cb r, .call cb r on' ∈ F ∧ cb.stagePromise = some p' := by
    intro invokes p hp p' on' h
    rcases mem_logInvoked h with h | ⟨rfl, rfl⟩
    · exact .inl h
    · exact .inr ⟨cb, r, hf, hp⟩
  cases cb with
  | transform s p =>
      simp only [call, callTransform] at h
      split at h
      · cases h
        exact keeps_heap rfl rfl (hlog rfl) (by simp [Frame.isInert])
      · split at h <;> cases h <;>
          exact keeps_heap rfl rfl (hlog rfl) (by simp [Frame.isInert])
  | asyncTransform s p =>
      simp only [call, callAsyncTransform] at h
      split at h <;> cases h
      · exact keeps_heap rfl rfl (hlog rfl) (by simp [Frame.isInert])
      · exact keeps_heap rfl rfl (hlog rfl)
          (by simp [Frame.isInert, Callback.stagePromise])
      · -- the future that `Failed` makes
        exact keeps_inert rfl (by simp) rfl (hlog rfl) (by simp [Frame.isInert, Callback.stagePromise])
  | forward p =>
      simp only [call] at h
      split at h <;> cases h <;>
        exact keeps_heap rfl rfl (fun _ _ => .inl) (by simp [Frame.isInert])
  | consumer body =>
      simp only [call] at h
      split at h <;> cases h <;>
        exact keeps_heap rfl rfl (fun _ _ => .inl) (by simp)

/-- A `catch` clause fulfils a promise; nothing else handles an exception. -/
theorem keeps_unwind (W : Wheels V E X) (x : X) (f : Frame V E X ι) : Keeps m F m (unwind W x f).2 := by
  refine keeps_heap rfl rfl (fun _ _ => .inl) ?_
  cases f with
  | catchSetError p => simp [unwind, Frame.isInert]
  | build | set | subscribe | call => exact List.forall_mem_nil _

/-- An executor calls the callback of a task. -/
theorem keeps_start {i : Nat} {e : ι} {cb : Callback V E X} {r : Result V E}
    (task : m.pending[i]? = some (e, cb, r)) :
    Keeps m F { m with pending := m.pending.eraseIdx i } [.call cb r (some e)] where
  length := Nat.le_refl _
  executorAt _ _ := rfl
  callbackAt _ _ := .inl
  held on cb' hcb := by
    rcases hcb with (hcb | ⟨e', r', rfl, htask⟩) | ⟨r', hf⟩
    · exact .inl (.inl hcb)
    · exact .inl (.inr ⟨e', r', rfl, List.mem_of_mem_eraseIdx htask⟩)
    · cases List.mem_singleton.mp hf
      exact .inl (.inr ⟨e, r, rfl, List.mem_of_getElem? task⟩)
  invoked _ _ := .inl
  subscribed l cb' hf := by cases List.mem_singleton.mp hf
  quiet f hf := by
    cases List.mem_singleton.mp hf
    rfl

/-- There is one building thread. -/
theorem Inv.alone (h : c.Inv m (.build l ops ::ₘ rest) places) : ∀ f ∈ rest, f.isBuild = false := by
  have hsingle := h.single
  have hzero : rest.countP (·.isBuild) = 0 := by
    rw [Multiset.countP_cons, if_pos (by rfl)] at hsingle
    omega
  intro f hf
  exact Bool.eq_false_iff.mpr (Multiset.countP_eq_zero.mp hzero f hf)

theorem single_cons (hrest : ∀ f ∈ rest, f.isBuild = false) (f : Frame V E X ι) :
    (f ::ₘ rest).countP (·.isBuild) ≤ 1 := by
  have hzero : rest.countP (·.isBuild) = 0 := by
    rw [Multiset.countP_eq_zero]
    intro f hf
    rw [hrest f hf]
    exact Bool.false_ne_true
  rw [Multiset.countP_cons, hzero]
  split <;> omega

/-- `Via` changes the executor of a future that has no stage's lambda in it. -/
theorem Inv.via {e : Option ι} (h : c.Inv m (.build l (.via e :: ops) ::ₘ rest) places) :
    c.Inv { m with heap := m.heap.modify l (·.setExecutor e) } (.build l ops ::ₘ rest) places := by
  obtain ⟨hlt, hfree, hexecutors⟩ := h.building l _ (Multiset.mem_cons_self _ _)
  have halone := h.alone
  generalize hm' : ({ m with heap := m.heap.modify l (·.setExecutor e) } : Memory V E X ι) = m'
  have hlength : m'.heap.length = m.heap.length := by rw [← hm', List.length_modify]
  have hget : ∀ k, m'.heap[k]? = (m.heap[k]?).map fun s => if l = k then s.setExecutor e else s := by
    intro k
    rw [← hm', List.getElem?_modify]
    rfl
  have hcallback : ∀ k, m'.callbackAt k = m.callbackAt k := by
    intro k
    rw [Memory.callbackAt, hget, Memory.callbackAt]
    by_cases hk : l = k <;> cases m.heap[k]? <;> simp [hk, SharedState.setExecutor]
  have hexecutor : ∀ k, k ≠ l → m'.executorAt k = m.executorAt k := by
    intro k hk
    rw [Memory.executorAt, hget, Memory.executorAt]
    cases m.heap[k]? <;> simp [Ne.symm hk]
  have hself : m'.executorAt l = e := by
    rw [Memory.executorAt, hget, List.getElem?_eq_getElem hlt]
    simp [SharedState.setExecutor]
  have hpending : m'.pending = m.pending := by rw [← hm']
  have hinvoked : m'.invoked = m.invoked := by rw [← hm']
  refine ⟨hlength ▸ h.first, h.nodup, hlength ▸ h.lt, ?_, ?_, ?_, hinvoked ▸ h.invoked, ?_,
    single_cons halone _⟩
  · rintro on cb (⟨k, hcb, rfl⟩ | ⟨e', r, rfl, htask⟩)
    · rw [hcallback] at hcb
      by_cases hk : k = l
      · subst hk
        exact .of_none (hfree cb hcb)
      · rw [hexecutor k hk]
        exact h.held _ cb (.inl ⟨k, hcb, rfl⟩)
    · exact h.held _ cb (.inr ⟨e', r, rfl, hpending ▸ htask⟩)
  · intro cb r on hf
    rcases Multiset.mem_cons.mp hf with hf | hf
    · cases hf
    · exact h.called cb r on (Multiset.mem_cons_of_mem hf)
  · intro k cb hf
    rcases Multiset.mem_cons.mp hf with hf | hf
    · cases hf
    · exact h.subscribed k cb (Multiset.mem_cons_of_mem hf)
  · intro k ops' hf
    rcases Multiset.mem_cons.mp hf with hf | hf
    · cases hf
      refine ⟨hlength ▸ hlt, fun cb hcb => hfree cb (hcallback l ▸ hcb), ?_⟩
      rw [hexecutors, hself]
      rfl
    · cases halone _ hf

/-- **A stage is attached.** Its lambda is subscribed with the executor that its own future gets. -/
theorem Inv.attach {op : Op V E X ι} {cb : Callback V E X} (h : c.Inv m (.build l (op :: ops) ::ₘ rest) places)
    (hcb : cb.stagePromise = some ⟨some m.heap.length⟩)
    (hops : ∀ on, executorsFrom on (op :: ops) = on :: executorsFrom on ops)
    (hserved : (m.alloc (m.executorAt l)).Served (· = cb) l m' fs) :
    c.Inv m' (.build m.heap.length ops ::ₘ (rest + fs)) (places ++ [m.heap.length]) := by
  obtain ⟨hlt, hfree, hexecutors⟩ := h.building l _ (Multiset.mem_cons_self _ _)
  have halone := h.alone
  have hlength : m'.heap.length = m.heap.length + 1 := by
    rw [hserved.length, Memory.alloc, List.length_append, List.length_singleton]
  rw [hops] at hexecutors
  -- the new promise is that of the next stage
  have hplace : c.RunsOn (places ++ [m.heap.length]) ⟨some m.heap.length⟩ (m.executorAt l) := by
    refine .stage (j := places.length) List.getElem?_concat_length ?_
    rw [← Nat.add_zero places.length, ← List.getElem?_drop, hexecutors]
    rfl
  have hfits : ∀ {on : Option ι} {cb' : Callback V E X},
      (m'.Holds on cb' ∨ ∃ r, .call cb' r on ∈ fs) → c.Fits (places ++ [m.heap.length]) on cb' := by
    intro on cb' hcb'
    rcases hserved.holds hcb' with hheld | ⟨rfl, rfl⟩
    · exact (h.held on cb' (Memory.holds_alloc hheld)).append _
    · intro p hp
      rw [hcb] at hp
      cases hp
      rw [Memory.executorAt_alloc_of_lt hlt]
      exact hplace
  have hquiet : ∀ f ∈ rest + (fs : Multiset (Frame V E X ι)), f.isBuild = false := by
    intro f hf
    rcases Multiset.mem_add.mp hf with hf | hf
    · exact halone f hf
    · obtain ⟨cb', r, rfl, -⟩ := hserved.frames f hf
      rfl
  refine ⟨?_, ?_, ?_, fun on cb' hcb' => hfits (.inl hcb'), ?_, ?_, ?_, ?_, single_cons hquiet _⟩
  · refine ⟨by omega, fun hmem => ?_⟩
    rcases List.mem_append.mp hmem with hmem | hmem
    · exact h.first.2 hmem
    · exact absurd (List.mem_singleton.mp hmem) h.first.1.ne
  · refine h.nodup.append (List.nodup_singleton _) (List.disjoint_singleton.mpr fun hmem => ?_)
    exact (h.lt _ hmem).ne rfl
  · intro k hk
    rw [hlength]
    rcases List.mem_append.mp hk with hk | hk
    · exact (h.lt k hk).trans (Nat.lt_succ_self _)
    · exact List.mem_singleton.mp hk ▸ Nat.lt_succ_self _
  · intro cb' r on hf
    rcases Multiset.mem_cons.mp hf with hf | hf
    · cases hf
    rcases Multiset.mem_add.mp hf with hf | hf
    · exact (h.called cb' r on (Multiset.mem_cons_of_mem hf)).append _
    · exact hfits (.inr ⟨r, hf⟩)
  · intro k cb' hf
    rcases Multiset.mem_cons.mp hf with hf | hf
    · cases hf
    rcases Multiset.mem_add.mp hf with hf | hf
    · exact h.subscribed k cb' (Multiset.mem_cons_of_mem hf)
    · obtain ⟨_, _, hf, -⟩ := hserved.frames _ hf
      cases hf
  · intro p on hp
    rw [hserved.invoked] at hp
    exact (h.invoked p on hp).append _
  · intro k ops' hf
    rcases Multiset.mem_cons.mp hf with hf | hf
    · cases hf
      refine ⟨hlength.symm ▸ Nat.lt_succ_self _, fun cb' hcb' => ?_, ?_⟩
      · -- the new future is fresh
        rcases hserved.callbackAt _ cb' hcb' with hcb' | ⟨hl, -⟩
        · exact absurd (Memory.lt_of_callbackAt (Memory.callbackAt_alloc _ _ ▸ hcb')) (Nat.lt_irrefl _)
        · exact absurd hlt hl.not_gt
      · rw [hserved.executorAt, Memory.executorAt_alloc_self, List.length_append, List.length_singleton,
          ← List.drop_drop, hexecutors]
        rfl
    · cases hquiet _ hf

theorem opened_of_not_build {f : Frame V E X ι} (h : f.isBuild = false) : f.opened m m' = [] := by
  cases f with
  | build l ops => cases h
  | set | subscribe | call | catchSetError => rfl

/-- Nothing is attached by a step that allocates nothing. -/
theorem opened_of_length {f : Frame V E X ι} (h : m'.heap.length = m.heap.length) : f.opened m m' = [] := by
  cases f with
  | build l ops =>
      rw [Frame.opened, if_neg]
      rw [h]
      exact Nat.lt_irrefl _
  | set | subscribe | call | catchSetError => rfl

theorem opened_attach {on : Option ι} {New : Callback V E X → Prop} (h : (m.alloc on).Served New l m' fs) :
    (Frame.build l ops : Frame V E X ι).opened m m' = [m.heap.length] := by
  rw [Frame.opened, if_pos]
  rw [h.length, Memory.alloc, List.length_append]
  exact Nat.lt_succ_self _

/-- **Every call keeps the invariant.** -/
theorem Inv.exec {W : Wheels V E X} {f : Frame V E X ι} {raised : Option X} (h : c.Inv m (f ::ₘ rest) places)
    (he : exec W m f = .ok (m', raised, fs)) : c.Inv m' (rest + fs) (places ++ f.opened m m') := by
  have hrest : rest ≤ f ::ₘ rest := Multiset.le_cons_self rest f
  cases f with
  | build l ops =>
      cases ops with
      | nil =>
          cases he
          rw [opened_of_length rfl, List.append_nil]
          exact h.keeps hrest (keeps_heap rfl rfl (fun _ _ => .inl) (List.forall_mem_nil _))
      | cons op ops =>
          obtain ⟨⟨m'', fs'⟩, hbuild, heq⟩ := Except.exists_of_map he
          cases heq
          cases op with
          | via e =>
              cases hbuild
              rw [opened_of_length (List.length_modify _ _ _), List.append_nil, add_comm]
              exact h.via
          | stage s | asyncStage s =>
              obtain ⟨⟨m'', fs'⟩, hsub, heq⟩ := Except.exists_of_map hbuild
              cases heq
              have hserved := Memory.served_subscribe hsub
              rw [opened_attach hserved, ← Multiset.coe_add, ← add_assoc, add_comm]
              exact h.attach rfl (fun _ => rfl) hserved
          | subscribe body =>
              have hserved := Memory.served_subscribe hbuild
              rw [opened_of_length hserved.length, List.append_nil]
              exact h.keeps hrest (keeps_served hserved (by rintro _ rfl; rfl))
  | set p r =>
      rw [opened_of_not_build rfl, List.append_nil]
      obtain ⟨_ | l⟩ := p
      · cases he
      · obtain ⟨⟨m'', fs'⟩, hset, heq⟩ := Except.exists_of_map he
        cases heq
        exact h.keeps hrest (keeps_served (Memory.served_setResult hset) (fun _ hfalse => hfalse.elim))
  | subscribe l cb =>
      rw [opened_of_not_build rfl, List.append_nil]
      obtain ⟨⟨m'', fs'⟩, hsub, heq⟩ := Except.exists_of_map he
      cases heq
      have hcb := h.subscribed l cb (Multiset.mem_cons_self _ _)
      exact h.keeps hrest (keeps_served (Memory.served_subscribe hsub) (by rintro _ rfl; exact hcb))
  | call cb r on =>
      rw [opened_of_not_build rfl, List.append_nil]
      exact h.keeps hrest (keeps_call (Multiset.mem_cons_self _ _) (Except.ok.inj he))
  | catchSetError p =>
      cases he
      rw [opened_of_not_build rfl, List.append_nil]
      exact h.keeps hrest (keeps_heap rfl rfl (fun _ _ => .inl) (List.forall_mem_nil _))

end Steps

/-! ## All runs -/

variable {W : Wheels V E X} {c : Composed V E X ι}

/-- Who fulfils what at the start. -/
theorem machine_frames (W : Wheels V E X) (c : Composed V E X ι) :
    ∃ rest, (c.machine W).frames = .build firstLoc c.program ::ₘ rest ∧ ∀ f ∈ rest, ∃ p r, f = .set p r := by
  refine ⟨((c.producers.map Thread.stack).flatten : List (Frame V E X ι)), rfl, ?_⟩
  intro f hf
  obtain ⟨stk, hstk, hf⟩ := List.mem_flatten.mp hf
  obtain ⟨t, ht, rfl⟩ := List.mem_map.mp hstk
  rcases List.mem_append.mp ht with ht | ht
  · cases hsource : c.source with
    | contract r =>
        rw [hsource] at ht
        cases List.mem_singleton.mp ht
        exact ⟨_, _, List.mem_singleton.mp hf⟩
    | completed | failed | asyncVia =>
        rw [hsource] at ht
        cases ht
  · obtain ⟨k, hk, rfl⟩ := List.mem_mapIdx.mp ht
    exact ⟨_, _, List.mem_singleton.mp hf⟩

theorem callbackAt_machine (W : Wheels V E X) (c : Composed V E X ι) (k : Loc) :
    (c.machine W).mem.callbackAt k = none := by
  rw [Memory.callbackAt, Option.bind_eq_none_iff]
  intro s hs
  rcases List.mem_cons.mp (List.mem_of_getElem? hs) with rfl | hs
  · cases c.source <;> rfl
  · obtain ⟨i, -, rfl⟩ := List.mem_map.mp hs
    rfl

theorem inv_machine (W : Wheels V E X) (c : Composed V E X ι) :
    c.Inv (c.machine W).mem (c.machine W).frames [] := by
  obtain ⟨rest, hframes, hrest⟩ := machine_frames W c
  have hset : ∀ f ∈ (c.machine W).frames, f = .build firstLoc c.program ∨ ∃ p r, f = .set p r := by
    intro f hf
    rw [hframes] at hf
    exact (Multiset.mem_cons.mp hf).imp_right (hrest f)
  refine ⟨⟨Nat.succ_pos _, List.not_mem_nil⟩, List.nodup_nil, nofun, ?_, ?_, ?_, nofun, ?_, ?_⟩
  · rintro on cb (⟨k, hcb, -⟩ | ⟨e, r, rfl, htask⟩)
    · rw [callbackAt_machine] at hcb
      cases hcb
    · cases hsource : c.source with
      | asyncVia e' target =>
          have htask : (e, cb, r) ∈ c.source.tasks W := htask
          rw [hsource] at htask
          cases List.mem_singleton.mp htask
          rintro p ⟨⟩
          exact .target hsource
      | contract | completed | failed =>
          have htask : (e, cb, r) ∈ c.source.tasks W := htask
          rw [hsource] at htask
          cases htask
  · intro cb r on hf
    obtain hf | ⟨p, r, hf⟩ := hset _ hf <;> cases hf
  · intro l cb hf
    obtain hf | ⟨p, r, hf⟩ := hset _ hf <;> cases hf
  · intro l ops hf
    obtain hf | ⟨p, r, hf⟩ := hset _ hf <;> cases hf
    refine ⟨Nat.succ_pos _, fun cb hcb => ?_, ?_⟩
    · rw [callbackAt_machine] at hcb
      cases hcb
    · have hnone : (c.machine W).mem.executorAt firstLoc = none := by
        show c.source.state.executor = none
        cases c.source <;> rfl
      rw [hnone]
      rfl
  · rw [hframes]
    refine single_cons ?_ _
    intro f hf
    obtain ⟨p, r, rfl⟩ := hrest f hf
    rfl

/-- **Every step keeps the invariant.** -/
theorem Inv.next {s s' : Traced V E X ι} {a : Action} (h : c.Inv s.machine.mem s.machine.frames s.places)
    (hnext : s.next W a = some s') : c.Inv s'.machine.mem s'.machine.frames s'.places := by
  obtain ⟨m', hm', rfl⟩ := Option.map_eq_some_iff.mp hnext
  cases a with
  | start i =>
      show c.Inv m'.mem m'.frames (s.places ++ [])
      rw [List.append_nil]
      simp only [Machine.next] at hm'
      split at hm'
      · cases hm'
      · obtain ⟨⟨e, cb, r⟩, htask, rfl⟩ := Option.map_eq_some_iff.mp hm'
        rw [frames_append]
        exact h.keeps le_rfl (keeps_start htask)
  | thread i =>
      obtain ⟨-, raised, f, stk, ht, hstep⟩ := next_thread hm'
      have hopened : Traced.opened s.machine m' (.thread i) = f.opened s.machine.mem m'.mem := by
        simp only [Traced.opened, ht]
      show c.Inv m'.mem m'.frames (s.places ++ Traced.opened s.machine m' (.thread i))
      rw [hopened]
      cases raised with
      | some x =>
          have hm' := Option.some.inj hstep
          have hmem : m'.mem = s.machine.mem := by rw [← hm']
          obtain ⟨rest, hframes, hframes'⟩ := exists_frames_rest m' ht (by rw [← hm'])
          rw [hframes', hmem, opened_of_length rfl, List.append_nil]
          exact h.keeps (hframes ▸ Multiset.le_cons_self rest f) (keeps_unwind W x f)
      | none =>
          simp only [stepThread] at hstep
          split at hstep
          · obtain rfl := Option.some.inj hstep
            rw [opened_of_length rfl, List.append_nil]
            exact h
          · next mem raised fs he =>
              have hm' := Option.some.inj hstep
              have hmem : m'.mem = mem := by rw [← hm']
              obtain ⟨rest, hframes, hframes'⟩ := exists_frames_rest m' ht (by rw [← hm'])
              rw [hframes', hmem]
              rw [hframes] at h
              exact h.exec he

/-- **Placement.** In every run, whatever the order in which the chain is built, the source and the inner
    futures are fulfilled, and the tasks are started: a callable that is invoked runs where it is to run, by
    the last `Via` before its stage in the chain, and that is never an executor of an inner future unless the
    chain names it too. -/
theorem stages_placed (W : Wheels V E X) (c : Composed V E X ι) {s : Traced V E X ι}
    (h : (c.system W).Reachable s) :
    (∀ p on, (p, on) ∈ s.machine.mem.invoked → c.RunsOn s.places p on) ∧
    (∀ p e, (p, some e) ∈ s.machine.mem.invoked → .via (some e) ∈ c.program) ∧
    s.places.Nodup ∧ firstLoc ∉ s.places := by
  have hinv : c.Inv s.machine.mem s.machine.frames s.places :=
    h.invariant_next (P := fun s => c.Inv s.machine.mem s.machine.frames s.places) (inv_machine W c)
      fun _ _ _ hs hnext => hs.next hnext
  exact ⟨hinv.invoked, fun p e hp => (hinv.invoked p _ hp).via, hinv.nodup, hinv.first.2⟩

/-- A chain on executor 7, with an inner future on executor 9. -/
def onSeven : Composed Nat Unit Unit Nat where
  source := .contract (.ok 1)
  calls := [.via (some 7), .stage (.then_ fun v => .ok (v + 1)), .asyncStage (.then_ fun _ => .ok 1),
    .stage (.then_ fun v => .ok (v + 1))]
  inner := [(some 9, .ok 5)]

/-- The stage after the asynchronous one runs on the executor of the chain. -/
theorem stages_placed_onSeven :
    ∃ s, (onSeven.system (.exceptionPtr Nat Unit)).Reachable s ∧
      s.machine.mem.invoked = [(⟨some 2⟩, some 7), (⟨some 3⟩, some 7), (⟨some 4⟩, some 7)] ∧
      onSeven.RunsOn s.places ⟨some 4⟩ (some 7) := by
  have hrun : ∃ s, System.run (Traced.next (.exceptionPtr Nat Unit)) ⟨onSeven.machine (.exceptionPtr Nat Unit), []⟩
      [.thread 2, .thread 0, .thread 0, .thread 0, .thread 0, .thread 0, .thread 1, .start 0, .thread 3,
        .thread 3, .start 0, .thread 4, .thread 4, .start 0, .thread 5, .thread 5, .start 0,
        .thread 6] = some s ∧
      s.machine.mem.invoked = [(⟨some 2⟩, some 7), (⟨some 3⟩, some 7), (⟨some 4⟩, some 7)] := ⟨_, rfl, rfl⟩
  obtain ⟨s, hrun, hinvoked⟩ := hrun
  have hs := System.reachable_of_run _ hrun
  refine ⟨s, hs, hinvoked, (stages_placed _ onSeven hs).1 _ _ ?_⟩
  rw [hinvoked]
  simp

end Composed

end Futures
end Tpcc
