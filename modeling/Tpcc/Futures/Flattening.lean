import Tpcc.Futures.Flatten

/-!
# `Futures.Flattening` — the runs of an asynchronous stage

When a stage works (`Flatten.works`), its three shared states go through their phases, each at its own
pace but in an order: the inner future is subscribed to after the stage's lambda has run, and the output
is set after that lambda, or the one subscribed to the inner future, has. `Net` says that the memory and
the calls in progress are determined by the three phases, and there is one lemma for each frame that can run.

When it does not work, one run shows it: the callbacks are subscribed before their results arrive, or the inner future
is there first and the output's subscriber throws.
-/

namespace Tpcc
namespace Futures
namespace Flatten

open Transition Futures.Machine

variable {V E X ι : Type}

/-! ## The invariant -/

def phases (p₀ p₁ p₂ : Phase ι) : Loc → Phase ι
  | 0 => p₀
  | 1 => p₁
  | 2 => p₂
  | _ => .fresh

theorem update_phases_source (p₀ p₁ p₂ p : Phase ι) :
    Function.update (phases p₀ p₁ p₂) 0 p = phases p p₁ p₂ := by
  funext l
  match l with
  | 0 | 1 | 2 | _ + 3 => rfl

theorem update_phases_inner (p₀ p₁ p₂ p : Phase ι) :
    Function.update (phases p₀ p₁ p₂) 1 p = phases p₀ p p₂ := by
  funext l
  match l with
  | 0 | 1 | 2 | _ + 3 => rfl

theorem update_phases_output (p₀ p₁ p₂ p : Phase ι) :
    Function.update (phases p₀ p₁ p₂) 2 p = phases p₀ p₁ p := by
  funext l
  match l with
  | 0 | 1 | 2 | _ + 3 => rfl

/-- The shared state whose callback fulfils the output. -/
def feeder (F : Flatten V E X) (p₀ p₁ : Phase ι) : Phase ι := if F.returns then p₁ else p₀

theorem feeder_isPast {F : Flatten V E X} {p₀ p₁ p₀' p₁' : Phase ι} (h₀ : p₀'.isPast = p₀.isPast)
    (h₁ : p₁'.isPast = p₁.isPast) : (F.feeder p₀' p₁').isPast = (F.feeder p₀ p₁).isPast := by
  unfold feeder
  split
  · exact h₁
  · exact h₀

def todo (done : Bool) (f : Frame V E X ι) : Multiset (Frame V E X ι) := if done then 0 else {f}

@[simp] theorem todo_true (f : Frame V E X ι) : todo true f = 0 := rfl

@[simp] theorem todo_false (f : Frame V E X ι) : todo false f = {f} := rfl

theorem mem_todo {done : Bool} {f g : Frame V E X ι} (h : g ∈ todo done f) : done = false ∧ g = f := by
  cases done with
  | true => cases Multiset.notMem_zero g h
  | false => exact ⟨rfl, Multiset.mem_singleton.mp h⟩

/-- What the building thread has left. -/
def buildFrames (F : Flatten V E X) : Bool → Bool → Multiset (Frame V E X ι)
  | false, _ => {.build sourceLoc [.asyncStage F.callable.stage, .subscribe F.consumer]}
  | true, built => todo built (.build outputLoc [.subscribe F.consumer])

/-- The calls in progress; `q` is 1 while the `try` block of the stage's lambda is open. -/
def framesAt (F : Flatten V E X) (toError : X → E) (p₀ p₁ p₂ : Phase ι) (q : Nat) :
    Multiset (Frame V E X ι) :=
  F.buildFrames p₀.isSubscribed p₂.isSubscribed +
  todo p₀.isSet (.set ⟨some sourceLoc⟩ (F.result toError sourceLoc)) +
  todo p₁.isSet (.set ⟨some innerLoc⟩ (F.result toError innerLoc)) +
  todo (!(F.returns && p₀.isPast) || p₁.isSubscribed) (.subscribe innerLoc (F.callback innerLoc)) +
  todo (!(F.feeder p₀ p₁).isPast || p₂.isSet) (.set ⟨some outputLoc⟩ (F.result toError outputLoc)) +
  ((p₀.frames (F.callback sourceLoc) (F.result toError sourceLoc) : Multiset (Frame V E X ι)) +
    (p₁.frames (F.callback innerLoc) (F.result toError innerLoc) : Multiset (Frame V E X ι)) +
    (p₂.frames (F.callback outputLoc) (F.result toError outputLoc) : Multiset (Frame V E X ι))) +
  Multiset.replicate q (Frame.catchSetError ⟨none⟩)

/-- How many steps are left at most. -/
def rankAt (p₀ p₁ p₂ : Phase ι) (q : Nat) : Nat := 2 * p₀.rank + p₁.rank + p₂.rank + q

/-- The memory, when the three shared states are in these phases. -/
structure Net (F : Flatten V E X) (toError : X → E) (m : Memory V E X ι) (p₀ p₁ p₂ : Phase ι) :
    Prop where
  heap : HeapAt F.callback (F.result toError) (phases p₀ p₁ p₂) m.heap
  length : m.heap.length = if p₀.isSubscribed then 3 else 2
  built : p₂.isSubscribed = true → p₀.isSubscribed = true
  opened : p₁.isSubscribed = true → F.returns = true ∧ p₀.isPast = true
  fed : p₂.isSet = true → (F.feeder p₀ p₁).isPast = true
  pending : (m.pending : Multiset (ι × Callback V E X × Result V E)) =
    (p₀.tasks (F.callback sourceLoc) (F.result toError sourceLoc) : Multiset _) +
    (p₁.tasks (F.callback innerLoc) (F.result toError innerLoc) : Multiset _) +
    (p₂.tasks (F.callback outputLoc) (F.result toError outputLoc) : Multiset _)
  output : m.setsAt outputLoc = if p₂.isSet then [F.expected toError] else []
  invoked : m.invocations ⟨some outputLoc⟩ = if p₀.isPast then 1 else 0
  consumed : m.consumed = if p₂.isPast then [F.expected toError] else []

/-- Frame `f` runs without a failed check, and leaves the memory and the calls that some phases
    determine. A `try` block is opened only for the inner future, and an exception is raised only where no call is
    left that it could leave. -/
def Progress (W : Wheels V E X) (F : Flatten V E X) (m : Memory V E X ι) (p₀ p₁ p₂ : Phase ι) (q : Nat)
    (f : Frame V E X ι) : Prop :=
  ∃ m' raised fs p₀' p₁' p₂' q', exec W m f = .ok (m', raised, fs) ∧ Net F W.toError m' p₀' p₁' p₂' ∧
    F.framesAt W.toError p₀ p₁ p₂ q + fs = F.framesAt W.toError p₀' p₁' p₂' q' + {f} ∧
    rankAt p₀' p₁' p₂' q' < rankAt p₀ p₁ p₂ q ∧ (q' ≤ q ∨ F.returns = true) ∧
    (raised = none ∨ fs = [] ∧ ∀ g ∈ F.framesAt W.toError p₀' p₁' p₂' q', g.isCaller = false)

/-! ## One case for each frame -/

section Exec

variable {W : Wheels V E X} {F : Flatten V E X} {m : Memory V E X ι} {p₀ p₁ p₂ : Phase ι} {q : Nat}

/-- The source arrives. -/
theorem Net.exec_setSource (h : Net F W.toError m p₀ p₁ p₂) (hset : p₀.isSet = false) :
    Progress W F m p₀ p₁ p₂ q (.set ⟨some sourceLoc⟩ (F.result W.toError sourceLoc)) := by
  have hlt : sourceLoc < m.heap.length := by
    rw [h.length]
    split <;> decide
  obtain ⟨heap', hmem, hheap, hex⟩ := h.heap.setResult hlt hset
  rw [update_phases_source] at hheap
  have hlength : heap'.length = m.heap.length := by simpa using congrArg List.length hex
  obtain ⟨hframes, htasks⟩ := Phase.idle_of_not_set hset (F.callback sourceLoc)
    (F.result W.toError sourceLoc)
  refine ⟨_, none, _, p₀.set (m.executorAt sourceLoc), p₁, p₂, q,
    exec_set hmem, ?_, ?_, ?_, .inl (Nat.le_refl q), .inl rfl⟩
  · exact
      { heap := hheap
        length := by rw [Phase.set_isSubscribed, ← h.length, ← hlength]
        built := by rw [Phase.set_isSubscribed]; exact h.built
        opened := by rw [Phase.set_isPast]; exact h.opened
        fed := by rw [feeder_isPast (Phase.set_isPast _ _) rfl]; exact h.fed
        pending := by
          rw [← Multiset.coe_add, h.pending, htasks, Multiset.coe_nil]
          simp only [phases]
          abel
        output := by
          rw [← h.output]
          exact (Memory.setsAt_append _ _ _ _).trans (List.append_nil _)
        invoked := by rw [Phase.set_isPast]; exact h.invoked
        consumed := h.consumed }
  · simp only [framesAt, feeder_isPast (Phase.set_isPast _ p₀) rfl, Phase.set_isSubscribed,
      Phase.set_isSet, Phase.set_isPast, hset, hframes, todo_true, todo_false, phases, Multiset.coe_nil]
    abel
  · have hrank := Phase.set_rank (m.executorAt sourceLoc) hset
    simp only [rankAt]
    omega

/-- The inner result arrives. -/
theorem Net.exec_setInner (h : Net F W.toError m p₀ p₁ p₂) (hset : p₁.isSet = false) :
    Progress W F m p₀ p₁ p₂ q (.set ⟨some innerLoc⟩ (F.result W.toError innerLoc)) := by
  have hlt : innerLoc < m.heap.length := by
    rw [h.length]
    split <;> decide
  obtain ⟨heap', hmem, hheap, hex⟩ := h.heap.setResult hlt hset
  rw [update_phases_inner] at hheap
  have hlength : heap'.length = m.heap.length := by simpa using congrArg List.length hex
  obtain ⟨hframes, htasks⟩ := Phase.idle_of_not_set hset (F.callback innerLoc)
    (F.result W.toError innerLoc)
  refine ⟨_, none, _, p₀, p₁.set (m.executorAt innerLoc), p₂, q,
    exec_set hmem, ?_, ?_, ?_, .inl (Nat.le_refl q), .inl rfl⟩
  · exact
      { heap := hheap
        length := by rw [← h.length, ← hlength]
        built := h.built
        opened := by rw [Phase.set_isSubscribed]; exact h.opened
        fed := by rw [feeder_isPast rfl (Phase.set_isPast _ _)]; exact h.fed
        pending := by
          rw [← Multiset.coe_add, h.pending, htasks, Multiset.coe_nil]
          simp only [phases]
          abel
        output := by
          rw [← h.output]
          exact (Memory.setsAt_append _ _ _ _).trans (List.append_nil _)
        invoked := h.invoked
        consumed := h.consumed }
  · simp only [framesAt, feeder_isPast rfl (Phase.set_isPast _ p₁), Phase.set_isSubscribed,
      Phase.set_isSet, hset, hframes, todo_true, todo_false, phases, Multiset.coe_nil]
    abel
  · have hrank := Phase.set_rank (m.executorAt innerLoc) hset
    simp only [rankAt]
    omega

theorem Net.isSubscribed_of_fed (h : Net F W.toError m p₀ p₁ p₂)
    (hfed : (F.feeder p₀ p₁).isPast = true) : p₀.isSubscribed = true := by
  unfold feeder at hfed
  split at hfed
  · exact Phase.isSubscribed_of_isPast (h.opened (Phase.isSubscribed_of_isPast hfed)).2
  · exact Phase.isSubscribed_of_isPast hfed

/-- The output is fulfilled. -/
theorem Net.exec_setOutput (h : Net F W.toError m p₀ p₁ p₂)
    (hfed : (F.feeder p₀ p₁).isPast = true) (hset : p₂.isSet = false) :
    Progress W F m p₀ p₁ p₂ q (.set ⟨some outputLoc⟩ (F.result W.toError outputLoc)) := by
  have hlt : outputLoc < m.heap.length := by
    rw [h.length, if_pos (h.isSubscribed_of_fed hfed)]
    decide
  obtain ⟨heap', hmem, hheap, hex⟩ := h.heap.setResult hlt hset
  rw [update_phases_output] at hheap
  have hlength : heap'.length = m.heap.length := by simpa using congrArg List.length hex
  obtain ⟨hframes, htasks⟩ := Phase.idle_of_not_set hset (F.callback outputLoc)
    (F.result W.toError outputLoc)
  have houtput : m.setsAt outputLoc = [] := by rw [h.output, hset]; rfl
  refine ⟨_, none, _, p₀, p₁, p₂.set (m.executorAt outputLoc), q,
    exec_set hmem, ?_, ?_, ?_, .inl (Nat.le_refl q), .inl rfl⟩
  · exact
      { heap := hheap
        length := by rw [← h.length, ← hlength]
        built := by rw [Phase.set_isSubscribed]; exact h.built
        opened := h.opened
        fed := fun _ => hfed
        pending := by
          rw [← Multiset.coe_add, h.pending, htasks, Multiset.coe_nil]
          simp only [phases]
          abel
        output := by
          rw [Phase.set_isSet, if_pos rfl]
          refine (Memory.setsAt_append _ _ _ _).trans ?_
          simp only [Memory.setsAt] at houtput ⊢
          rw [houtput]
          rfl
        invoked := h.invoked
        consumed := by rw [Phase.set_isPast]; exact h.consumed }
  · simp only [framesAt, hfed, Phase.set_isSubscribed, Phase.set_isSet, hset, hframes, todo_true,
      todo_false, phases, Multiset.coe_nil, Bool.not_true, Bool.false_or]
    abel
  · have hrank := Phase.set_rank (m.executorAt outputLoc) hset
    simp only [rankAt]
    omega

/-- The stage's lambda subscribes to the inner future. -/
theorem Net.exec_subscribeInner (h : Net F W.toError m p₀ p₁ p₂) (hret : F.returns = true)
    (hpast : p₀.isPast = true) (hsub : p₁.isSubscribed = false) :
    Progress W F m p₀ p₁ p₂ q (.subscribe innerLoc (F.callback innerLoc)) := by
  have hlt : innerLoc < m.heap.length := by
    rw [h.length]
    split <;> decide
  obtain ⟨heap', hmem, hheap, hex⟩ := h.heap.subscribe hlt hsub
  rw [update_phases_inner] at hheap
  have hlength : heap'.length = m.heap.length := by simpa using congrArg List.length hex
  obtain ⟨hframes, htasks⟩ := Phase.idle_of_not_subscribed hsub (F.callback innerLoc)
    (F.result W.toError innerLoc)
  refine ⟨_, none, _, p₀, p₁.subscribe (m.executorAt innerLoc), p₂, q,
    exec_subscribe hmem, ?_, ?_, ?_, .inl (Nat.le_refl q), .inl rfl⟩
  · exact
      { heap := hheap
        length := by rw [← h.length, ← hlength]
        built := h.built
        opened := fun _ => ⟨hret, hpast⟩
        fed := by rw [feeder_isPast rfl (Phase.subscribe_isPast _ _)]; exact h.fed
        pending := by
          rw [← Multiset.coe_add, h.pending, htasks, Multiset.coe_nil]
          simp only [phases]
          abel
        output := h.output
        invoked := h.invoked
        consumed := h.consumed }
  · simp only [framesAt, feeder_isPast rfl (Phase.subscribe_isPast _ p₁),
      Phase.subscribe_isSubscribed, Phase.subscribe_isSet, hret, hpast, hsub, hframes, todo_true,
      todo_false, phases, Multiset.coe_nil, Bool.and_self, Bool.not_true, Bool.false_or]
    abel
  · have hrank := Phase.subscribe_rank (m.executorAt innerLoc) hsub
    simp only [rankAt]
    omega

/-- The building thread makes the stage. -/
theorem Net.exec_buildStage (h : Net F W.toError m p₀ p₁ p₂) (hsub : p₀.isSubscribed = false) :
    Progress W F m p₀ p₁ p₂ q
      (.build sourceLoc [.asyncStage F.callable.stage, .subscribe F.consumer]) := by
  have hlength : m.heap.length = 2 := by rw [h.length, hsub]; rfl
  -- nothing has happened at the output yet
  have hnset : p₂.isSet = false := by
    by_contra hs
    rw [h.isSubscribed_of_fed (h.fed (Bool.not_eq_false _ ▸ hs))] at hsub
    cases hsub
  have hnsub : p₂.isSubscribed = false := by
    by_contra hs
    rw [h.built (Bool.not_eq_false _ ▸ hs)] at hsub
    cases hsub
  have hheap := h.heap.append (by rw [hlength]; exact Phase.eq_fresh hnset hnsub)
    (m.executorAt sourceLoc)
  obtain ⟨heap', hmem, hheap', hex⟩ :=
    hheap.subscribe (m := m.alloc (m.executorAt sourceLoc)) (l := sourceLoc)
      (by simp [Memory.alloc]) hsub
  rw [update_phases_source] at hheap'
  generalize (m.alloc (m.executorAt sourceLoc)).executorAt sourceLoc = ex at hmem hheap'
  have hlength' : heap'.length = 3 := by
    simpa [Memory.alloc, hlength] using congrArg List.length hex
  obtain ⟨hframes, htasks⟩ := Phase.idle_of_not_subscribed hsub (F.callback sourceLoc)
    (F.result W.toError sourceLoc)
  have hexec : exec W m
      (.build sourceLoc [.asyncStage F.callable.stage, .subscribe F.consumer]) = .ok _ :=
    exec_build_asyncStage (by rw [hlength]; exact hmem)
  rw [hlength] at hexec
  refine ⟨_, none, _, p₀.subscribe ex, p₁, p₂, q, hexec, ?_, ?_, ?_, .inl (Nat.le_refl q), .inl rfl⟩
  · exact
      { heap := hheap'
        length := by rw [Phase.subscribe_isSubscribed]; exact hlength'
        built := fun _ => Phase.subscribe_isSubscribed _ _
        opened := by rw [Phase.subscribe_isPast]; exact h.opened
        fed := by rw [feeder_isPast (Phase.subscribe_isPast _ _) rfl]; exact h.fed
        pending := by
          rw [← Multiset.coe_add]
          simp only [Memory.alloc, phases, h.pending, htasks, Multiset.coe_nil]
          abel
        output := h.output
        invoked := by rw [Phase.subscribe_isPast]; exact h.invoked
        consumed := h.consumed }
  · rw [← Multiset.coe_add]
    simp only [framesAt, feeder_isPast (Phase.subscribe_isPast _ p₀) rfl, buildFrames,
      Phase.subscribe_isSubscribed, Phase.subscribe_isSet, Phase.subscribe_isPast, hsub, hnsub, hframes,
      todo_false, phases, Multiset.coe_nil, Multiset.coe_singleton]
    abel
  · have hrank := Phase.subscribe_rank ex hsub
    simp only [rankAt]
    omega

/-- The building thread subscribes to the output. -/
theorem Net.exec_buildSubscribe (h : Net F W.toError m p₀ p₁ p₂) (hbuilt : p₀.isSubscribed = true)
    (hsub : p₂.isSubscribed = false) :
    Progress W F m p₀ p₁ p₂ q (.build outputLoc [.subscribe F.consumer]) := by
  have hlt : outputLoc < m.heap.length := by
    rw [h.length, if_pos hbuilt]
    decide
  obtain ⟨heap', hmem, hheap, hex⟩ := h.heap.subscribe hlt hsub
  rw [update_phases_output] at hheap
  have hlength : heap'.length = m.heap.length := by simpa using congrArg List.length hex
  obtain ⟨hframes, htasks⟩ := Phase.idle_of_not_subscribed hsub (F.callback outputLoc)
    (F.result W.toError outputLoc)
  refine ⟨_, none, _, p₀, p₁, p₂.subscribe (m.executorAt outputLoc), q,
    exec_build_subscribe hmem, ?_, ?_, ?_, .inl (Nat.le_refl q), .inl rfl⟩
  · exact
      { heap := hheap
        length := by rw [← h.length, ← hlength]
        built := fun _ => hbuilt
        opened := h.opened
        fed := by rw [Phase.subscribe_isSet]; exact h.fed
        pending := by
          rw [← Multiset.coe_add, h.pending, htasks, Multiset.coe_nil]
          simp only [phases]
          abel
        output := by rw [Phase.subscribe_isSet]; exact h.output
        invoked := h.invoked
        consumed := by rw [Phase.subscribe_isPast]; exact h.consumed }
  · simp only [framesAt, buildFrames, hbuilt, Phase.subscribe_isSubscribed, Phase.subscribe_isSet, hsub,
      hframes, todo_true, todo_false, phases, Multiset.coe_nil]
    abel
  · have hrank := Phase.subscribe_rank (m.executorAt outputLoc) hsub
    simp only [rankAt]
    omega

/-- The stage's lambda runs. -/
theorem Net.exec_callStage (hworks : F.works = true) {on : Option ι}
    (h : Net F W.toError m (.calling on) p₁ p₂) :
    Progress W F m (.calling on) p₁ p₂ q
      (.call (F.callback sourceLoc) (F.result W.toError sourceLoc) on) := by
  have hexec : exec W m (.call (F.callback sourceLoc) (F.result W.toError sourceLoc) on) =
      .ok (m.logInvoked true ⟨some outputLoc⟩ on, none, F.lambdaFrames W.toError) :=
    congrArg Except.ok (callAsyncTransform_eq hworks m on)
  have hnsub : p₁.isSubscribed = false := by
    by_contra hs
    cases (h.opened (Bool.not_eq_false _ ▸ hs)).2
  refine ⟨_, none, _, .past, p₁, p₂, q + if F.returns then 1 else 0, hexec, ?_, ?_, ?_, ?_, .inl rfl⟩
  · exact
      { heap := by
          refine h.heap.mono ?_
          intro l s hs
          match l with
          | 0 => trivial
          | 1 | 2 | _ + 3 => exact hs
        length := h.length
        built := fun _ => rfl
        opened := fun hs => ⟨(h.opened hs).1, rfl⟩
        fed := by
          intro hs
          have hfed := h.fed hs
          unfold feeder at hfed ⊢
          split at hfed
          · next hret => rw [if_pos hret]; exact hfed
          · cases hfed
        pending := h.pending
        output := h.output
        invoked := by
          rw [Memory.invocations_logInvoked, h.invoked]
          rfl
        consumed := h.consumed }
  · cases hret : F.returns with
    | true =>
        have hlambda : ((F.lambdaFrames W.toError : List (Frame V E X ι)) : Multiset (Frame V E X ι)) =
            {.subscribe innerLoc (F.callback innerLoc)} + {Frame.catchSetError ⟨none⟩} := by
          rw [lambdaFrames, hret, if_pos rfl]
          rfl
        simp only [framesAt, hlambda, feeder, hret, Phase.coe_frames_calling, Phase.coe_frames_past, hnsub,
          Phase.isSubscribed_calling, Phase.isSubscribed_past, Phase.isSet_calling, Phase.isSet_past, Phase.isPast_calling,
          Phase.isPast_past, todo_true, todo_false, Bool.and_false, Bool.and_self, Bool.not_true,
          Bool.not_false, Bool.true_or, Bool.false_or, if_true, Multiset.replicate_add,
          Multiset.replicate_one]
        abel
    | false =>
        have hset : p₂.isSet = false := by
          by_contra hs
          have hfed := h.fed (Bool.not_eq_false _ ▸ hs)
          rw [feeder, hret] at hfed
          cases hfed
        have hlambda : ((F.lambdaFrames W.toError : List (Frame V E X ι)) : Multiset (Frame V E X ι)) =
            {.set ⟨some outputLoc⟩ (F.result W.toError outputLoc)} := by
          rw [lambdaFrames, hret, if_neg Bool.false_ne_true]
          rfl
        simp only [framesAt, hlambda, feeder, hret, Phase.coe_frames_calling, Phase.coe_frames_past, hset,
          Phase.isSubscribed_calling, Phase.isSubscribed_past, Phase.isSet_calling, Phase.isSet_past, Phase.isPast_calling,
          Phase.isPast_past, todo_true, todo_false, Bool.false_and, Bool.not_true, Bool.not_false,
          Bool.true_or, Bool.false_or, Bool.false_eq_true, if_false, Nat.add_zero]
        abel
  · simp only [rankAt, Phase.rank_calling, Phase.rank_past]
    split <;> omega
  · cases F.returns with
    | true => exact .inr rfl
    | false => exact .inl (Nat.le_refl q)

/-- The lambda subscribed to the inner future runs. -/
theorem Net.exec_callForward (hW : W.Documented) (hworks : F.works = true) {on : Option ι}
    (h : Net F W.toError m p₀ (.calling on) p₂) :
    Progress W F m p₀ (.calling on) p₂ q
      (.call (F.callback innerLoc) (F.result W.toError innerLoc) on) := by
  obtain ⟨hret, hpast₀⟩ := h.opened rfl
  obtain ⟨v, hinner, hexpected, -⟩ := inner_of_returns hworks hret W.toError
  have hexec : exec W m (.call (F.callback innerLoc) (F.result W.toError innerLoc) on) =
      .ok (m, none, [.set ⟨some outputLoc⟩ (F.result W.toError outputLoc)]) := by
    simp only [exec, callback, result, call, hinner, hexpected, hW.unwrap_ok]
  have hset : p₂.isSet = false := by
    by_contra hs
    have hfed := h.fed (Bool.not_eq_false _ ▸ hs)
    rw [feeder, hret] at hfed
    cases hfed
  refine ⟨_, none, _, p₀, .past, p₂, q, hexec, ?_, ?_, ?_, .inl (Nat.le_refl q), .inl rfl⟩
  · exact
      { heap := by
          refine h.heap.mono ?_
          intro l s hs
          rcases l with _ | _ | _ | l
          · exact hs
          · trivial
          · exact hs
          · exact hs
        length := h.length
        built := h.built
        opened := fun _ => ⟨hret, hpast₀⟩
        fed := by
          intro hs
          rw [hs] at hset
          cases hset
        pending := h.pending
        output := h.output
        invoked := h.invoked
        consumed := h.consumed }
  · simp only [framesAt, feeder, hret, Phase.coe_frames_calling, Phase.coe_frames_past, hset, if_true,
      Phase.isSubscribed_calling, Phase.isSubscribed_past, Phase.isSet_calling, Phase.isSet_past, Phase.isPast_calling,
      Phase.isPast_past, todo_true, todo_false, Bool.not_true, Bool.not_false, Bool.true_or,
      Bool.or_true, Bool.false_or, Multiset.coe_singleton]
    abel
  · simp only [rankAt, Phase.rank_calling, Phase.rank_past]
    omega

/-- The subscriber throws, at most, what a transformer has thrown. -/
theorem exists_exec_consumer (hworks : F.works = true) (m : Memory V E X ι) (on : Option ι) :
    ∃ raised, exec W m (.call (F.callback outputLoc) (F.result W.toError outputLoc) on) =
      .ok ({ m with consumed := m.consumed ++ [F.expected W.toError] }, raised, []) ∧
        (raised = none ∨ F.returns = false) := by
  cases hret : F.returns with
  | true =>
      obtain ⟨v, -, hexpected, hbody⟩ := inner_of_returns hworks hret W.toError
      refine ⟨none, ?_, .inl rfl⟩
      simp only [exec, callback, result, call, hexpected, hbody]
  | false =>
      cases hbody : F.consumer (F.expected W.toError) with
      | ok u =>
          refine ⟨none, ?_, .inl rfl⟩
          simp only [exec, callback, result, call, hbody]
      | error x =>
          refine ⟨some x, ?_, .inr rfl⟩
          simp only [exec, callback, result, call, hbody]

/-- When the output has its subscriber, and no `try` block is open, no call is left to return to. -/
theorem framesAt_alone (toError : X → E) (hsub₀ : p₀.isSubscribed = true) (hsub₂ : p₂.isSubscribed = true) :
    ∀ g ∈ F.framesAt toError p₀ p₁ p₂ 0, g.isCaller = false := by
  intro g hg
  simp only [framesAt, Multiset.mem_add, or_assoc] at hg
  rcases hg with hg | hg | hg | hg | hg | hg | hg | hg | hg
  · rw [hsub₀, hsub₂] at hg
    cases Multiset.notMem_zero g hg
  · rw [(mem_todo hg).2]
    rfl
  · rw [(mem_todo hg).2]
    rfl
  · rw [(mem_todo hg).2]
    rfl
  · rw [(mem_todo hg).2]
    rfl
  · exact Phase.isCaller_of_mem_frames hg
  · exact Phase.isCaller_of_mem_frames hg
  · exact Phase.isCaller_of_mem_frames hg
  · cases Multiset.notMem_zero g hg

/-- The subscriber gets the output. -/
theorem Net.exec_callConsumer (hworks : F.works = true) (hq : F.returns = false → q = 0) {on : Option ι}
    (h : Net F W.toError m p₀ p₁ (.calling on)) :
    Progress W F m p₀ p₁ (.calling on) q
      (.call (F.callback outputLoc) (F.result W.toError outputLoc) on) := by
  have hconsumed : m.consumed = [] := h.consumed
  obtain ⟨raised, hexec, hraised⟩ := exists_exec_consumer (W := W) hworks m on
  refine ⟨_, raised, _, p₀, p₁, .past, q, hexec, ?_, ?_, ?_, .inl (Nat.le_refl q), ?_⟩
  · exact
      { heap := by
          refine h.heap.mono ?_
          intro l s hs
          match l with
          | 2 => trivial
          | 0 | 1 | _ + 3 => exact hs
        length := h.length
        built := h.built
        opened := h.opened
        fed := h.fed
        pending := h.pending
        output := h.output
        invoked := h.invoked
        consumed := by simp only [hconsumed]; rfl }
  · simp only [framesAt, Phase.coe_frames_calling, Phase.coe_frames_past, Phase.isSubscribed_calling,
      Phase.isSubscribed_past, Phase.isSet_calling, Phase.isSet_past, Bool.or_true, todo_true, Multiset.coe_nil]
    abel
  · simp only [rankAt, Phase.rank_calling, Phase.rank_past]
    omega
  · rcases hraised with hnone | hret
    · exact .inl hnone
    · obtain rfl := hq hret
      exact .inr ⟨rfl, framesAt_alone W.toError (h.built rfl) rfl⟩

/-- **Whatever frame runs.** -/
theorem Net.exec_frame (hW : W.Documented) (hworks : F.works = true) (hq : F.returns = false → q = 0)
    {f : Frame V E X ι} (h : Net F W.toError m p₀ p₁ p₂) (hf : f ∈ F.framesAt W.toError p₀ p₁ p₂ q) :
    Progress W F m p₀ p₁ p₂ q f := by
  simp only [framesAt, Multiset.mem_add, or_assoc] at hf
  rcases hf with hf | hf | hf | hf | hf | hf | hf | hf | hf
  · -- the building thread
    cases hsub : p₀.isSubscribed with
    | false =>
        rw [hsub, buildFrames, Multiset.mem_singleton] at hf
        subst hf
        exact h.exec_buildStage hsub
    | true =>
        rw [hsub, buildFrames] at hf
        obtain ⟨hsub₂, rfl⟩ := mem_todo hf
        exact h.exec_buildSubscribe hsub hsub₂
  · obtain ⟨hset, rfl⟩ := mem_todo hf
    exact h.exec_setSource hset
  · obtain ⟨hset, rfl⟩ := mem_todo hf
    exact h.exec_setInner hset
  · obtain ⟨hdone, rfl⟩ := mem_todo hf
    rw [Bool.or_eq_false_iff, Bool.not_eq_false', Bool.and_eq_true] at hdone
    exact h.exec_subscribeInner hdone.1.1 hdone.1.2 hdone.2
  · obtain ⟨hdone, rfl⟩ := mem_todo hf
    rw [Bool.or_eq_false_iff, Bool.not_eq_false'] at hdone
    exact h.exec_setOutput hdone.1 hdone.2
  · -- a callback is called
    cases p₀ with
    | calling on =>
        obtain rfl := List.mem_singleton.mp hf
        exact h.exec_callStage hworks
    | fresh | stored | waiting | queued | past => simp [Phase.frames] at hf
  · cases p₁ with
    | calling on =>
        obtain rfl := List.mem_singleton.mp hf
        exact h.exec_callForward hW hworks
    | fresh | stored | waiting | queued | past => simp [Phase.frames] at hf
  · cases p₂ with
    | calling on =>
        obtain rfl := List.mem_singleton.mp hf
        exact h.exec_callConsumer hworks hq
    | fresh | stored | waiting | queued | past => simp [Phase.frames] at hf
  · -- the `try` block is left
    obtain ⟨hopen, rfl⟩ := Multiset.mem_replicate.mp hf
    obtain ⟨q, rfl⟩ := Nat.exists_eq_succ_of_ne_zero hopen
    refine ⟨m, none, [], p₀, p₁, p₂, q, rfl, h, ?_, ?_, .inl (Nat.le_succ q), .inl rfl⟩
    · rw [framesAt, framesAt, Multiset.replicate_succ, ← Multiset.singleton_add]
      simp only [Multiset.coe_nil]
      abel
    · simp only [rankAt]
      omega

/-- The memory looks at no more than `Phase.Same` keeps, and at the tasks. -/
theorem Net.congr {p₀' p₁' p₂' : Phase ι} {pending : List (ι × Callback V E X × Result V E)}
    (h : Net F W.toError m p₀ p₁ p₂) (h₀ : p₀.Same p₀') (h₁ : p₁.Same p₁') (h₂ : p₂.Same p₂')
    (hpending : (pending : Multiset (ι × Callback V E X × Result V E)) =
      (p₀'.tasks (F.callback sourceLoc) (F.result W.toError sourceLoc) : Multiset _) +
      (p₁'.tasks (F.callback innerLoc) (F.result W.toError innerLoc) : Multiset _) +
      (p₂'.tasks (F.callback outputLoc) (F.result W.toError outputLoc) : Multiset _)) :
    Net F W.toError { m with pending } p₀' p₁' p₂' where
  heap := by
    refine h.heap.mono ?_
    intro l s hs
    match l with
    | 0 => exact h₀.holds _ _ _ hs
    | 1 => exact h₁.holds _ _ _ hs
    | 2 => exact h₂.holds _ _ _ hs
    | _ + 3 => exact hs
  length := by rw [← h₀.isSubscribed]; exact h.length
  built := by rw [← h₀.isSubscribed, ← h₂.isSubscribed]; exact h.built
  opened := by rw [← h₀.isPast, ← h₁.isSubscribed]; exact h.opened
  fed := by rw [← h₂.isSet, feeder_isPast h₀.isPast.symm h₁.isPast.symm]; exact h.fed
  pending := hpending
  output := by rw [← h₂.isSet]; exact h.output
  invoked := by rw [← h₀.isPast]; exact h.invoked
  consumed := by rw [← h₂.isPast]; exact h.consumed

theorem framesAt_congr {p₀' p₁' p₂' : Phase ι} {f : Multiset (Frame V E X ι)} (toError : X → E)
    (h₀ : p₀.Same p₀') (h₁ : p₁.Same p₁') (h₂ : p₂.Same p₂')
    (hcalls : (p₀'.frames (F.callback sourceLoc) (F.result toError sourceLoc) : Multiset _) +
        (p₁'.frames (F.callback innerLoc) (F.result toError innerLoc) : Multiset _) +
        (p₂'.frames (F.callback outputLoc) (F.result toError outputLoc) : Multiset _) =
      (p₀.frames (F.callback sourceLoc) (F.result toError sourceLoc) : Multiset _) +
        (p₁.frames (F.callback innerLoc) (F.result toError innerLoc) : Multiset _) +
        (p₂.frames (F.callback outputLoc) (F.result toError outputLoc) : Multiset _) + f) :
    F.framesAt toError p₀' p₁' p₂' q = F.framesAt toError p₀ p₁ p₂ q + f := by
  simp only [framesAt, feeder_isPast h₀.isPast.symm h₁.isPast.symm, ← h₀.isSubscribed,
    ← h₁.isSubscribed, ← h₂.isSubscribed, ← h₀.isSet, ← h₁.isSet, ← h₂.isSet, ← h₀.isPast]
  rw [hcalls]
  abel

/-- A task starts. -/
theorem Net.start {i : Nat} {e : ι} {cb : Callback V E X} {r : Result V E}
    (h : Net F W.toError m p₀ p₁ p₂) (htask : m.pending[i]? = some (e, cb, r)) :
    ∃ p₀' p₁' p₂', Net F W.toError { m with pending := m.pending.eraseIdx i } p₀' p₁' p₂' ∧
      F.framesAt W.toError p₀' p₁' p₂' q = F.framesAt W.toError p₀ p₁ p₂ q + {.call cb r (some e)} ∧
      rankAt p₀' p₁' p₂' q < rankAt p₀ p₁ p₂ q := by
  obtain ⟨hi, htask⟩ := List.getElem?_eq_some_iff.mp htask
  have hpending : (m.pending.eraseIdx i : Multiset (ι × Callback V E X × Result V E)) + {(e, cb, r)} =
      m.pending := by
    rw [← htask, add_comm, Multiset.singleton_add, Multiset.cons_coe]
    exact Multiset.coe_eq_coe.mpr (List.getElem_cons_eraseIdx_perm hi)
  have hmem : (e, cb, r) ∈ (m.pending : Multiset (ι × Callback V E X × Result V E)) := by
    rw [← htask]
    exact List.getElem_mem hi
  rw [h.pending] at hmem hpending
  rw [Multiset.mem_add, Multiset.mem_add] at hmem
  rcases hmem with (hmem | hmem) | hmem
  · obtain ⟨p', hsame, htasks, hframes, hrank⟩ := Phase.exists_start hmem
    refine ⟨p', p₁, p₂, h.congr hsame (.refl _) (.refl _) ?_, framesAt_congr _ hsame (.refl _) (.refl _) ?_, ?_⟩
    · refine add_right_cancel (hpending.trans ?_)
      rw [htasks]
      abel
    · rw [hframes]
      abel
    · simp only [rankAt]
      omega
  · obtain ⟨p', hsame, htasks, hframes, hrank⟩ := Phase.exists_start hmem
    refine ⟨p₀, p', p₂, h.congr (.refl _) hsame (.refl _) ?_, framesAt_congr _ (.refl _) hsame (.refl _) ?_, ?_⟩
    · refine add_right_cancel (hpending.trans ?_)
      rw [htasks]
      abel
    · rw [hframes]
      abel
    · simp only [rankAt]
      omega
  · obtain ⟨p', hsame, htasks, hframes, hrank⟩ := Phase.exists_start hmem
    refine ⟨p₀, p₁, p', h.congr (.refl _) (.refl _) hsame ?_, framesAt_congr _ (.refl _) (.refl _) hsame ?_, ?_⟩
    · refine add_right_cancel (hpending.trans ?_)
      rw [htasks]
      abel
    · rw [hframes]
      abel
    · simp only [rankAt]
      omega

end Exec

/-! ## The runs of a stage that works -/

/-- The invariant of a run, by the number of steps left. -/
structure NetRank (W : Wheels V E X) (F : Flatten V E X) (m : Machine V E X ι) (n : Nat) : Prop where
  net : ∃ p₀ p₁ p₂ q, Net F W.toError m.mem p₀ p₁ p₂ ∧ m.frames = F.framesAt W.toError p₀ p₁ p₂ q ∧
    (F.returns = false → q = 0) ∧ rankAt p₀ p₁ p₂ q = n
  violated : m.violated = none
  raised : ∀ t ∈ m.threads, t.raised = none ∨ t.stack = []
  nested : m.Nested

theorem netRank_machine (W : Wheels V E X) (F : Flatten V E X) (sourceVia innerVia : Option ι)
    (m : Machine V E X ι) (h : (F.system W sourceVia innerVia).init m) : ∃ n, NetRank W F m n := by
  obtain rfl : m = F.machine sourceVia innerVia := h
  refine ⟨_, ⟨.fresh, .fresh, .fresh, 0, ?_, ?_, fun _ => rfl, rfl⟩, rfl, ?_, ?_⟩
  · exact
      { heap := by
          intro l s hs
          match l, hs with
          | 0, hs => obtain rfl := Option.some.inj hs; rfl
          | 1, hs => obtain rfl := Option.some.inj hs; rfl
        length := rfl
        built := fun h => h
        opened := fun h => by cases h
        fed := fun h => by cases h
        pending := rfl
        output := rfl
        invoked := rfl
        consumed := rfl }
  · have hfeeder : (F.feeder (.fresh : Phase ι) .fresh).isPast = false := by
      unfold feeder
      split <;> rfl
    simp only [framesAt, hfeeder]
    simp [Phase.isSet, Phase.isSubscribed, Phase.isPast, Phase.frames, buildFrames]
    rfl
  · intro t ht
    simp only [machine, List.mem_cons, List.not_mem_nil, or_false] at ht
    rcases ht with rfl | rfl | rfl <;> exact .inl rfl
  · intro t ht
    simp only [machine, List.mem_cons, List.not_mem_nil, or_false] at ht
    rcases ht with rfl | rfl | rfl <;> simp

/-- Under an exception that has been raised no call is left. -/
theorem stack_of_alone {m : Machine V E X ι} (hnested : m.Nested) {i : Nat} {f : Frame V E X ι}
    {stk : List (Frame V E X ι)} (thread : m.threads[i]? = some ⟨none, f :: stk⟩) {rest : Multiset (Frame V E X ι)}
    (hrest : ∀ g ∈ stk, g ∈ rest) (halone : ∀ g ∈ rest, g.isCaller = false) : stk = [] := by
  refine List.eq_nil_iff_forall_not_mem.mpr fun g hg => ?_
  have hcaller := hnested _ (List.mem_of_getElem? thread) g hg
  rw [halone g (hrest g hg)] at hcaller
  cases hcaller

/-- **One step.** -/
theorem ranked_works {W : Wheels V E X} (hW : W.Documented) {F : Flatten V E X}
    (hworks : F.works = true) (sourceVia innerVia : Option ι) :
    (F.system W sourceVia innerVia).Ranked (NetRank W F) := by
  rintro m m' n ⟨⟨p₀, p₁, p₂, q, hnet, hframes, hq, rfl⟩, hviolated, hraised, hnested⟩ ⟨a, hnext⟩
  have hstep := (next_stepped hnext).2
  have hnested' := hnested.stepped hstep
  cases hstep with
  | unwind thread => simpa using hraised _ (List.mem_of_getElem? thread)
  | violate thread failed =>
      have hf := hframes ▸ mem_frames (List.mem_of_getElem? thread) List.mem_cons_self
      obtain ⟨_, _, _, _, _, _, _, hexec, -⟩ := hnet.exec_frame hW hworks hq hf
      rw [hexec] at failed
      cases failed
  | @run i f fs stk mem raised thread done =>
      have hf := hframes ▸ mem_frames (List.mem_of_getElem? thread) List.mem_cons_self
      obtain ⟨mem', raised', fs', p₀', p₁', p₂', q', hexec, hnet', hframes', hrank, hopen, halone⟩ :=
        hnet.exec_frame hW hworks hq hf
      rw [hexec] at done
      obtain ⟨rfl, rfl, rfl⟩ : mem' = mem ∧ raised' = raised ∧ fs' = fs := by
        simpa only [Except.ok.injEq, Prod.mk.injEq] using done
      let m' : Machine V E X ι := { m with mem := mem', threads := m.threads.set i ⟨raised', fs' ++ stk⟩ }
      have hset : m'.frames = F.framesAt W.toError p₀' p₁' p₂' q' := by
        have hset := frames_set m' thread rfl
        rw [hframes, hframes'] at hset
        exact add_right_cancel hset
      refine ⟨_, hrank, ⟨p₀', p₁', p₂', q', hnet', hset, ?_, rfl⟩, hviolated, ?_, hnested'⟩
      · intro hret
        rcases hopen with hle | hret'
        · rw [hq hret] at hle
          exact Nat.le_zero.mp hle
        · rw [hret] at hret'
          cases hret'
      · intro t ht
        rcases List.mem_or_eq_of_mem_set ht with ht' | rfl
        · exact hraised t ht'
        · rcases halone with hnone | ⟨rfl, halone⟩
          · exact .inl hnone
          · right
            refine stack_of_alone hnested thread (fun g hg => ?_) halone
            rw [← hset]
            exact mem_frames (m := m') ht hg
  | start task =>
      obtain ⟨p₀', p₁', p₂', hnet', hframes', hrank⟩ := hnet.start task
      refine ⟨_, hrank, ⟨p₀', p₁', p₂', q, hnet', ?_, hq, rfl⟩, hviolated, ?_, hnested'⟩
      · rw [frames_append, hframes, hframes', Multiset.coe_singleton]
      · intro t ht
        rcases List.mem_append.mp ht with ht | ht
        · exact hraised t ht
        · obtain rfl := List.mem_singleton.mp ht
          exact .inl rfl

/-- When nothing is left to run, every shared state is through. -/
theorem Net.past_of_idle {W : Wheels V E X} {F : Flatten V E X} {m : Memory V E X ι}
    {p₀ p₁ p₂ : Phase ι} {q : Nat} (h : Net F W.toError m p₀ p₁ p₂)
    (hframes : F.framesAt W.toError p₀ p₁ p₂ q = 0) (hpending : m.pending = []) :
    p₀ = .past ∧ p₂ = .past := by
  have hsum : ∀ {α : Type} {s t : Multiset α}, s + t = 0 → s = 0 ∧ t = 0 := by
    intro α s t h
    simpa only [← Multiset.card_eq_zero, Multiset.card_add, Nat.add_eq_zero_iff] using h
  have hdone : ∀ {b : Bool} {f : Frame V E X ι}, todo b f = 0 → b = true := by
    intro b f hf
    cases b with
    | true => rfl
    | false => cases Multiset.singleton_ne_zero f hf
  have htasks := h.pending
  rw [hpending, Multiset.coe_nil] at htasks
  obtain ⟨htasks, htasks₂⟩ := hsum htasks.symm
  obtain ⟨htasks₀, htasks₁⟩ := hsum htasks
  rw [framesAt] at hframes
  obtain ⟨hframes, -⟩ := hsum hframes
  obtain ⟨hframes, hcalls⟩ := hsum hframes
  obtain ⟨hcalls, hcall₂⟩ := hsum hcalls
  obtain ⟨hcall₀, hcall₁⟩ := hsum hcalls
  obtain ⟨hframes, houtput⟩ := hsum hframes
  obtain ⟨hframes, hinner⟩ := hsum hframes
  obtain ⟨hframes, hset₁⟩ := hsum hframes
  obtain ⟨hbuild, hset₀⟩ := hsum hframes
  rw [Multiset.coe_eq_zero] at htasks₀ htasks₁ htasks₂ hcall₀ hcall₁ hcall₂
  have hsub₀ : p₀.isSubscribed = true := by
    by_contra hsub
    rw [Bool.not_eq_true] at hsub
    rw [hsub, buildFrames] at hbuild
    exact Multiset.singleton_ne_zero _ hbuild
  have hsub₂ : p₂.isSubscribed = true := by
    rw [hsub₀, buildFrames] at hbuild
    exact hdone hbuild
  have hpast₀ : p₀ = .past := Phase.eq_past (hdone hset₀) hsub₀ hcall₀ htasks₀
  have hfed : (F.feeder p₀ p₁).isPast = true := by
    cases hret : F.returns with
    | false => rw [feeder, hret, hpast₀]; rfl
    | true =>
        have hsub₁ := hdone hinner
        rw [hret, hpast₀, Phase.isPast_past, Bool.and_self, Bool.not_true, Bool.false_or] at hsub₁
        rw [feeder, hret, if_pos rfl, Phase.eq_past (hdone hset₁) hsub₁ hcall₁ htasks₁]
        rfl
  have hset₂ := hdone houtput
  rw [hfed, Bool.not_true, Bool.false_or] at hset₂
  exact ⟨hpast₀, Phase.eq_past hset₂ hsub₂ hcall₂ htasks₂⟩

theorem flattens_of_works {W : Wheels V E X} (hW : W.Documented) {F : Flatten V E X}
    (hworks : F.works = true) : F.Flattens ι W := by
  intro sourceVia innerVia m hm
  have hranked := ranked_works hW hworks sourceVia innerVia
  obtain ⟨n, hrank⟩ := hm.ranked hranked (netRank_machine W F sourceVia innerVia)
  have hterm := hranked.terminates hrank
  obtain ⟨⟨p₀, p₁, p₂, q, hnet, hframes, -, -⟩, hviolated, -, -⟩ := hrank
  refine ⟨hviolated, ?_, ?_, hterm, ?_⟩
  · rw [hnet.output]
    split <;> simp
  · rw [hnet.invoked, invocations_of_works hworks]
    split <;> omega
  · intro hq
    obtain ⟨hidle, hpending⟩ := quiescent_frames hq hviolated
    obtain ⟨rfl, rfl⟩ := hnet.past_of_idle (hframes.symm.trans hidle) hpending
    exact ⟨hnet.output, hnet.consumed, hnet.invoked.trans (invocations_of_works hworks).symm⟩

/-! ## The runs of a stage that does not -/

/-- Without executors, the stage can be built and the source set before anything else happens: the next
    call is that of the stage's lambda. -/
theorem exists_calling_stage (W : Wheels V E X) (F : Flatten V E X) :
    ∃ m : Machine V E X ι, (F.system W none none).Reachable m ∧ m.violated = none ∧
      m.threads = [⟨none, [.build outputLoc [.subscribe F.consumer]]⟩,
        ⟨none, [.call (.asyncTransform F.callable.stage ⟨some outputLoc⟩) F.source none]⟩,
        ⟨none, [.set ⟨some innerLoc⟩ F.inner]⟩] ∧
      ∃ s, m.mem = { heap := [s, {}, {}], sets := [(sourceLoc, F.source)] } := by
  have h : (F.system (ι := ι) W none none).Reachable _ :=
    System.reachable_of_run [.thread 0, .thread 1] rfl
  exact ⟨_, h, rfl, rfl, _, rfl⟩

/-- A future that `Then` made itself ends in an error: the exception of `SetValue` meets the `catch` clause
    of the stage's lambda, whose promise has been moved away. -/
theorem exists_violation {W : Wheels V E X} (hW : W.Documented) {F : Flatten V E X} {invoked : Bool}
    {e : E} (hcall : ∀ (m : Memory V E X ι) on,
      callAsyncTransform W m F.callable.stage ⟨some outputLoc⟩ F.source on =
        ((m.logInvoked invoked ⟨some outputLoc⟩ on).allocFailed e, none,
          [.subscribe m.heap.length (.forward ⟨some outputLoc⟩), .catchSetError ⟨none⟩])) :
    ∃ m : Machine V E X ι, (F.system W none none).Reachable m ∧ m.violated = some .noSharedState := by
  obtain ⟨m, hm, hv, hthreads, s, hmem⟩ := exists_calling_stage (ι := ι) W F
  obtain ⟨mem, threads, violated⟩ := m
  obtain rfl : violated = none := hv
  obtain rfl : threads = _ := hthreads
  obtain rfl : mem = _ := hmem
  obtain ⟨x, hunwrap, -⟩ := hW.unwrap_fail e
  have hlambda := hm.step (step_of_stepped rfl (.run (i := 1) rfl (congrArg Except.ok (hcall _ none))))
  have hsubscribe := hlambda.step (step_of_stepped rfl (.run (i := 1) rfl rfl))
  have hforward := hsubscribe.step
    (step_of_stepped rfl (.run (i := 1) rfl (exec_forward_throw hunwrap _ ⟨some outputLoc⟩ none)))
  have hcatch := hforward.step (step_of_stepped rfl (.unwind (i := 1) rfl))
  exact ⟨_, hcatch.step (step_of_stepped rfl (.violate (i := 1) rfl rfl)), rfl⟩

/-- A failed inner future: `SetValue` throws on the thread that fulfils it, and the output is lost. -/
theorem exists_lost {W : Wheels V E X} (hW : W.Documented) {F : Flatten V E X} {e : E}
    (hinner : F.inner = .fail e) (hcall : ∀ (m : Memory V E X ι) on,
      callAsyncTransform W m F.callable.stage ⟨some outputLoc⟩ F.source on =
        (m.logInvoked true ⟨some outputLoc⟩ on, none,
          [.subscribe innerLoc (.forward ⟨some outputLoc⟩), .catchSetError ⟨none⟩])) :
    ∃ m : Machine V E X ι, (F.system W none none).Reachable m ∧ (F.system W none none).Quiescent m ∧
      m.mem.setsAt outputLoc = [] := by
  obtain ⟨m, hm, hv, hthreads, s, hmem⟩ := exists_calling_stage (ι := ι) W F
  obtain ⟨mem, threads, violated⟩ := m
  obtain rfl : violated = none := hv
  obtain rfl : threads = _ := hthreads
  obtain rfl : mem = _ := hmem
  obtain ⟨x, hunwrap, -⟩ := hW.unwrap_fail e
  -- the output gets its subscriber, the lambda subscribes to the inner future and returns
  have hbuilt := hm.step (step_of_stepped rfl (.run (i := 0) rfl rfl))
  have hlambda :=
    hbuilt.step (step_of_stepped rfl (.run (i := 1) rfl (congrArg Except.ok (hcall _ none))))
  have hsubscribe := hlambda.step (step_of_stepped rfl (.run (i := 1) rfl rfl))
  have hreturn := hsubscribe.step (step_of_stepped rfl (.run (i := 1) rfl rfl))
  -- the inner promise is fulfilled
  have hset := hreturn.step (step_of_stepped rfl (.run (i := 2) rfl rfl))
  have hforward := hset.step (step_of_stepped rfl (.run (i := 2) rfl
    (exec_forward_throw (hinner ▸ hunwrap) _ ⟨some outputLoc⟩ none)))
  exact ⟨_, hforward, quiescent_of_idle rfl, rfl⟩

/-- An inner future that is fulfilled before the stage's lambda subscribes to it: what the output's subscriber throws
    meets the `catch` clause of that lambda, whose promise has been moved away. -/
theorem exists_thrown {W : Wheels V E X} (hW : W.Documented) {F : Flatten V E X} {v : V} {x : X}
    (hinner : F.inner = .ok v) (hbody : F.consumer (.ok v) = .error x) (hcall : ∀ (m : Memory V E X ι) on,
      callAsyncTransform W m F.callable.stage ⟨some outputLoc⟩ F.source on =
        (m.logInvoked true ⟨some outputLoc⟩ on, none,
          [.subscribe innerLoc (.forward ⟨some outputLoc⟩), .catchSetError ⟨none⟩])) :
    ∃ m : Machine V E X ι, (F.system W none none).Reachable m ∧ m.violated = some .noSharedState := by
  have hbuilt : (F.system (ι := ι) W none none).Reachable _ :=
    System.reachable_of_run [.thread 2, .thread 0, .thread 0, .thread 1] rfl
  have hlambda := hbuilt.step (step_of_stepped rfl (.run (i := 1) rfl (congrArg Except.ok (hcall _ none))))
  have hsubscribe := hlambda.step (step_of_stepped rfl (.run (i := 1) rfl rfl))
  have hforward := hsubscribe.step (step_of_stepped rfl (.run (i := 1) rfl
    (exec_forward (hinner ▸ hW.unwrap_ok v) _ ⟨some outputLoc⟩ none)))
  have hset := hforward.step (step_of_stepped rfl (.run (i := 1) rfl rfl))
  have hconsumer := hset.step (step_of_stepped rfl (.run (i := 1) rfl (exec_consumer_throw hbody _ none)))
  have hcatch := hconsumer.step (step_of_stepped rfl (.unwind (i := 1) rfl))
  exact ⟨_, hcatch.step (step_of_stepped rfl (.violate (i := 1) rfl rfl)), rfl⟩

/-- **Asynchronous `Then` and `Transform` flatten** exactly when the transformer throws, or the callable
    returns a future that ends with a value on which the output's subscriber does not throw. -/
theorem flattens_iff {W : Wheels V E X} (hW : W.Documented) (F : Flatten V E X) :
    F.Flattens ι W ↔ F.works = true := by
  constructor
  · intro h
    by_contra hfails
    rw [Bool.not_eq_true] at hfails
    rcases callAsyncTransform_cases (ι := ι) W F with ⟨hret, hcall⟩ | ⟨hworks, -⟩ | ⟨-, invoked, e, hcall⟩
    · have hworks := (works_of_returns hret).symm.trans hfails
      cases hres : F.inner with
      | ok v =>
          cases hbody : F.consumer (.ok v) with
          | ok u =>
              rw [hres, hbody] at hworks
              cases hworks
          | error x =>
              obtain ⟨m, hm, hv⟩ := exists_thrown hW hres hbody hcall
              have hnone := (h none none m hm).1
              rw [hv] at hnone
              cases hnone
      | fail e =>
          obtain ⟨m, hm, hq, hlost⟩ := exists_lost hW hres hcall
          have hset := ((h none none m hm).2.2.2.2 hq).1
          rw [hlost] at hset
          cases hset
    · rw [hworks] at hfails
      cases hfails
    · obtain ⟨m, hm, hv⟩ := exists_violation hW hcall
      have hnone := (h none none m hm).1
      rw [hv] at hnone
      cases hnone
  · intro hworks
    exact flattens_of_works hW hworks

/-- `Then` on a value, and a continuation whose future ends with a value. -/
theorem flattens_then_value :
    Flattens Nat (Wheels.exceptionPtr Nat Nat)
      { callable := .then_ fun _ => .ok (), source := .ok 1, inner := .ok 2, consumer := fun _ => .ok () } :=
  (flattens_iff (Wheels.exceptionPtr_documented Nat Nat) _).mpr rfl

/-- `Then` on an error: the stage is built, the source is set, and the process aborts. -/
theorem not_flattens_then_error :
    ¬ Flattens Nat (Wheels.exceptionPtr Nat Nat)
      { callable := .then_ fun _ => .ok (), source := .fail 5, inner := .ok 2, consumer := fun _ => .ok () } := by
  intro h
  have hrun : (system (ι := Nat) (Wheels.exceptionPtr Nat Nat)
      { callable := .then_ fun _ => .ok (), source := .fail 5, inner := .ok 2, consumer := fun _ => .ok () }
      none none).Reachable _ :=
    System.reachable_of_run (.thread 0 :: List.replicate 6 (.thread 1)) rfl
  have hnone := (h none none _ hrun).1
  cases hnone

end Flatten
end Futures
end Tpcc
