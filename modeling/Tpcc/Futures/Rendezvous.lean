import Tpcc.Futures.Machine

/-!
# `Futures.Rendezvous` — the life of one shared state

A shared state meets its result and its callback once each, in either order, and hands them over to the
call or the task that runs the callback (`Phase`). `Memory.setResult_spec` and `Memory.subscribe_spec` say what the
two operations do in terms of the phase: what they leave in the heap, which call comes next, and which
task is submitted.
-/

namespace Tpcc
namespace Futures

variable {V E X ι : Type}

/-- How far a shared state, its result and its callback are. -/
inductive Phase (ι : Type) where
  | fresh
  /-- The result is there, the callback is not. -/
  | stored
  /-- The callback is there, the result is not. -/
  | waiting
  /-- The callback is about to be called, by executor `on` if any. -/
  | calling (on : Option ι)
  /-- The callback is in a task of executor `e`. -/
  | queued (e : ι)
  | past

namespace Phase

def isSet : Phase ι → Bool
  | .fresh => false
  | .waiting => false
  | _ => true

def isSubscribed : Phase ι → Bool
  | .fresh => false
  | .stored => false
  | _ => true

def isPast : Phase ι → Bool
  | .past => true
  | _ => false

/-- The number of steps left. -/
def rank : Phase ι → Nat
  | .fresh => 4
  | .stored => 3
  | .waiting => 3
  | .queued _ => 2
  | .calling _ => 1
  | .past => 0

section Reached

variable (on : Option ι)

@[simp] theorem isSet_calling : (calling on).isSet = true := rfl

@[simp] theorem isSubscribed_calling : (calling on).isSubscribed = true := rfl

@[simp] theorem isPast_calling : (calling on).isPast = false := rfl

@[simp] theorem isSet_past : (past : Phase ι).isSet = true := rfl

@[simp] theorem isSubscribed_past : (past : Phase ι).isSubscribed = true := rfl

@[simp] theorem isPast_past : (past : Phase ι).isPast = true := rfl

@[simp] theorem rank_calling : (calling on).rank = 1 := rfl

@[simp] theorem rank_past : (past : Phase ι).rank = 0 := rfl

end Reached

/-- The call in progress. -/
def frames (cb : Callback V E X) (r : Result V E) : Phase ι → List (Frame V E X ι)
  | .calling on => [.call cb r on]
  | _ => []

/-- The task that waits for its executor. -/
def tasks (cb : Callback V E X) (r : Result V E) : Phase ι → List (ι × Callback V E X × Result V E)
  | .queued e => [(e, cb, r)]
  | _ => []

theorem isCaller_of_mem_frames {p : Phase ι} {cb : Callback V E X} {r : Result V E} {f : Frame V E X ι}
    (hf : f ∈ (p.frames cb r : Multiset (Frame V E X ι))) : f.isCaller = false := by
  cases p with
  | calling on =>
      rw [List.mem_singleton.mp hf]
      rfl
  | fresh | stored | waiting | queued | past => cases hf

@[simp] theorem coe_frames_calling (cb : Callback V E X) (r : Result V E) (on : Option ι) :
    ((calling on).frames cb r : Multiset (Frame V E X ι)) = {.call cb r on} := rfl

@[simp] theorem coe_frames_past (cb : Callback V E X) (r : Result V E) :
    ((past : Phase ι).frames cb r : Multiset (Frame V E X ι)) = 0 := rfl

/-- `Execute`. -/
def fired : Option ι → Phase ι
  | none => .calling none
  | some e => .queued e

/-- The result arrives. -/
def set (ex : Option ι) : Phase ι → Phase ι
  | .fresh => .stored
  | .waiting => fired ex
  | p => p

/-- The callback arrives. -/
def subscribe (ex : Option ι) : Phase ι → Phase ι
  | .fresh => .waiting
  | .stored => fired ex
  | p => p

/-- The shared state of a callback `cb` and a result `r` in this phase. -/
def Holds (cb : Callback V E X) (r : Result V E) (s : SharedState (Callback V E X) (Result V E) ι) :
    Phase ι → Prop
  | .fresh => s.state = .start
  | .stored => s.state = .onlyResult ∧ s.result = .full r
  | .waiting => s.state = .onlyCallback ∧ s.callback = some cb
  | _ => True

/-- The phase of a shared state that has its callback, its result, both or neither. -/
def of (subscribed set : Bool) : Phase ι :=
  match subscribed, set with
  | false, false => .fresh
  | false, true => .stored
  | true, false => .waiting
  | true, true => .past

/-! ## What the two arrivals change -/

section Arrivals

variable {p : Phase ι} (ex : Option ι)

theorem set_isSet (p : Phase ι) : (p.set ex).isSet = true := by
  cases p <;> cases ex <;> rfl

theorem set_isSubscribed (p : Phase ι) : (p.set ex).isSubscribed = p.isSubscribed := by
  cases p <;> cases ex <;> rfl

theorem set_isPast (p : Phase ι) : (p.set ex).isPast = p.isPast := by
  cases p <;> cases ex <;> rfl

theorem set_rank (h : p.isSet = false) : (p.set ex).rank < p.rank := by
  cases p <;> cases ex <;> simp [isSet, set, fired, rank] at h ⊢

theorem subscribe_isSubscribed (p : Phase ι) : (p.subscribe ex).isSubscribed = true := by
  cases p <;> cases ex <;> rfl

theorem subscribe_isSet (p : Phase ι) : (p.subscribe ex).isSet = p.isSet := by
  cases p <;> cases ex <;> rfl

theorem subscribe_isPast (p : Phase ι) : (p.subscribe ex).isPast = p.isPast := by
  cases p <;> cases ex <;> rfl

theorem subscribe_rank (h : p.isSubscribed = false) : (p.subscribe ex).rank < p.rank := by
  cases p <;> cases ex <;> simp [isSubscribed, subscribe, fired, rank] at h ⊢

end Arrivals

theorem isSubscribed_of_isPast {p : Phase ι} (h : p.isPast = true) : p.isSubscribed = true := by
  cases p <;> first | rfl | simp [isPast] at h

theorem eq_fresh {p : Phase ι} (hset : p.isSet = false) (hsub : p.isSubscribed = false) :
    p = .fresh := by
  cases p <;> simp [isSet, isSubscribed] at hset hsub ⊢

/-- A shared state that has both, and no call or task left, is through. -/
theorem eq_past {p : Phase ι} {cb : Callback V E X} {r : Result V E} (hset : p.isSet = true)
    (hsub : p.isSubscribed = true) (hframes : p.frames cb r = []) (htasks : p.tasks cb r = []) :
    p = .past := by
  cases p <;> simp [isSet, isSubscribed, frames, tasks] at hset hsub hframes htasks ⊢

/-- Before it has both, a shared state has no call and no task. -/
theorem idle_of_not_set {p : Phase ι} (h : p.isSet = false) (cb : Callback V E X) (r : Result V E) :
    p.frames cb r = [] ∧ p.tasks cb r = [] := by
  cases p <;> simp [isSet, frames, tasks] at h ⊢

theorem idle_of_not_subscribed {p : Phase ι} (h : p.isSubscribed = false) (cb : Callback V E X)
    (r : Result V E) : p.frames cb r = [] ∧ p.tasks cb r = [] := by
  cases p <;> simp [isSubscribed, frames, tasks] at h ⊢

/-- Two phases that differ in where the callback waits only. -/
structure Same (p p' : Phase ι) : Prop where
  isSet : p.isSet = p'.isSet
  isSubscribed : p.isSubscribed = p'.isSubscribed
  isPast : p.isPast = p'.isPast
  holds {V E X : Type} (cb : Callback V E X) (r : Result V E)
    (s : SharedState (Callback V E X) (Result V E) ι) : p.Holds cb r s → p'.Holds cb r s

theorem Same.refl (p : Phase ι) : p.Same p := ⟨rfl, rfl, rfl, fun _ _ _ => id⟩

/-- An executor starts the task. -/
theorem same_start (e : ι) : (queued e).Same (calling (some e)) :=
  ⟨rfl, rfl, rfl, fun _ _ _ => id⟩

/-- An executor starts a task of this shared state: the task becomes a call. -/
theorem exists_start {p : Phase ι} {cb cb' : Callback V E X} {r r' : Result V E} {e : ι}
    (h : (e, cb', r') ∈ p.tasks cb r) :
    ∃ p', p.Same p' ∧
      (p.tasks cb r : Multiset (ι × Callback V E X × Result V E)) = p'.tasks cb r + {(e, cb', r')} ∧
      (p'.frames cb r : Multiset (Frame V E X ι)) = p.frames cb r + {.call cb' r' (some e)} ∧
      p'.rank < p.rank := by
  cases p with
  | queued e' =>
      obtain ⟨rfl, rfl, rfl⟩ : e = e' ∧ cb' = cb ∧ r' = r := by
        simpa only [Prod.mk.injEq] using List.mem_singleton.mp h
      exact ⟨.calling (some e), same_start e, rfl, rfl, Nat.lt_succ_self _⟩
  | fresh | stored | waiting | calling | past => cases h

end Phase

/-! ## The two operations -/

variable {m : Memory V E X ι} {l : Loc} {s : SharedState (Callback V E X) (Result V E) ι}
  {cb : Callback V E X} {r : Result V E} {p : Phase ι}

/-- `Execute` calls the callback next, or submits a task. -/
theorem Memory.commit_fired (m : Memory V E X ι) (l : Loc) (s : SharedState (Callback V E X) (Result V E) ι)
    (cb : Callback V E X) (r : Result V E) (ex : Option ι) :
    m.commit l (s, some ⟨cb, r, ex⟩) =
      ({ m with heap := m.heap.set l s, pending := m.pending ++ (Phase.fired ex).tasks cb r },
        (Phase.fired ex).frames cb r) := by
  cases ex <;> simp [Memory.commit, Phase.fired, Phase.tasks, Phase.frames]

/-- **The result arrives.** -/
theorem Memory.setResult_spec (hget : m.heap[l]? = some s) (hs : p.Holds cb r s) (hset : p.isSet = false) :
    ∃ s', m.setResult l r =
        .ok ({ m with heap := m.heap.set l s'
                      pending := m.pending ++ (p.set s.executor).tasks cb r
                      sets := m.sets ++ [(l, r)] }, (p.set s.executor).frames cb r) ∧
      (p.set s.executor).Holds cb r s' ∧ s'.executor = s.executor := by
  cases p with
  | fresh =>
      refine ⟨{ s with state := .onlyResult, result := .full r }, ?_, ⟨rfl, rfl⟩, rfl⟩
      simp only [Memory.setResult, hget, SharedState.setResult_start hs, Except.map, Memory.commit,
        Phase.set, Phase.tasks, Phase.frames, List.append_nil]
  | waiting =>
      obtain ⟨hstate, hcb⟩ := hs
      refine ⟨{ s with state := .done, result := .moved }, ?_, ?_, rfl⟩
      · simp only [Memory.setResult, hget, SharedState.setResult_onlyCallback hstate hcb, Except.map,
          Memory.commit_fired, Phase.set]
      · cases s.executor <;> trivial
  | stored | calling | queued | past => simp [Phase.isSet] at hset

/-- **The callback arrives.** -/
theorem Memory.subscribe_spec (hget : m.heap[l]? = some s) (hs : p.Holds cb r s)
    (hsub : p.isSubscribed = false) :
    ∃ s', m.subscribe l cb =
        .ok ({ m with heap := m.heap.set l s'
                      pending := m.pending ++ (p.subscribe s.executor).tasks cb r },
          (p.subscribe s.executor).frames cb r) ∧
      (p.subscribe s.executor).Holds cb r s' ∧ s'.executor = s.executor := by
  cases p with
  | fresh =>
      refine ⟨{ s with state := .onlyCallback, callback := some cb }, ?_, ⟨rfl, rfl⟩, rfl⟩
      simp only [Memory.subscribe, hget, SharedState.subscribe_start hs, Except.map, Memory.commit,
        Phase.subscribe, Phase.tasks, Phase.frames, List.append_nil]
  | stored =>
      obtain ⟨hstate, hres⟩ := hs
      refine ⟨{ s with state := .done, result := .moved }, ?_, ?_, rfl⟩
      · simp only [Memory.subscribe, hget, SharedState.subscribe_onlyResult hstate hres, Except.map,
          Memory.commit_fired, Phase.subscribe]
      · cases s.executor <;> trivial
  | waiting | calling | queued | past => simp [Phase.isSubscribed] at hsub

/-! ## A heap of shared states -/

theorem executorAt_congr {m m' : Memory V E X ι}
    (h : m'.heap.map (·.executor) = m.heap.map (·.executor)) (j : Nat) :
    m'.executorAt j = m.executorAt j := by
  have hj := congrArg (·[j]?) h
  simp only [List.getElem?_map] at hj
  simp only [Memory.executorAt]
  cases hm : m.heap[j]? <;> cases hm' : m'.heap[j]? <;> simp [hm, hm'] at hj ⊢
  exact hj

/-- Without executors, `t_future` has none either. -/
theorem executorAt_setExecutor_none {m : Memory V E X ι} (h : ∀ j, m.executorAt j = none) (l j : Loc) :
    { m with heap := m.heap.modify l (·.setExecutor none) }.executorAt j = none := by
  have hj := h j
  unfold Memory.executorAt at *
  rw [List.getElem?_modify]
  cases hget : m.heap[j]? with
  | none => rfl
  | some s =>
      rw [hget] at hj
      by_cases hl : l = j
      · simp [hl, SharedState.setExecutor]
      · simpa [hl] using hj

theorem executorAt_alloc {ex : Option ι} (h : ∀ j, m.executorAt j = none) (hex : ex = none) (j : Nat) :
    (m.alloc ex).executorAt j = none := by
  have hj := h j
  simp only [Memory.executorAt, Memory.alloc, List.getElem?_append] at hj ⊢
  split
  · exact hj
  · rw [Option.bind_eq_none_iff]
    intro s hs
    obtain rfl := List.mem_singleton.mp (List.mem_of_getElem? hs)
    exact hex

/-- Every shared state of the heap is in the phase `phase` says. -/
def HeapAt (cb : Loc → Callback V E X) (res : Loc → Result V E) (phase : Loc → Phase ι)
    (heap : List (SharedState (Callback V E X) (Result V E) ι)) : Prop :=
  ∀ (l : Nat) s, heap[l]? = some s → (phase l).Holds (cb l) (res l) s

namespace HeapAt

variable {cb : Loc → Callback V E X} {res : Loc → Result V E} {phase : Loc → Phase ι}

theorem set {heap : List (SharedState (Callback V E X) (Result V E) ι)}
    (h : HeapAt cb res phase heap) {p : Phase ι} (hs : p.Holds (cb l) (res l) s) :
    HeapAt cb res (Function.update phase l p) (heap.set l s) := by
  intro k t ht
  by_cases hkl : l = k
  · subst hkl
    rw [List.getElem?_set_self'] at ht
    obtain ⟨_, -, rfl⟩ := Option.map_eq_some_iff.mp ht
    rw [Function.update_self]
    exact hs
  · rw [List.getElem?_set_ne hkl] at ht
    rw [Function.update_of_ne (Ne.symm hkl)]
    exact h k t ht

theorem mono {phase' : Loc → Phase ι} {heap : List (SharedState (Callback V E X) (Result V E) ι)}
    (h : HeapAt cb res phase heap)
    (himp : ∀ l s, (phase l).Holds (cb l) (res l) s → (phase' l).Holds (cb l) (res l) s) :
    HeapAt cb res phase' heap :=
  fun l s hs => himp l s (h l s hs)

/-- A new shared state is fresh. -/
theorem append {heap : List (SharedState (Callback V E X) (Result V E) ι)}
    (h : HeapAt cb res phase heap) (hfresh : phase heap.length = .fresh) (ex : Option ι) :
    HeapAt cb res phase (heap ++ [{ executor := ex }]) := by
  intro k t ht
  rw [List.getElem?_append] at ht
  split at ht
  · exact h k t ht
  · next hk =>
      obtain rfl := List.mem_singleton.mp (List.mem_of_getElem? ht)
      have hlt := (List.getElem?_eq_some_iff.mp ht).1
      rw [List.length_singleton] at hlt
      obtain rfl : k = heap.length := by omega
      rw [hfresh]
      rfl

/-- `Via` changes no phase. -/
theorem modify_setExecutor {heap : List (SharedState (Callback V E X) (Result V E) ι)}
    (h : HeapAt cb res phase heap) (l : Loc) (e : Option ι) :
    HeapAt cb res phase (heap.modify l (·.setExecutor e)) := by
  intro k t ht
  rw [List.getElem?_modify] at ht
  obtain ⟨s, hs, rfl⟩ := Option.map_eq_some_iff.mp ht
  have hholds := h k s hs
  split
  · cases hp : phase k <;> rw [hp] at hholds <;> exact hholds
  · exact hholds

theorem setResult (h : HeapAt cb res phase m.heap) (hl : l < m.heap.length)
    (hset : (phase l).isSet = false) :
    ∃ heap', m.setResult l (res l) =
        .ok ({ m with heap := heap'
                      pending := m.pending ++ ((phase l).set (m.executorAt l)).tasks (cb l) (res l)
                      sets := m.sets ++ [(l, res l)] },
          ((phase l).set (m.executorAt l)).frames (cb l) (res l)) ∧
      HeapAt cb res (Function.update phase l ((phase l).set (m.executorAt l))) heap' ∧
      heap'.map (·.executor) = m.heap.map (·.executor) := by
  have hget := List.getElem?_eq_getElem hl
  have hex : m.executorAt l = m.heap[l].executor := by simp [Memory.executorAt, hget]
  obtain ⟨s', hset', hs', hex'⟩ := Memory.setResult_spec hget (h l _ hget) hset
  rw [hex]
  refine ⟨_, hset', h.set hs', ?_⟩
  rw [List.map_set, hex', ← List.map_set, List.set_getElem_self]

theorem subscribe (h : HeapAt cb res phase m.heap) (hl : l < m.heap.length)
    (hsub : (phase l).isSubscribed = false) :
    ∃ heap', m.subscribe l (cb l) =
        .ok ({ m with heap := heap'
                      pending := m.pending ++
                        ((phase l).subscribe (m.executorAt l)).tasks (cb l) (res l) },
          ((phase l).subscribe (m.executorAt l)).frames (cb l) (res l)) ∧
      HeapAt cb res (Function.update phase l ((phase l).subscribe (m.executorAt l))) heap' ∧
      heap'.map (·.executor) = m.heap.map (·.executor) := by
  have hget := List.getElem?_eq_getElem hl
  have hex : m.executorAt l = m.heap[l].executor := by simp [Memory.executorAt, hget]
  obtain ⟨s', hsub', hs', hex'⟩ := Memory.subscribe_spec hget (h l _ hget) hsub
  rw [hex]
  refine ⟨_, hsub', h.set hs', ?_⟩
  rw [List.map_set, hex', ← List.map_set, List.set_getElem_self]

end HeapAt
end Futures
end Tpcc
