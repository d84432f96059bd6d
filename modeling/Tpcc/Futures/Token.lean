import Tpcc.Futures.Chain
import Tpcc.Futures.Rendezvous

/-!
# `Futures.Token` — the one result that travels down a chain

In a run of a chain the source result is, at every moment, about to be set at one place, stored there,
on its way to the callback subscribed there, or through (`Token`). `MemInv` says that the memory is
determined by where the token is and by how far the chain is built, and there is one lemma for each
kind of frame that can run: it never fails a check, and moves the token or the building thread on.
-/

namespace Tpcc
namespace Futures

open Transition Futures.Machine

variable {V E X ι : Type}

/-! ## The token -/

/-- Where the result travelling down the chain is. -/
inductive Token (ι : Type) where
  /-- About to be set at place `j`. -/
  | setting (j : Nat)
  /-- Stored at place `j`, which has no callback yet. -/
  | stored (j : Nat)
  /-- About to be passed to the callback of place `j`, by executor `on` if any. -/
  | calling (j : Nat) (on : Option ι)
  /-- In a task of executor `e`, with the callback of place `j`. -/
  | queued (j : Nat) (e : ι)
  /-- Passed to the callback at the end. -/
  | done

namespace Token

variable (c : Chain V E X ι) (toError : X → E)

/-- The number of places that have been set. -/
def setCount (size : Nat) : Token ι → Nat
  | .setting j => j
  | .stored j => j + 1
  | .calling j _ => j + 1
  | .queued j _ => j + 1
  | .done => size + 1

/-- The number of stages whose lambda has been called. -/
def callCount (size : Nat) : Token ι → Nat
  | .setting j => j
  | .stored j => j
  | .calling j _ => j
  | .queued j _ => j
  | .done => size

/-- The call in progress that carries the result. -/
def frames : Token ι → List (Frame V E X ι)
  | .setting j => [.set ⟨some j⟩ (c.result toError j)]
  | .calling j on => [.call (c.callback j) (c.result toError j) on]
  | _ => []

def pending : Token ι → List (ι × Callback V E X × Result V E)
  | .queued j e => [(e, c.callback j, c.result toError j)]
  | _ => []

def consumed : Token ι → List (Result V E)
  | .done => [c.result toError c.size]
  | _ => []

/-- The token can be past place `j` only once `j` is subscribed, and stays there otherwise; `b` places
    are subscribed. -/
def Placed (size b : Nat) : Token ι → Prop
  | .setting j => j ≤ size ∧ j ≤ b
  | .stored j => j ≤ size ∧ j = b
  | .calling j _ => j ≤ size ∧ j < b
  | .queued j _ => j ≤ size ∧ j < b
  | .done => size < b

/-- `Execute` at place `j`: called at once, or queued. -/
def handOver (j : Nat) : Option ι → Token ι
  | none => .calling j none
  | some e => .queued j e

theorem Placed.setCount_le {size b : Nat} {tok : Token ι} (h : tok.Placed size b) :
    tok.setCount size ≤ b + 1 := by
  cases tok <;> simp only [Placed, setCount] at h ⊢ <;> omega

theorem handOver_placed {size b j : Nat} (hj : j ≤ size) (hb : j < b) (ex : Option ι) :
    (handOver j ex).Placed size b := by
  cases ex <;> exact ⟨hj, hb⟩

/-- How far the token has to go, with room for the `try` blocks it opens on the way. -/
def rank (size : Nat) : Token ι → Nat
  | .setting j => 5 * (size - j) + 4
  | .stored j => 5 * (size - j) + 3
  | .queued j _ => 5 * (size - j) + 2
  | .calling j _ => 5 * (size - j) + 1
  | .done => 0

theorem handOver_rank (size j : Nat) (ex : Option ι) :
    (handOver j ex).rank size < (stored j : Token ι).rank size := by
  cases ex <;> simp only [handOver, rank] <;> omega

@[simp] theorem handOver_setCount (size j : Nat) (ex : Option ι) :
    (handOver j ex).setCount size = j + 1 := by cases ex <;> rfl

@[simp] theorem handOver_callCount (size j : Nat) (ex : Option ι) :
    (handOver j ex).callCount size = j := by cases ex <;> rfl

@[simp] theorem handOver_consumed (j : Nat) (ex : Option ι) :
    (handOver j ex).consumed c toError = [] := by cases ex <;> rfl

end Token

/-! ## The invariant -/

/-- The building thread: `rest` is what it has left to call (`none`: it is through), `b` the place of
    the future it holds. -/
def Building (c : Chain V E X ι) (b : Nat) : Option (List (ChainOp V E X ι)) → Prop
  | some rest => ∃ pre, c.ops = pre ++ rest ∧ b = (stagesOf pre).length
  | none => b = c.size + 1

def buildFrames (c : Chain V E X ι) (b : Nat) :
    Option (List (ChainOp V E X ι)) → List (Frame V E X ι)
  | some rest => [.build b (c.program rest)]
  | none => []

/-- The number of shared states so far. -/
def cellCount (b : Nat) : Option (List (ChainOp V E X ι)) → Nat
  | some _ => b + 1
  | none => b

/-- The phase of the shared state at place `j`, when `b` places are subscribed and `n` are set. -/
def phaseAt (b n : Nat) (j : Loc) : Phase ι := .of (decide (j < b)) (decide (j < n))

/-- The memory when the token is at `tok`, the first `b` places are subscribed, and `rest` is left to
    build. -/
structure MemInv (toError : X → E) (c : Chain V E X ι) (m : Memory V E X ι)
    (rest : Option (List (ChainOp V E X ι))) (b : Nat) (tok : Token ι) : Prop where
  building : Building c b rest
  placed : tok.Placed c.size b
  heap : m.heap.length = cellCount b rest
  cells : HeapAt c.callback (c.result toError) (phaseAt b (tok.setCount c.size)) m.heap
  inline : c.Inline → ∀ j, m.executorAt j = none
  pending : m.pending = tok.pending c toError
  consumed : m.consumed = tok.consumed c toError
  invoked : m.invoked.map Prod.fst = c.invokedUpTo toError (tok.callCount c.size)
  sets : m.sets = (List.range (tok.setCount c.size)).map fun j => (j, c.result toError j)

theorem Building.le {c : Chain V E X ι} {b : Nat} {rest : Option (List (ChainOp V E X ι))}
    (h : Building c b rest) : (rest = none ∧ b = c.size + 1) ∨ (rest ≠ none ∧ b ≤ c.size) := by
  cases rest with
  | none => exact .inl ⟨rfl, h⟩
  | some rest =>
      obtain ⟨pre, hops, rfl⟩ := h
      refine .inr ⟨by simp, ?_⟩
      rw [Chain.size, Chain.stages, hops, stagesOf_append, List.length_append]
      omega

/-- The shared state at a place the token is at exists. -/
theorem MemInv.lt_heap {toError : X → E} {c : Chain V E X ι} {m : Memory V E X ι}
    {rest : Option (List (ChainOp V E X ι))} {b j : Nat} {tok : Token ι}
    (h : MemInv toError c m rest b tok) (hj : j ≤ c.size) (hb : j ≤ b) : j < m.heap.length := by
  rw [h.heap]
  rcases h.building.le with ⟨rfl, hb'⟩ | ⟨hrest, -⟩
  · simp only [cellCount]; omega
  · obtain ⟨rest, rfl⟩ := Option.ne_none_iff_exists'.mp hrest
    simp only [cellCount]; omega

/-- `Execute` at place `j` moves the token there. -/
theorem Token.handOver_fired (c : Chain V E X ι) (toError : X → E) (j : Nat) (ex : Option ι) :
    (Token.handOver j ex).frames c toError =
        (Phase.fired ex).frames (c.callback j) (c.result toError j) ∧
      (Token.handOver j ex).pending c toError =
        (Phase.fired ex).tasks (c.callback j) (c.result toError j) := by
  cases ex <;> exact ⟨rfl, rfl⟩

/-- After an arrival at place `j`, the other places are what they were. -/
theorem phaseAt_update {c : Chain V E X ι} {toError : X → E}
    {heap : List (SharedState (Callback V E X) (Result V E) ι)} {j b n b' n' : Nat} {p : Phase ι}
    (h : HeapAt c.callback (c.result toError) (Function.update (phaseAt b n) j p) heap)
    (hb : ∀ i, i ≠ j → (i < b' ↔ i < b)) (hn : ∀ i, i ≠ j → (i < n' ↔ i < n))
    (hp : p = phaseAt b' n' j ∨ (j < b' ∧ j < n')) :
    HeapAt c.callback (c.result toError) (phaseAt b' n') heap := by
  refine h.mono ?_
  intro i s hs
  by_cases hij : i = j
  · subst hij
    rw [Function.update_self] at hs
    rcases hp with rfl | ⟨hb', hn'⟩
    · exact hs
    · rw [phaseAt, decide_eq_true hb', decide_eq_true hn']
      trivial
  · rw [Function.update_of_ne hij] at hs
    simp only [phaseAt, hb i hij, hn i hij]
    exact hs

theorem range_map_snoc {α : Type} (f : Nat → α) (n : Nat) :
    (List.range (n + 1)).map f = (List.range n).map f ++ [f n] := by
  rw [List.range_succ, List.map_append]; rfl

/-! ## One lemma per kind of frame -/

/-- **The promise at place `j` is set.** The result stays there, or goes to the subscribed callback. -/
theorem MemInv.exec_set {W : Wheels V E X} {c : Chain V E X ι} {m : Memory V E X ι}
    {rest : Option (List (ChainOp V E X ι))} {b j : Nat}
    (h : MemInv W.toError c m rest b (.setting j)) :
    ∃ m' tok', exec W m (.set ⟨some j⟩ (c.result W.toError j))
        = .ok (m', none, tok'.frames c W.toError) ∧ MemInv W.toError c m' rest b tok' ∧
      (tok' = .stored j ∨ ∃ ex, j < b ∧ tok' = .handOver j ex ∧ (c.Inline → ex = none)) := by
  obtain ⟨hj, hb⟩ := h.placed
  have hpending : m.pending = [] := h.pending
  have hsets := range_map_snoc (fun i => (i, c.result W.toError i)) j
  have hphase : (phaseAt b j j : Phase ι) = .of (decide (j < b)) false := by simp [phaseAt]
  obtain ⟨heap', hset, hcells, hex⟩ := h.cells.setResult (h.lt_heap hj hb) (by
    rw [show (Token.setting j : Token ι).setCount c.size = j from rfl, hphase]
    cases decide (j < b) <;> rfl)
  rw [show (Token.setting j : Token ι).setCount c.size = j from rfl, hphase] at hset hcells
  have hlength : heap'.length = cellCount b rest := by
    rw [← h.heap]
    simpa using congrArg List.length hex
  have hn : ∀ i, i ≠ j → (i < j + 1 ↔ i < j) := by intro i hi; omega
  have hinline : c.Inline → ∀ i, Memory.executorAt { m with heap := heap' } i = none := by
    intro hin i
    exact (executorAt_congr hex i).trans (h.inline hin i)
  rcases Nat.lt_or_eq_of_le hb with hb | rfl
  · -- a callback is subscribed
    rw [decide_eq_true hb] at hset hcells
    have hexec : exec W m (.set ⟨some j⟩ (c.result W.toError j)) =
        .ok ({ m with heap := heap'
                      pending := (Token.handOver j (m.executorAt j)).pending c W.toError
                      sets := m.sets ++ [(j, c.result W.toError j)] },
          none, (Token.handOver j (m.executorAt j)).frames c W.toError) := by
      obtain ⟨hframes, htasks⟩ := Token.handOver_fired c W.toError j (m.executorAt j)
      simp only [exec, hset, Except.map, hframes, htasks, hpending, List.nil_append]
      rfl
    refine ⟨_, _, hexec, ?_, .inr ⟨_, hb, rfl, fun hin => h.inline hin j⟩⟩
    exact
      { building := h.building
        placed := Token.handOver_placed hj hb _
        heap := hlength
        cells := by
          rw [Token.handOver_setCount]
          exact phaseAt_update hcells (fun _ _ => Iff.rfl) hn (.inr ⟨hb, Nat.lt_succ_self j⟩)
        inline := hinline
        pending := rfl
        consumed := by rw [Token.handOver_consumed]; exact h.consumed
        invoked := by rw [Token.handOver_callCount]; exact h.invoked
        sets := by rw [Token.handOver_setCount, hsets, h.sets]; rfl }
  · -- nobody is subscribed yet
    rw [decide_eq_false (Nat.lt_irrefl j)] at hset hcells
    have hexec : exec W m (.set ⟨some j⟩ (c.result W.toError j)) =
        .ok ({ m with heap := heap', sets := m.sets ++ [(j, c.result W.toError j)] },
          none, (Token.stored j).frames c W.toError) := by
      simp only [exec, hset, Except.map, Phase.of, Phase.set, Phase.tasks, List.append_nil]
      rfl
    refine ⟨_, _, hexec, ?_, .inl rfl⟩
    exact
      { building := h.building
        placed := ⟨hj, rfl⟩
        heap := hlength
        cells := by
          refine phaseAt_update hcells (fun _ _ => Iff.rfl) hn (.inl ?_)
          simp [phaseAt, Token.setCount, Phase.of, Phase.set]
        inline := hinline
        pending := h.pending
        consumed := h.consumed
        invoked := h.invoked
        sets := by simp only [Token.setCount, hsets, h.sets] }

/-- **A stage's lambda runs.** -/
theorem MemInv.exec_call {W : Wheels V E X} (hW : W.Documented) {c : Chain V E X ι}
    {m : Memory V E X ι} {rest : Option (List (ChainOp V E X ι))} {b j : Nat} {on : Option ι}
    (h : MemInv W.toError c m rest b (.calling j on)) (hj : j < c.size) :
    ∃ m', exec W m (.call (c.callback j) (c.result W.toError j) on)
        = .ok (m', none, stageFrames ⟨some (j + 1)⟩ (c.result W.toError (j + 1))) ∧
      MemInv W.toError c m' rest b (.setting (j + 1)) := by
  obtain ⟨-, hb⟩ := h.placed
  have hs : c.stages[j]? = some c.stages[j] := List.getElem?_eq_getElem hj
  have hexec : exec W m (.call (c.callback j) (c.result W.toError j) on) =
      .ok (m.logInvoked (c.invokes W.toError j) ⟨some (j + 1)⟩ on, none,
        stageFrames ⟨some (j + 1)⟩ (c.result W.toError (j + 1))) := by
    simp only [exec, Chain.callback, Chain.invokes, hs, call, callTransform_eq hW,
      Chain.result_succ hs]
  have hinvoked : m.invoked.map Prod.fst = c.invokedUpTo W.toError j := h.invoked
  have hlog : (m.logInvoked (c.invokes W.toError j) ⟨some (j + 1)⟩ on).invoked.map Prod.fst =
      c.invokedUpTo W.toError (j + 1) := by
    rw [Chain.invokedUpTo_succ, ← hinvoked, Memory.logInvoked, List.map_append]
    split <;> rfl
  exact ⟨_, hexec, h.building, ⟨hj, hb⟩, h.heap, h.cells, h.inline, h.pending, h.consumed, hlog, h.sets⟩

/-- **The callback at the end runs.** It may throw. -/
theorem MemInv.exec_consume {W : Wheels V E X} {c : Chain V E X ι} {m : Memory V E X ι}
    {rest : Option (List (ChainOp V E X ι))} {b : Nat} {on : Option ι}
    (h : MemInv W.toError c m rest b (.calling c.size on)) :
    ∃ m' raised, exec W m (.call (c.callback c.size) (c.result W.toError c.size) on)
        = .ok (m', raised, []) ∧ MemInv W.toError c m' rest b .done ∧
      ∀ x, raised = some x → c.body (c.result W.toError c.size) = .error x := by
  have hs : c.stages[c.size]? = none := List.getElem?_eq_none (Nat.le_refl _)
  have hconsumed : m.consumed = [] := h.consumed
  have hmem : MemInv W.toError c { m with consumed := m.consumed ++ [c.result W.toError c.size] }
      rest b .done :=
    ⟨h.building, h.placed.2, h.heap, h.cells, h.inline, h.pending,
      by simp [hconsumed, Token.consumed], h.invoked, h.sets⟩
  cases hbody : c.body (c.result W.toError c.size) with
  | ok u =>
      exact ⟨_, none, by simp only [exec, Chain.callback, hs, call, hbody], hmem, by simp⟩
  | error x =>
      exact ⟨_, some x, by simp only [exec, Chain.callback, hs, call, hbody], hmem, by simp⟩

/-- What subscribing place `b` does to the token: a result stored there moves on. -/
def Token.Subscribed (size b : Nat) (tok tok' : Token ι) : Prop :=
  (tok' = tok ∧ ¬ b < tok.setCount size) ∨ (tok = .stored b ∧ ∃ ex, tok' = .handOver b ex)

/-- **The building thread subscribes place `b`.** The callback stays there, or gets the stored result. -/
theorem subscribe_place {toError : X → E} {c : Chain V E X ι} {m : Memory V E X ι} {b : Nat}
    {tok : Token ι} (hplaced : tok.Placed c.size b)
    (hcells : HeapAt c.callback (c.result toError) (phaseAt b (tok.setCount c.size)) m.heap)
    (hlt : b < m.heap.length) (hpending : m.pending = tok.pending c toError) :
    ∃ heap' tok' fs, m.subscribe b (c.callback b) =
        .ok ({ m with heap := heap', pending := tok'.pending c toError }, fs) ∧
      HeapAt c.callback (c.result toError) (phaseAt (b + 1) (tok.setCount c.size)) heap' ∧
      heap'.map (·.executor) = m.heap.map (·.executor) ∧
      (fs : Multiset (Frame V E X ι)) + tok.frames c toError = tok'.frames c toError ∧
      tok.Subscribed c.size b tok' := by
  have hb : ∀ i, i ≠ b → (i < b + 1 ↔ i < b) := by intro i hi; omega
  have hphase : (phaseAt b (tok.setCount c.size) b : Phase ι) =
      .of false (decide (b < tok.setCount c.size)) := by simp [phaseAt]
  obtain ⟨heap', hsub, hcells', hex⟩ := hcells.subscribe hlt (by
    rw [hphase]
    cases decide (b < tok.setCount c.size) <;> rfl)
  rw [hphase] at hsub hcells'
  by_cases hset : b < tok.setCount c.size
  · -- the result is there already: the token is stored at `b`
    obtain rfl : tok = .stored b := by
      cases tok with
      | stored j => rw [hplaced.2]
      | setting j | calling j | queued j | done =>
          simp only [Token.Placed, Token.setCount] at hplaced hset
          omega
    obtain ⟨hframes, htasks⟩ := Token.handOver_fired c toError b (m.executorAt b)
    rw [decide_eq_true hset] at hsub hcells'
    refine ⟨heap', .handOver b (m.executorAt b), (Token.handOver b (m.executorAt b)).frames c toError,
      ?_, ?_, hex, ?_, .inr ⟨rfl, _, rfl⟩⟩
    · rw [hsub, hframes, htasks, hpending]
      rfl
    · exact phaseAt_update hcells' hb (fun _ _ => Iff.rfl) (.inr ⟨Nat.lt_succ_self b, hset⟩)
    · simp [Token.frames]
  · -- no result yet
    rw [decide_eq_false hset] at hsub hcells'
    refine ⟨heap', tok, [], ?_, ?_, hex, ?_, .inl ⟨rfl, hset⟩⟩
    · rw [hsub, hpending]
      simp only [Phase.of, Phase.subscribe, Phase.tasks, Phase.frames, List.append_nil]
    · refine phaseAt_update hcells' hb (fun _ _ => Iff.rfl) (.inl ?_)
      simp [phaseAt, hset, Phase.of, Phase.subscribe]
    · simp

theorem Token.Subscribed.placed {size b : Nat} {tok tok' : Token ι} (h : tok.Subscribed size b tok')
    (hb : b ≤ size) (hplaced : tok.Placed size b) : tok'.Placed size (b + 1) := by
  rcases h with ⟨rfl, hset⟩ | ⟨rfl, ex, rfl⟩
  · cases tok' <;> simp only [Token.Placed, Token.setCount] at hplaced hset ⊢ <;> omega
  · exact Token.handOver_placed hb (Nat.lt_succ_self b) ex

theorem Token.Subscribed.setCount {size b : Nat} {tok tok' : Token ι}
    (h : tok.Subscribed size b tok') : tok'.setCount size = tok.setCount size := by
  rcases h with ⟨rfl, -⟩ | ⟨rfl, ex, rfl⟩
  · rfl
  · exact Token.handOver_setCount _ _ _

theorem Token.Subscribed.callCount {size b : Nat} {tok tok' : Token ι}
    (h : tok.Subscribed size b tok') : tok'.callCount size = tok.callCount size := by
  rcases h with ⟨rfl, -⟩ | ⟨rfl, ex, rfl⟩
  · rfl
  · exact Token.handOver_callCount _ _ _

theorem Token.Subscribed.consumed {size b : Nat} {tok tok' : Token ι}
    (h : tok.Subscribed size b tok') (c : Chain V E X ι) (toError : X → E) :
    tok'.consumed c toError = tok.consumed c toError := by
  rcases h with ⟨rfl, -⟩ | ⟨rfl, ex, rfl⟩
  · rfl
  · exact Token.handOver_consumed _ _ _ _

theorem Token.Subscribed.rank {size b : Nat} {tok tok' : Token ι}
    (h : tok.Subscribed size b tok') : tok'.rank size ≤ tok.rank size := by
  rcases h with ⟨rfl, -⟩ | ⟨rfl, ex, rfl⟩
  · exact Nat.le_refl _
  · exact Nat.le_of_lt (Token.handOver_rank _ _ _)

/-- A place that is subscribed while the rest of the chain is yet to be built. -/
theorem MemInv.subscribed {toError : X → E} {c : Chain V E X ι} {m : Memory V E X ι}
    {rest rest' : Option (List (ChainOp V E X ι))} {b : Nat} {tok tok' : Token ι}
    {heap : List (SharedState (Callback V E X) (Result V E) ι)}
    (h : MemInv toError c m rest b tok) (hb : b ≤ c.size) (hsub : tok.Subscribed c.size b tok')
    (hbuilding : Building c (b + 1) rest') (hheap : heap.length = cellCount (b + 1) rest')
    (hcells : HeapAt c.callback (c.result toError) (phaseAt (b + 1) (tok.setCount c.size)) heap)
    (hinline : c.Inline → ∀ j, Memory.executorAt { m with heap } j = none) :
    MemInv toError c { m with heap, pending := tok'.pending c toError } rest' (b + 1) tok' where
  building := hbuilding
  placed := hsub.placed hb h.placed
  heap := hheap
  cells := by rw [hsub.setCount]; exact hcells
  inline := hinline
  pending := rfl
  consumed := by rw [hsub.consumed]; exact h.consumed
  invoked := by rw [hsub.callCount]; exact h.invoked
  sets := by rw [hsub.setCount]; exact h.sets

/-- The calls the building thread has left, its last `Subscribe` included. -/
def buildRank : Option (List (ChainOp V E X ι)) → Nat
  | some rest => rest.length + 1
  | none => 0

/-- **The building thread makes its next call.** -/
theorem MemInv.exec_build {W : Wheels V E X} {c : Chain V E X ι} {m : Memory V E X ι}
    {rest : List (ChainOp V E X ι)} {b : Nat} {tok : Token ι}
    (h : MemInv W.toError c m (some rest) b tok) :
    ∃ m' rest' b' tok' fs, exec W m (.build b (c.program rest)) = .ok (m', none, fs) ∧
      MemInv W.toError c m' rest' b' tok' ∧
      (fs : Multiset (Frame V E X ι)) + tok.frames c W.toError =
        (buildFrames c b' rest' : Multiset (Frame V E X ι)) + tok'.frames c W.toError ∧
      buildRank rest' < buildRank (some rest) ∧ tok'.rank c.size ≤ tok.rank c.size ∧
      (tok' = tok ∨ tok = .stored b) := by
  obtain ⟨pre, hops, hbpre⟩ := h.building
  have hb : b ≤ c.size := by
    rcases h.building.le with ⟨hnone, -⟩ | ⟨-, hb⟩
    · cases hnone
    · exact hb
  have hstages : c.stages = stagesOf pre ++ stagesOf rest := by
    rw [Chain.stages, hops, stagesOf_append]
  have hlt := h.lt_heap hb (Nat.le_refl b)
  have hheap : m.heap.length = b + 1 := h.heap
  cases rest with
  | nil =>
      -- the last call: the user's callback
      have hsize : b = c.size := by rw [hbpre, Chain.size, hstages]; simp [stagesOf]
      have hcb : c.callback b = .consumer c.body := by
        rw [Chain.callback, List.getElem?_eq_none (Nat.le_of_eq hsize.symm)]
      obtain ⟨heap', tok', fs, hexec, hcells, hex, hfs, hsub⟩ :=
        subscribe_place h.placed h.cells hlt h.pending
      have hbuild : exec W m (.build b (c.program [])) =
          .ok ({ m with heap := heap', pending := tok'.pending c W.toError }, none, fs) := by
        simp only [exec, Chain.program, List.map_nil, List.nil_append, build, ← hcb, hexec, Except.map]
      have hlength : heap'.length = b + 1 := by
        rw [← hheap]
        simpa using congrArg List.length hex
      refine ⟨_, none, b + 1, tok', fs, hbuild,
        h.subscribed hb hsub (by rw [hsize]; rfl) hlength hcells ?_, ?_, ?_, hsub.rank, ?_⟩
      · intro hin j
        exact (executorAt_congr hex j).trans (h.inline hin j)
      · rw [hfs]; simp [buildFrames]
      · simp [buildRank]
      · exact hsub.imp And.left And.left
  | cons op rest =>
      cases op with
      | via e =>
          -- the future at `b` gets an executor
          have hbuild : exec W m (.build b (c.program (.via e :: rest))) =
              .ok ({ m with heap := m.heap.modify b (·.setExecutor e) }, none,
                [.build b (c.program rest)]) := by
            simp only [exec, Chain.program, List.map_cons, ChainOp.toOp, List.cons_append, build,
              Except.map]
          refine ⟨_, some rest, b, tok, _, hbuild,
            ⟨⟨pre ++ [.via e], by simp [hops], by simp [hbpre, stagesOf_append, stagesOf]⟩, h.placed,
              by simpa [cellCount] using hheap, h.cells.modify_setExecutor b e, ?_, h.pending, h.consumed,
              h.invoked, h.sets⟩,
            rfl, by simp [buildRank], Nat.le_refl _, .inl rfl⟩
          intro hin j
          cases e with
          | none => exact executorAt_setExecutor_none (h.inline hin) b j
          | some e => exact absurd (by simp [hops]) (hin e)
      | stage st =>
          -- a new contract, and the stage's lambda is subscribed at `b`
          have hst : c.stages[b]? = some st := by rw [hstages, hbpre]; simp [stagesOf]
          have hcb : c.callback b = .transform st ⟨some (b + 1)⟩ := by rw [Chain.callback, hst]
          -- the new state is fresh: the token is not past `b`
          have hset := h.placed.setCount_le
          have hcells := h.cells.append (by
            rw [hheap, phaseAt, decide_eq_false (by omega : ¬ b + 1 < b),
              decide_eq_false (by omega : ¬ b + 1 < tok.setCount c.size)]
            rfl) (m.executorAt b)
          obtain ⟨heap', tok', fs, hexec, hcells', hex, hfs, hsub⟩ :=
            subscribe_place (m := m.alloc (m.executorAt b)) h.placed hcells
              (by simp [Memory.alloc]; omega) h.pending
          have hbuild : exec W m (.build b (c.program (.stage st :: rest))) =
              .ok ({ m.alloc (m.executorAt b) with heap := heap', pending := tok'.pending c W.toError },
                none, fs ++ [.build (b + 1) (c.program rest)]) := by
            simp only [exec, Chain.program, List.map_cons, ChainOp.toOp, List.cons_append, build,
              hheap, ← hcb, hexec, Except.map]
          have hlength : heap'.length = b + 1 + 1 := by
            simpa [Memory.alloc, hheap] using congrArg List.length hex
          refine ⟨_, some rest, b + 1, tok', _, hbuild,
            h.subscribed hb hsub ⟨pre ++ [.stage st], by simp [hops],
              by simp [hbpre, stagesOf_append, stagesOf]⟩ hlength hcells' ?_, ?_, by simp [buildRank],
            hsub.rank, ?_⟩
          · intro hin j
            -- the new state inherits the executor of `b`
            exact (executorAt_congr hex j).trans
              (executorAt_alloc (h.inline hin) (h.inline hin b) j)
          · rw [← Multiset.coe_add, buildFrames, ← hfs]
            abel
          · exact hsub.imp And.left And.left

/-- A task starts: the token leaves the queue. -/
theorem MemInv.start {toError : X → E} {c : Chain V E X ι} {m : Memory V E X ι}
    {rest : Option (List (ChainOp V E X ι))} {b i : Nat} {tok : Token ι} {e : ι}
    {cb : Callback V E X} {r : Result V E} (h : MemInv toError c m rest b tok)
    (htask : m.pending[i]? = some (e, cb, r)) :
    ∃ j, tok = .queued j e ∧ cb = c.callback j ∧ r = c.result toError j ∧
      MemInv toError c { m with pending := m.pending.eraseIdx i } rest b (.calling j (some e)) := by
  have hpending := h.pending
  rw [hpending] at htask
  cases tok with
  | queued j e' =>
      have hi : i = 0 := by
        have hlt := (List.getElem?_eq_some_iff.mp htask).1
        simp only [Token.pending, List.length_singleton] at hlt
        omega
      subst hi
      simp only [Token.pending, List.getElem?_cons_zero, Option.some.injEq, Prod.mk.injEq] at htask
      obtain ⟨rfl, rfl, rfl⟩ := htask
      refine ⟨j, rfl, rfl, rfl, h.building, h.placed, h.heap, h.cells, h.inline, ?_, h.consumed,
        h.invoked, h.sets⟩
      rw [hpending]
      rfl
  | setting | stored | calling | done => simp [Token.pending] at htask

/-! ## All frames together -/

/-- The calls in progress when the token is at `tok`, `rest` is left to build, and `q` stages have their
    `try` block open. -/
def framesAt (c : Chain V E X ι) (toError : X → E) (rest : Option (List (ChainOp V E X ι))) (b : Nat)
    (tok : Token ι) (q : Nat) : Multiset (Frame V E X ι) :=
  (buildFrames c b rest : Multiset (Frame V E X ι)) + (tok.frames c toError : Multiset (Frame V E X ι)) +
    Multiset.replicate q (Frame.catchSetError ⟨none⟩)

/-- How many steps are left at most. -/
def rankAt (c : Chain V E X ι) (rest : Option (List (ChainOp V E X ι))) (tok : Token ι) (q : Nat) : Nat :=
  buildRank rest + tok.rank c.size + q

/-- Only a stage with a value opens a `try` block. -/
def Tries (c : Chain V E X ι) (toError : X → E) (q : Nat) : Prop :=
  q = 0 ∨ ∃ j, 0 < j ∧ j ≤ c.size ∧ (c.result toError j).isOk = true

/-- **Whatever frame runs.** No check fails, and the result is again a memory and a set of calls that the
    token and the building thread determine; an exception leaves the final callback only. -/
theorem MemInv.exec_frame {W : Wheels V E X} (hW : W.Documented) {c : Chain V E X ι}
    {m : Memory V E X ι} {rest : Option (List (ChainOp V E X ι))} {b q : Nat} {tok : Token ι}
    {f : Frame V E X ι} (h : MemInv W.toError c m rest b tok) (htries : Tries c W.toError q)
    (hf : f ∈ framesAt c W.toError rest b tok q) :
    ∃ m' raised fs rest' b' tok' q', exec W m f = .ok (m', raised, fs) ∧
      MemInv W.toError c m' rest' b' tok' ∧ Tries c W.toError q' ∧
      framesAt c W.toError rest b tok q + fs = framesAt c W.toError rest' b' tok' q' + {f} ∧
      rankAt c rest' tok' q' < rankAt c rest tok q ∧
      ∀ x, raised = some x → fs = [] ∧
        framesAt c W.toError rest' b' tok' q' = Multiset.replicate q' (Frame.catchSetError ⟨none⟩) ∧
        ∃ on, f = .call (.consumer c.body) (c.result W.toError c.size) on ∧
          c.body (c.result W.toError c.size) = .error x := by
  rw [framesAt, Multiset.mem_add, Multiset.mem_add] at hf
  rcases hf with (hf | hf) | hf
  · -- the building thread
    cases rest with
    | none => simp [buildFrames] at hf
    | some rest =>
        obtain rfl : f = .build b (c.program rest) := by simpa [buildFrames] using hf
        obtain ⟨m', rest', b', tok', fs, hexec, hmem, hfs, hbuild, hrank, -⟩ := h.exec_build
        refine ⟨m', none, fs, rest', b', tok', q, hexec, hmem, htries, ?_, ?_, by simp⟩
        · rw [framesAt, framesAt, ← hfs, buildFrames, Multiset.coe_singleton]
          abel
        · simp only [rankAt]
          omega
  · -- the call that carries the result
    cases tok with
    | setting j =>
        obtain rfl : f = .set ⟨some j⟩ (c.result W.toError j) := by simpa [Token.frames] using hf
        obtain ⟨m', tok', hexec, hmem, hmoved⟩ := h.exec_set
        refine ⟨m', none, _, rest, b, tok', q, hexec, hmem, htries, ?_, ?_, by simp⟩
        · rw [framesAt, framesAt,
            show ((Token.setting j).frames c W.toError : Multiset (Frame V E X ι)) = {_} from rfl]
          abel
        · have hrank : tok'.rank c.size < (Token.setting j : Token ι).rank c.size := by
            rcases hmoved with rfl | ⟨ex, -, rfl, -⟩
            · simp only [Token.rank]; omega
            · have hlt := Token.handOver_rank c.size j ex
              simp only [Token.rank] at hlt ⊢
              omega
          simp only [rankAt]
          omega
    | calling j on =>
        obtain rfl : f = .call (c.callback j) (c.result W.toError j) on := by
          simpa [Token.frames] using hf
        have hframes : ((Token.calling j on).frames c W.toError : Multiset (Frame V E X ι)) =
            {.call (c.callback j) (c.result W.toError j) on} := rfl
        obtain ⟨hj, hb⟩ := h.placed
        rcases Nat.lt_or_eq_of_le hj with hj | rfl
        · obtain ⟨m', hexec, hmem⟩ := h.exec_call hW hj
          refine ⟨m', none, _, rest, b, .setting (j + 1),
            q + openTries (c.result W.toError (j + 1)), hexec, hmem, ?_, ?_, ?_, by simp⟩
          · by_cases hok : (c.result W.toError (j + 1)).isOk = true
            · exact .inr ⟨j + 1, Nat.succ_pos j, hj, hok⟩
            · rw [openTries, if_neg hok]
              exact htries
          · rw [coe_stageFrames, framesAt, framesAt, hframes, Multiset.replicate_add,
              show ((Token.setting (j + 1)).frames c W.toError : Multiset (Frame V E X ι)) = {_} from rfl]
            abel
          · have hopen := openTries_le (c.result W.toError (j + 1))
            simp only [rankAt, Token.rank]
            omega
        · obtain ⟨m', raised, hexec, hmem, hraised⟩ := h.exec_consume
          have hrest : rest = none := by
            rcases h.building.le with ⟨hrest, -⟩ | ⟨-, hb'⟩
            · exact hrest
            · omega
          have hcb : c.callback c.size = .consumer c.body := by
            rw [Chain.callback, show c.stages[c.size]? = none from List.getElem?_eq_none (Nat.le_refl _)]
          refine ⟨m', raised, [], rest, b, .done, q, hexec, hmem, htries, ?_, ?_, ?_⟩
          · rw [framesAt, framesAt, hframes]
            simp only [Token.frames, Multiset.coe_nil]
            abel
          · simp only [rankAt, Token.rank]
            omega
          · intro x hx
            refine ⟨rfl, ?_, on, by rw [hcb], hraised x hx⟩
            rw [framesAt, hrest]
            simp [buildFrames, Token.frames]
    | stored | queued | done => simp [Token.frames] at hf
  · -- a `try` block is left
    obtain ⟨hq, rfl⟩ := Multiset.mem_replicate.mp hf
    obtain ⟨q, rfl⟩ := Nat.exists_eq_succ_of_ne_zero hq
    refine ⟨m, none, [], rest, b, tok, q, rfl, h, ?_, ?_, ?_, by simp⟩
    · exact htries.imp (fun hzero => absurd hzero hq) id
    · rw [framesAt, framesAt, Multiset.replicate_succ, ← Multiset.singleton_add]
      simp only [Multiset.coe_nil]
      abel
    · simp only [rankAt]
      omega

end Futures
end Tpcc
