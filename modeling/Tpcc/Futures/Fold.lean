import Tpcc.Futures.Token

/-!
# `Futures.Fold` — a chain of synchronous stages computes the fold of its stages

`ChainInv` adds the threads to `MemInv`: the calls in progress are exactly those of `framesAt`, no check
has failed, and an exception is in flight only on a thread with nothing left to unwind. It is kept by
every step from a **calm** state, where the final callback does not throw into an open `try` block
(`ChainInv.next`), and the number of steps left falls.

A chain whose final callback does not throw is always calm, so the invariant holds in all its runs, and
`chain_folds` reads it off where the machine stands still.
-/

namespace Tpcc
namespace Futures

open Transition Futures.Machine

variable {V E X ι : Type}

/-! ## The invariant of a run -/

structure ChainInv (W : Wheels V E X) (c : Chain V E X ι) (m : Machine V E X ι)
    (rest : Option (List (ChainOp V E X ι))) (b : Nat) (tok : Token ι) (q : Nat) : Prop where
  mem : MemInv W.toError c m.mem rest b tok
  frames : m.frames = framesAt c W.toError rest b tok q
  tries : Tries c W.toError q
  violated : m.violated = none
  raised : ∀ t ∈ m.threads, t.raised.isSome → t.stack = []

/-- No thread is about to call a callback of the user that throws into an open `try` block. -/
def Calm (m : Machine V E X ι) : Prop :=
  ∀ t ∈ m.threads, ∀ body r on stk, t.stack = .call (.consumer body) r on :: stk →
    (∃ x, body r = .error x) → ∀ p, .catchSetError p ∉ stk

theorem chainInv_machine (W : Wheels V E X) (c : Chain V E X ι) :
    ChainInv W c c.machine (some c.ops) 0 (.setting 0) 0 where
  mem :=
    { building := ⟨[], rfl, rfl⟩
      placed := ⟨Nat.zero_le _, Nat.zero_le _⟩
      heap := rfl
      cells := by
        intro j s hs
        have hlt := (List.getElem?_eq_some_iff.mp hs).1
        obtain rfl : j = 0 := Nat.lt_one_iff.mp hlt
        obtain rfl := List.mem_singleton.mp (List.mem_of_getElem? hs)
        rfl
      inline := by
        intro _ j
        cases j <;> rfl
      pending := rfl
      consumed := rfl
      invoked := rfl
      sets := rfl }
  frames := by
    rw [framesAt, Multiset.replicate_zero, add_zero]
    rfl
  tries := .inl rfl
  violated := rfl
  raised := by
    intro t ht
    simp only [Chain.machine, List.mem_cons, List.not_mem_nil, or_false] at ht
    rcases ht with rfl | rfl <;> simp

/-- **One step.** From a calm state the invariant is kept, and fewer steps are left. -/
theorem ChainInv.next {W : Wheels V E X} (hW : W.Documented) {c : Chain V E X ι}
    {m m' : Machine V E X ι} {rest : Option (List (ChainOp V E X ι))} {b q : Nat} {tok : Token ι}
    {a : Action} (h : ChainInv W c m rest b tok q) (hcalm : Calm m) (hnext : next W m a = some m') :
    ∃ rest' b' tok' q', ChainInv W c m' rest' b' tok' q' ∧ rankAt c rest' tok' q' < rankAt c rest tok q := by
  cases (next_stepped hnext).2 with
  | unwind thread =>
      -- an exception in flight has nothing left to unwind
      have hstack := h.raised _ (List.mem_of_getElem? thread) rfl
      cases hstack
  | violate thread failed =>
      have hf := h.frames ▸ mem_frames (List.mem_of_getElem? thread) List.mem_cons_self
      obtain ⟨_, _, _, _, _, _, _, hexec, -⟩ := h.mem.exec_frame hW h.tries hf
      rw [hexec] at failed
      cases failed
  | @run i f fs stk mem raised thread done =>
      have hf := h.frames ▸ mem_frames (List.mem_of_getElem? thread) List.mem_cons_self
      obtain ⟨mem', raised', fs', rest', b', tok', q', hexec, hmem, htries, hframes, hrank, hraised⟩ :=
        h.mem.exec_frame hW h.tries hf
      rw [hexec] at done
      obtain ⟨rfl, rfl, rfl⟩ : mem' = mem ∧ raised' = raised ∧ fs' = fs := by
        simpa only [Except.ok.injEq, Prod.mk.injEq] using done
      have hframes' : ({ m with mem := mem', threads := m.threads.set i ⟨raised', fs' ++ stk⟩ } :
          Machine V E X ι).frames = framesAt c W.toError rest' b' tok' q' := by
        have hset := frames_set ({ m with
          mem := mem', threads := m.threads.set i ⟨raised', fs' ++ stk⟩ }) thread rfl
        rw [h.frames, hframes] at hset
        exact add_right_cancel hset
      refine ⟨rest', b', tok', q', ⟨hmem, hframes', htries, h.violated, ?_⟩, hrank⟩
      intro t ht hsome
      rcases List.mem_or_eq_of_mem_set ht with ht | rfl
      · exact h.raised t ht hsome
      · -- the final callback has thrown: below it there is nothing but open `try` blocks
        obtain ⟨x, rfl⟩ := Option.isSome_iff_exists.mp hsome
        obtain ⟨rfl, hcatch, on, rfl, hbody⟩ := hraised x rfl
        have hno := hcalm _ (List.mem_of_getElem? thread) _ _ _ _ rfl ⟨x, hbody⟩
        cases stk with
        | nil => rfl
        | cons g stk =>
            have hg := mem_frames ht List.mem_cons_self
            rw [hframes', hcatch] at hg
            obtain rfl := Multiset.eq_of_mem_replicate hg
            exact absurd List.mem_cons_self (hno _)
  | start task =>
      obtain ⟨j, rfl, rfl, rfl, hmem⟩ := h.mem.start task
      refine ⟨rest, b, .calling j (some _), q, ⟨hmem, ?_, h.tries, h.violated, ?_⟩, ?_⟩
      · rw [frames_append, h.frames, framesAt, framesAt]
        simp only [Token.frames, Multiset.coe_nil, Multiset.coe_singleton]
        abel
      · intro t ht hsome
        rcases List.mem_append.mp ht with ht | ht
        · exact h.raised t ht hsome
        · obtain rfl := List.mem_singleton.mp ht
          simp at hsome
      · simp only [rankAt, Token.rank]
        omega

/-! ## Chains that stay calm -/

/-- The final callback does not throw on the result of the chain, or no stage has a value. -/
def Chain.Safe (c : Chain V E X ι) (toError : X → E) : Prop :=
  (∀ x, c.body (c.fold toError) ≠ .error x) ∨
    ∀ j, 0 < j → j ≤ c.size → (c.result toError j).isOk = false

theorem ChainInv.calm {W : Wheels V E X} {c : Chain V E X ι} {m : Machine V E X ι}
    {rest : Option (List (ChainOp V E X ι))} {b q : Nat} {tok : Token ι}
    (h : ChainInv W c m rest b tok q) (hsafe : c.Safe W.toError) : Calm m := by
  intro t ht body r on stk hstk hthrows p hp
  rcases hsafe with hbody | hfail
  · -- the only call of a user's callback is the one at the end
    have hf := h.frames ▸ mem_frames ht (hstk ▸ List.mem_cons_self)
    rw [framesAt, Multiset.mem_add, Multiset.mem_add] at hf
    rcases hf with (hf | hf) | hf
    · cases rest <;> simp [buildFrames] at hf
    · cases tok with
      | calling j on' =>
          simp only [Token.frames, Multiset.coe_singleton, Multiset.mem_singleton, Frame.call.injEq,
            Chain.callback] at hf
          obtain ⟨hcb, rfl, -⟩ := hf
          have hj : j ≤ c.size := h.mem.placed.1
          split at hcb
          · cases hcb
          · next hnone =>
              cases hcb
              have hsize : c.size ≤ j := List.getElem?_eq_none_iff.mp hnone
              obtain rfl := Nat.le_antisymm hj hsize
              obtain ⟨x, hx⟩ := hthrows
              rw [Chain.result_size] at hx
              exact hbody x hx
      | setting | stored | queued | done => simp [Token.frames] at hf
    · exact absurd (Multiset.eq_of_mem_replicate hf) (by simp)
  · -- no stage opens a `try` block
    have hf := h.frames ▸ mem_frames ht (hstk ▸ List.mem_cons_of_mem _ hp)
    have hq : q = 0 := by
      rcases h.tries with hq | ⟨j, hpos, hj, hok⟩
      · exact hq
      · rw [hfail j hpos hj] at hok
        cases hok
    rw [framesAt, hq, Multiset.replicate_zero, add_zero, Multiset.mem_add] at hf
    rcases hf with hf | hf
    · cases rest <;> simp [buildFrames] at hf
    · cases tok <;> simp [Token.frames] at hf

/-- The invariant of a run, by the number of steps left. -/
def ChainRank (W : Wheels V E X) (c : Chain V E X ι) (m : Machine V E X ι) (n : Nat) : Prop :=
  ∃ rest b tok q, ChainInv W c m rest b tok q ∧ rankAt c rest tok q = n

theorem chainRank_machine (W : Wheels V E X) (c : Chain V E X ι) (m : Machine V E X ι)
    (h : (c.system W).init m) : ∃ n, ChainRank W c m n := by
  obtain rfl : m = c.machine := h
  exact ⟨_, _, _, _, _, chainInv_machine W c, rfl⟩

/-- In runs from calm states, the invariant holds. -/
theorem ranked_calm {W : Wheels V E X} (hW : W.Documented) (c : Chain V E X ι) :
    ((c.system W).restrict fun m _ => Calm m).Ranked (ChainRank W c) := by
  rintro m m' n ⟨rest, b, tok, q, h, rfl⟩ ⟨hcalm, a, hnext⟩
  obtain ⟨rest', b', tok', q', h', hlt⟩ := h.next hW hcalm hnext
  exact ⟨_, hlt, rest', b', tok', q', h', rfl⟩

/-- In all runs of a safe chain, the invariant holds. -/
theorem ranked_safe {W : Wheels V E X} (hW : W.Documented) {c : Chain V E X ι}
    (hsafe : c.Safe W.toError) : (c.system W).Ranked (ChainRank W c) := by
  rintro m m' n ⟨rest, b, tok, q, h, hn⟩ hstep
  exact ranked_calm hW c m m' n ⟨rest, b, tok, q, h, hn⟩ ⟨h.calm hsafe, hstep⟩

/-! ## The fold -/

theorem MemInv.setsAt {toError : X → E} {c : Chain V E X ι} {m : Memory V E X ι}
    {rest : Option (List (ChainOp V E X ι))} {b : Nat} {tok : Token ι}
    (h : MemInv toError c m rest b tok) (j : Nat) :
    m.setsAt j = if j < tok.setCount c.size then [c.result toError j] else [] := by
  rw [Memory.setsAt, h.sets]
  generalize tok.setCount c.size = n
  induction n with
  | zero => rfl
  | succ n ih =>
      rw [range_map_snoc, List.filter_append, List.map_append, ih]
      by_cases hj : n = j
      · subst hj
        simp
      · have hiff : j < n + 1 ↔ j < n := by omega
        simp [hiff, hj]

theorem Chain.count_invokedUpTo (c : Chain V E X ι) (toError : X → E) (n j : Nat) :
    (c.invokedUpTo toError n).count ⟨some (j + 1)⟩ =
      if j < n ∧ c.invokes toError j = true then 1 else 0 := by
  induction n with
  | zero => simp [Chain.invokedUpTo]
  | succ n ih =>
      rw [Chain.invokedUpTo_succ, List.count_append, ih]
      by_cases hj : n = j
      · subst hj
        cases c.invokes toError n <;> simp
      · have hiff : j < n + 1 ↔ j < n := by omega
        have hne : (⟨some (n + 1)⟩ : Promise) ≠ ⟨some (j + 1)⟩ := by simpa using hj
        simp only [hiff]
        cases c.invokes toError n <;> simp [hne]

theorem MemInv.invocations {toError : X → E} {c : Chain V E X ι} {m : Memory V E X ι}
    {rest : Option (List (ChainOp V E X ι))} {b j : Nat} {tok : Token ι} {s : Stage V E X}
    (h : MemInv toError c m rest b tok) (hs : c.stages[j]? = some s) :
    m.invocations ⟨some (j + 1)⟩ =
      if j < tok.callCount c.size ∧ s.invokes (c.result toError j) = true then 1 else 0 := by
  have hinv : c.invokes toError j = s.invokes (c.result toError j) := by rw [Chain.invokes, hs]
  rw [Memory.invocations, h.invoked, Chain.count_invokedUpTo, hinv]

/-- When nothing is left to run, the token is through. -/
theorem ChainInv.done {W : Wheels V E X} {c : Chain V E X ι} {m : Machine V E X ι}
    {rest : Option (List (ChainOp V E X ι))} {b q : Nat} {tok : Token ι}
    (h : ChainInv W c m rest b tok q) (hq : (c.system W).Quiescent m) : tok = .done := by
  obtain ⟨hframes, hpending⟩ := quiescent_frames hq h.violated
  have hcard := congrArg Multiset.card (h.frames.symm.trans hframes)
  rw [framesAt, Multiset.card_add, Multiset.card_add, Multiset.coe_card, Multiset.coe_card] at hcard
  cases tok with
  | done => rfl
  | setting j => simp [Token.frames] at hcard
  | calling j on => simp [Token.frames] at hcard
  | queued j e =>
      rw [h.mem.pending] at hpending
      simp [Token.pending] at hpending
  | stored j =>
      -- the last place is subscribed once the chain is built
      obtain ⟨hj, hjb⟩ := h.mem.placed
      rcases h.mem.building.le with ⟨-, hb⟩ | ⟨hrest, -⟩
      · omega
      · obtain ⟨rest, rfl⟩ := Option.ne_none_iff_exists'.mp hrest
        simp [buildFrames] at hcard

/-- **A chain denotes the fold of its stages.** In every run of a chain whose final callback does not
    throw: no check fails; the last promise is fulfilled with nothing but the fold of the stages over the
    source, and at most once; the callable of a stage is invoked at most once, and only where the fold
    reaches it with a value (`Then`) or an error (`Recover`). No run goes on forever, and where it ends
    the promise has been fulfilled, the callback has got the result, and exactly these callables have
    been invoked. -/
theorem chain_folds {W : Wheels V E X} (hW : W.Documented) {c : Chain V E X ι}
    (hbody : ∀ r x, c.body r ≠ .error x) {m : Machine V E X ι} (h : (c.system W).Reachable m) :
    m.violated = none ∧
    m.mem.setsAt c.size <+: [c.fold W.toError] ∧
    (∀ j s, c.stages[j]? = some s → m.mem.invocations ⟨some (j + 1)⟩ ≤
      if s.invokes (c.result W.toError j) then 1 else 0) ∧
    (c.system W).Terminates m ∧
    ((c.system W).Quiescent m →
      m.mem.setsAt c.size = [c.fold W.toError] ∧ m.mem.consumed = [c.fold W.toError] ∧
      ∀ j s, c.stages[j]? = some s → m.mem.invocations ⟨some (j + 1)⟩ =
        if s.invokes (c.result W.toError j) then 1 else 0) := by
  have hsafe : c.Safe W.toError := .inl (hbody _)
  have hranked := ranked_safe hW hsafe
  obtain ⟨n, hrank⟩ := h.ranked hranked (chainRank_machine W c)
  have hterm := hranked.terminates hrank
  obtain ⟨rest, b, tok, q, hinv, -⟩ := hrank
  refine ⟨hinv.violated, ?_, ?_, hterm, ?_⟩
  · rw [hinv.mem.setsAt, Chain.result_size]
    split <;> simp
  · intro j s hs
    rw [hinv.mem.invocations hs]
    split <;> split <;> simp_all
  · intro hq
    obtain rfl := hinv.done hq
    refine ⟨?_, ?_, ?_⟩
    · rw [hinv.mem.setsAt, Chain.result_size]
      simp [Token.setCount]
    · rw [hinv.mem.consumed, Token.consumed, Chain.result_size]
    · intro j s hs
      have hj : j < c.size := (List.getElem?_eq_some_iff.mp hs).1
      rw [hinv.mem.invocations hs]
      simp [Token.callCount, hj]

/-- `Then` throws `5`, `Recover` handles it in a task of executor `9`. -/
theorem chain_folds_throw_recovered :
    ∃ m : Machine Nat Nat Nat Nat, m.mem.consumed = [.ok 6] ∧
      m.mem.invocations ⟨some 1⟩ = 1 ∧ m.mem.invocations ⟨some 2⟩ = 1 := by
  let c : Chain Nat Nat Nat Nat :=
    { ops := [.stage (.then_ fun _ => .error 5), .via (some 9), .stage (.recover fun e => .ok (e + 1))]
      source := .ok 1
      body := fun _ => .ok () }
  have hrun : (System.run (next (Wheels.exceptionPtr Nat Nat)) c.machine
      [.thread 0, .thread 0, .thread 0, .thread 0, .thread 1, .thread 1, .thread 1, .start 0,
        .thread 2, .thread 2, .thread 2, .start 0, .thread 3]).any Machine.idle = true := by
    decide +kernel
  obtain ⟨m, hm, hidle⟩ := (Option.any_eq_true _ _).mp hrun
  have hend := (chain_folds (Wheels.exceptionPtr_documented Nat Nat) (by simp [c])
    (System.reachable_of_run _ hm)).2.2.2.2 (quiescent_of_idle hidle)
  exact ⟨m, hend.2.1, hend.2.2 0 _ rfl, hend.2.2 1 _ rfl⟩

end Futures
end Tpcc
