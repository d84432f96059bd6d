import Tpcc.Futures.Fold

/-!
# `Futures.Subscriber` — a subscriber that throws, at the end of an inline chain

On futures without an executor every callback runs inside the `SetResult` that found it, so an exception
of the final callback unwinds through the stages of the chain, up to the first one that fulfilled its
promise with a value: it did so from inside its `try` block, and the `catch` clause sets the same promise
once more.

`never_set_twice_iff` says for which chains this can happen. One direction is `ranked_safe`; the other
is a run: build the whole chain, then fulfil the source.
-/

namespace Tpcc
namespace Futures

open Transition Futures.Machine

variable {V E X ι : Type}

/-! ## The run that goes wrong -/

/-- The chain can be built before the source is fulfilled. -/
theorem steps_build {W : Wheels V E X} {c : Chain V E X ι} (m₀ : Machine V E X ι)
    (t : Thread V E X ι) (n : Nat) :
    ∀ {rest : Option (List (ChainOp V E X ι))} {b : Nat} {mem : Memory V E X ι}, buildRank rest ≤ n →
      MemInv W.toError c mem rest b (.setting 0) →
      ∃ mem', (Machine.system W m₀).Steps ⟨mem, [⟨none, buildFrames c b rest⟩, t], none⟩
          ⟨mem', [⟨none, []⟩, t], none⟩ ∧
        MemInv W.toError c mem' none (c.size + 1) (.setting 0) := by
  induction n with
  | zero =>
      intro rest b mem hrank h
      cases rest with
      | none =>
          obtain rfl : b = c.size + 1 := h.building
          exact ⟨mem, .refl, h⟩
      | some rest => simp [buildRank] at hrank
  | succ n ih =>
      intro rest b mem hrank h
      cases rest with
      | none =>
          obtain rfl : b = c.size + 1 := h.building
          exact ⟨mem, .refl, h⟩
      | some rest =>
          obtain ⟨mem', rest', b', tok', fs, hexec, hmem, hfs, hlt, -, htok⟩ := h.exec_build
          -- the source is not fulfilled: the call only adds a callback
          obtain rfl : tok' = .setting 0 := htok.resolve_right (by simp)
          obtain rfl : fs = buildFrames c b' rest' := by
            have hperm := Multiset.coe_eq_coe.mp (add_right_cancel hfs)
            cases rest' with
            | none => exact List.perm_nil.mp hperm
            | some rest' => exact List.perm_singleton.mp hperm
          obtain ⟨mem'', hsteps, hmem''⟩ := ih (by omega) hmem
          refine ⟨mem'', .head (step_of_stepped rfl (.run (i := 0) rfl hexec)) ?_, hmem''⟩
          rw [List.append_nil]
          exact hsteps

/-- Setting a place of a chain that is built calls its callback. -/
theorem exec_set_built {W : Wheels V E X} {c : Chain V E X ι} (hin : c.Inline) {mem : Memory V E X ι}
    {j : Nat} (h : MemInv W.toError c mem none (c.size + 1) (.setting j)) :
    ∃ mem', exec W mem (.set ⟨some j⟩ (c.result W.toError j)) =
        .ok (mem', none, [.call (c.callback j) (c.result W.toError j) none]) ∧
      MemInv W.toError c mem' none (c.size + 1) (.calling j none) := by
  obtain ⟨mem', tok, hexec, hmem, rfl | ⟨ex, -, rfl, hex⟩⟩ := h.exec_set
  · obtain ⟨hj, hb⟩ := hmem.placed
    omega
  · obtain rfl := hex hin
    exact ⟨mem', hexec, hmem⟩

/-- Fulfilling the source then runs the stages one inside the other: those with a value leave their `try`
    blocks open. -/
theorem steps_fire {W : Wheels V E X} (hW : W.Documented) {c : Chain V E X ι} (hin : c.Inline)
    (m₀ : Machine V E X ι) {t : Thread V E X ι} {mem : Memory V E X ι}
    (h : MemInv W.toError c mem none (c.size + 1) (.setting 0)) (j : Nat) (hj : j ≤ c.size) :
    ∃ mem' q, (Machine.system W m₀).Steps ⟨mem, [t, ⟨none, [.set ⟨some 0⟩ c.source]⟩], none⟩
        ⟨mem', [t, ⟨none, .set ⟨some j⟩ (c.result W.toError j) ::
          List.replicate q (.catchSetError ⟨none⟩)⟩], none⟩ ∧
      MemInv W.toError c mem' none (c.size + 1) (.setting j) ∧
      ((∃ i, 0 < i ∧ i ≤ j ∧ (c.result W.toError i).isOk = true) → 0 < q) := by
  induction j with
  | zero =>
      refine ⟨mem, 0, .refl, h, ?_⟩
      rintro ⟨i, hpos, hi, -⟩
      omega
  | succ j ih =>
      obtain ⟨mem', q, hsteps, hmem, hopen⟩ := ih (by omega)
      obtain ⟨mem₁, hset, hmem₁⟩ := exec_set_built hin hmem
      obtain ⟨mem₂, hcall, hmem₂⟩ := hmem₁.exec_call hW (by omega)
      refine ⟨mem₂, q + openTries (c.result W.toError (j + 1)), ?_, hmem₂, ?_⟩
      · rw [← stageFrames_append]
        have hcalled := hsteps.tail (step_of_stepped rfl (.run (i := 1) rfl hset))
        exact hcalled.tail (step_of_stepped rfl (.run (i := 1) rfl hcall))
      · rintro ⟨i, hpos, hi, hok⟩
        rcases Nat.lt_or_eq_of_le hi with hi | rfl
        · have hq := hopen ⟨i, hpos, by omega, hok⟩
          omega
        · rw [openTries, if_pos hok]
          omega

/-- **The run that goes wrong.** The final callback throws into the `try` block of a stage that has
    fulfilled its promise. -/
theorem exists_set_twice {W : Wheels V E X} (hW : W.Documented) {c : Chain V E X ι} (hin : c.Inline)
    {x : X} (hbody : c.body (c.fold W.toError) = .error x) {j : Nat} (hpos : 0 < j) (hj : j ≤ c.size)
    (hok : (c.result W.toError j).isOk = true) :
    ∃ m, (c.system W).Reachable m ∧ m.violated = some .noSharedState := by
  have h₀ := (chainInv_machine W c).mem
  obtain ⟨mem, hbuild, hmem⟩ := steps_build c.machine ⟨none, [.set ⟨some 0⟩ c.source]⟩
    (buildRank (some c.ops)) (Nat.le_refl _) h₀
  obtain ⟨mem₁, q, hfire, hmem₁, hopen⟩ := steps_fire hW hin c.machine (t := ⟨none, []⟩) hmem c.size
    (Nat.le_refl _)
  obtain ⟨mem₂, hset, hmem₂⟩ := exec_set_built hin hmem₁
  -- the callback at the end throws
  have hcb : c.callback c.size = .consumer c.body := by
    rw [Chain.callback, show c.stages[c.size]? = none from List.getElem?_eq_none (Nat.le_refl _)]
  have hcall : exec W mem₂ (.call (c.callback c.size) (c.result W.toError c.size) none) =
      .ok ({ mem₂ with consumed := mem₂.consumed ++ [c.result W.toError c.size] }, some x, []) := by
    rw [hcb, Chain.result_size]
    simp only [exec, call, hbody]
  have hcalled := (hbuild.trans hfire).tail (step_of_stepped rfl (.run (i := 1) rfl hset))
  have hthrow := hcalled.tail (step_of_stepped rfl (.run (i := 1) rfl hcall))
  obtain ⟨q, rfl⟩ := Nat.exists_eq_succ_of_ne_zero (Nat.pos_iff_ne_zero.mp (hopen ⟨j, hpos, hj, hok⟩))
  -- the first open `try` block catches it, and its promise is released
  refine ⟨_, ⟨c.machine, rfl, (hthrow.tail ⟨.thread 1, rfl⟩).tail ⟨.thread 1, rfl⟩⟩, rfl⟩

/-! ## Which chains are safe -/

/-- With any placement of `Via`, a run in which the final callback never throws into an open `try` block
    fails no check. -/
theorem not_violated_of_calm {W : Wheels V E X} (hW : W.Documented) {c : Chain V E X ι}
    {m : Machine V E X ι} (h : ((c.system W).restrict fun m _ => Calm m).Reachable m) : m.violated = none := by
  obtain ⟨n, rest, b, tok, q, hinv, -⟩ := h.ranked (ranked_calm hW c) (chainRank_machine W c)
  exact hinv.violated

/-- **A throwing subscriber.** In the runs of a chain built on futures without an executor, the check "No
    shared state or shared state released" is unreachable if and only if the final callback does not
    throw on the chain's result or every stage ends in an error. -/
theorem never_set_twice_iff {W : Wheels V E X} (hW : W.Documented) {c : Chain V E X ι}
    (hin : c.Inline) :
    (∀ m, (c.system W).Reachable m → m.violated ≠ some .noSharedState) ↔
      (∀ x, c.body (c.fold W.toError) ≠ .error x) ∨
        ∀ j, 0 < j → j ≤ c.size → (c.result W.toError j).isOk = false := by
  constructor
  · intro h
    by_contra hunsafe
    rw [not_or] at hunsafe
    obtain ⟨hthrows, hvalues⟩ := hunsafe
    obtain ⟨x, hbody⟩ := not_forall_not.mp hthrows
    simp only [not_forall, Bool.not_eq_false] at hvalues
    obtain ⟨j, hpos, hj, hok⟩ := hvalues
    obtain ⟨m, hm, hv⟩ := exists_set_twice hW hin hbody hpos hj hok
    exact h m hm hv
  · intro hsafe m hm
    obtain ⟨n, rest, b, tok, q, hinv, -⟩ := hm.ranked (ranked_safe hW hsafe) (chainRank_machine W c)
    rw [hinv.violated]
    simp

/-- One `Then` on the value `1`, and a final callback that throws whatever it gets. -/
def throwingSubscriber (cont : Nat → Except Nat Nat) : Chain Nat Nat Nat Nat where
  ops := [.stage (.then_ cont)]
  source := .ok 1
  body := fun _ => .error 7

/-- The callback throws, but not into a `try` block: the stage has failed. -/
theorem never_set_twice_failed_stage :
    ¬ ∃ m, ((throwingSubscriber fun _ => .error 5).system (Wheels.exceptionPtr Nat Nat)).Reachable m ∧
      m.violated = some .noSharedState := by
  rintro ⟨m, hm, hv⟩
  have hin : (throwingSubscriber fun _ => .error 5).Inline := by
    intro e he
    simp [throwingSubscriber] at he
  refine (never_set_twice_iff (Wheels.exceptionPtr_documented Nat Nat) hin).mpr (.inr ?_) m hm hv
  intro j hpos hj
  obtain rfl : j = 1 := Nat.le_antisymm hj hpos
  rfl

/-- The stage has a value: thread `0` builds the chain, thread `1` sets the source, and the exception
    comes back through the stage. -/
theorem set_twice_then :
    ¬ ∀ m, ((throwingSubscriber fun v => .ok (v + 1)).system (Wheels.exceptionPtr Nat Nat)).Reachable m →
      m.violated ≠ some .noSharedState := by
  intro h
  have hrun : ((throwingSubscriber fun v => .ok (v + 1)).system
      (Wheels.exceptionPtr Nat Nat)).Reachable _ :=
    System.reachable_of_run (List.replicate 2 (Action.thread 0) ++ List.replicate 6 (.thread 1)) rfl
  exact h _ hrun rfl

end Futures
end Tpcc
