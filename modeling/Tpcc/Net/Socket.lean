import Mathlib.Data.List.TakeDrop
import Tpcc.Support.Wheels
import Tpcc.Transition.Loop

/-!
# `Net.Socket` — reads and writes over a stream socket

`Socket::ReadSome`, `Read`, `WriteSome` and `Write`. A fiber starts one operation of `asio` at a time and
blocks on its `Future`, so a call is the sequence of its operations, and the state is what they leave
behind.

`asio` is not part of the repository. How each operation ends is arbitrary, as far as `asio` documents it:
`Sender` and `Receiver`.

## Contents
- **The loop.** `transfer`, the loop that `Read` and `Write` share, and where it stops (`transfer_total`).
  `offset` follows the operations alone.
- **Writing.** `write`: which error it takes for the end of the buffer.
- **Reading.** `read`: which error it takes for the end of the stream.
-/

namespace Tpcc
namespace Net

open Transition

/-- `asio::error_code`, where it is an error. -/
inductive ErrorCode where
  | eof
  | no_buffer_space
  | other (value : Nat)
  deriving DecidableEq

/-- `BuildTask`: what the `Future` of an operation holds when its handler has been called. -/
def buildTask {T : Type} : Option ErrorCode × T → Result T ErrorCode
  | (none, async_result) => .ok async_result
  | (some code, _) => .fail code

theorem buildTask_eq_fail {T : Type} {completion : Option ErrorCode × T} {e : ErrorCode} :
    buildTask completion = .fail e ↔ completion.1 = some e := by
  rcases completion with ⟨_ | code, _⟩ <;> simp [buildTask]

/-! ## The loop -/

section Transfer

variable {τ : Type} {step : Nat → τ → Result Nat ErrorCode × τ}

/-- One turn of the loops of `Read` and `Write`, with `ReadSome(buffer + shift)` or `WriteSome(buffer + shift)`
    as `step`. -/
def transfer (step : Nat → τ → Result Nat ErrorCode × τ) :
    Nat × τ → Turn (Nat × τ) (Result Nat ErrorCode × τ)
  | (shift, s) =>
      match step shift s with
      | (.fail e, s') => .done (.fail e, s')
      | (.ok n, s') => if n = 0 then .done (.ok shift, s') else .again (shift + n, s')

/-- How the loop stops at `shift`. -/
inductive Stops (step : Nat → τ → Result Nat ErrorCode × τ) (shift : Nat) (s s' : τ) :
    Result Nat ErrorCode → Prop where
  | zero (h : step shift s = (.ok 0, s')) : Stops step shift s s' (.ok shift)
  | error {e : ErrorCode} (h : step shift s = (.fail e, s')) : Stops step shift s s' (.fail e)

/-- **The loop returns.** `I` relates the bytes moved so far to the state. -/
theorem transfer_total {I : Nat → τ → Prop} {size : Nat} (hle : ∀ k s, I k s → k ≤ size)
    (hstep : ∀ k s n s', I k s → step k s = (.ok n, s') → n ≠ 0 → I (k + n) s') {s : τ} (hs : I 0 s) :
    ∃ k s₁ s₂ r, I k s₁ ∧ Stops step k s₁ s₂ r ∧
      ∀ fuel, size < fuel → loop (transfer step) fuel (0, s) = some (r, s₂) := by
  have hagain : ∀ c c' : Nat × τ, I c.1 c.2 → transfer step c = .again c' →
      I c'.1 c'.2 ∧ size - c'.1 < size - c.1 := by
    rintro ⟨k, s⟩ c' hI hturn
    simp only [transfer] at hturn
    split at hturn
    · cases hturn
    · next n s' hcall =>
        split at hturn
        · cases hturn
        · next hn =>
            cases hturn
            have hI' := hstep k s n s' hI hcall hn
            have hmoved := hle _ _ hI'
            refine ⟨hI', ?_⟩
            show size - (k + n) < size - k
            omega
  have hdone : ∀ (c : Nat × τ) (c' : Result Nat ErrorCode × τ), I c.1 c.2 → transfer step c = .done c' →
      ∃ k s₁, I k s₁ ∧ Stops step k s₁ c'.2 c'.1 := by
    rintro ⟨k, s⟩ c' hI hturn
    simp only [transfer] at hturn
    split at hturn
    · next e s₂ hcall =>
        cases hturn
        exact ⟨k, s, hI, .error hcall⟩
    · next n s₂ hcall =>
        split at hturn
        · next hn =>
            cases hturn
            subst hn
            exact ⟨k, s, hI, .zero hcall⟩
        · cases hturn
  obtain ⟨⟨r, s₂⟩, ⟨k, s₁, hI, hstop⟩, hloop⟩ := loop_total _ hagain hdone (s := (0, s)) hs
  exact ⟨k, s₁, s₂, r, hI, hstop, fun fuel hfuel => hloop fuel (Nat.lt_of_le_of_lt (Nat.sub_le _ _) hfuel)⟩

end Transfer

section Offset

variable {attempt : Nat → Nat → Option ErrorCode × Nat} {i j k l : Nat} {e e' : ErrorCode}

/-- How many bytes the operations before number `i` have moved, if none of them has failed. `attempt i k` is
    how number `i` ends if it starts at byte `k`. -/
def offset (attempt : Nat → Nat → Option ErrorCode × Nat) : Nat → Option Nat
  | 0 => some 0
  | i + 1 =>
      (offset attempt i).bind fun k =>
        match buildTask (attempt i k) with
        | .ok n => some (k + n)
        | .fail _ => none

theorem offset_succ {n : Nat} (h : offset attempt i = some k) (hok : buildTask (attempt i k) = .ok n) :
    offset attempt (i + 1) = some (k + n) := by
  simp only [offset, h, Option.bind_some, hok]

theorem offset_stop (h : offset attempt i = some k) (hfail : buildTask (attempt i k) = .fail e) (hlt : i < j) :
    offset attempt j = none := by
  induction j with
  | zero => omega
  | succ j ih =>
      rcases Nat.lt_succ_iff_lt_or_eq.mp hlt with hlt | rfl
      · simp only [offset, ih hlt, Option.bind_none]
      · simp only [offset, h, Option.bind_some, hfail]

theorem offset_mono (h : offset attempt i = some k) (h' : offset attempt j = some l) (hle : i ≤ j) : k ≤ l := by
  induction j generalizing l with
  | zero =>
      obtain rfl := Nat.le_zero.mp hle
      rw [h] at h'
      exact Nat.le_of_eq (Option.some.inj h')
  | succ j ih =>
      rcases Nat.lt_or_eq_of_le hle with hlt | rfl
      · obtain ⟨m, hm, h'⟩ := Option.bind_eq_some_iff.mp h'
        have hkm := ih hm (Nat.le_of_lt_succ hlt)
        split at h'
        · obtain rfl := Option.some.inj h'
          omega
        · cases h'
      · rw [h] at h'
        exact Nat.le_of_eq (Option.some.inj h')

/-- No operation starts behind one that fails. -/
theorem offset_le (h : offset attempt i = some k) (h' : offset attempt j = some l)
    (hfail : buildTask (attempt j l) = .fail e) : k ≤ l := by
  rcases Nat.lt_or_ge j i with hlt | hle
  · rw [offset_stop h' hfail hlt] at h
    cases h
  · exact offset_mono h h' hle

/-- One operation fails, at most. -/
theorem offset_unique (h : offset attempt i = some k) (hfail : buildTask (attempt i k) = .fail e)
    (h' : offset attempt j = some l) (hfail' : buildTask (attempt j l) = .fail e') : k = l ∧ e = e' := by
  rcases Nat.lt_trichotomy i j with hlt | rfl | hlt
  · rw [offset_stop h hfail hlt] at h'
    cases h'
  · rw [h] at h'
    obtain rfl := Option.some.inj h'
    rw [hfail] at hfail'
    cases hfail'
    exact ⟨rfl, rfl⟩
  · rw [offset_stop h' hfail' hlt] at h
    cases h

end Offset

/-! ## Writing -/

/-- `asio::const_buffer`, and `buffer + shift`. -/
abbrev ConstBuffer := List UInt8

/-- The sending side of a `tcp::socket`: how operation number `i` on a buffer ends. -/
structure Sender where
  async_write_some : Nat → ConstBuffer → Option ErrorCode × Nat
  accepts : ∀ i buffer n, buffer ≠ [] → buildTask (async_write_some i buffer) = .ok n → 1 ≤ n ∧ n ≤ buffer.length
  empty : ∀ i, async_write_some i [] = (none, 0)

/-- What the operations of one call of `Write` leave behind: the bytes handed to the transport, and how
    each operation has ended. -/
structure Sent where
  bytes : List UInt8 := []
  outcomes : List (Result Nat ErrorCode) := []
  deriving DecidableEq

/-- An operation on `buffer` has ended. -/
def Sent.complete (s : Sent) (buffer : ConstBuffer) : Result Nat ErrorCode → Sent
  | .ok n => { bytes := s.bytes ++ buffer.take n, outcomes := s.outcomes ++ [.ok n] }
  | .fail e => { s with outcomes := s.outcomes ++ [.fail e] }

namespace Sender

/-- `WriteSome`. -/
def writeSome (t : Sender) (buffer : ConstBuffer) (s : Sent) : Result Nat ErrorCode × Sent :=
  let result := buildTask (t.async_write_some s.outcomes.length buffer)
  match result with
  | .fail .eof => (.ok 0, s.complete buffer result)
  | _ => (result, s.complete buffer result)

/-- `Write`. -/
def write (t : Sender) (buffer : ConstBuffer) (fuel : Nat) : Option (Result Unit ErrorCode × Sent) :=
  (loop (transfer fun shift s => t.writeSome (buffer.drop shift) s) fuel (0, {})).map fun
    | (.ok _, s) => (.ok (), s)
    | (.fail e, s) => (.fail e, s)

/-- How operation number `i` ends if it starts at byte `k`. -/
def attempt (t : Sender) (buffer : ConstBuffer) (i k : Nat) : Option ErrorCode × Nat :=
  t.async_write_some i (buffer.drop k)

/-- Before operation number `i` of `Write`, at byte `k`. -/
structure Writing (t : Sender) (buffer : ConstBuffer) (k : Nat) (s : Sent) : Prop where
  start : offset (t.attempt buffer) s.outcomes.length = some k
  bytes : s.bytes = buffer.take k
  le : k ≤ buffer.length
  succeeded : ∀ e, .fail e ∉ s.outcomes

variable {t : Sender} {buffer : ConstBuffer} {k n : Nat} {e : ErrorCode} {s s' : Sent}

/-- What one call of `WriteSome` does at byte `k`. -/
inductive WroteSome (t : Sender) (buffer : ConstBuffer) (k : Nat) (s : Sent) : Result Nat ErrorCode → Sent → Prop where
  | full (hk : k = buffer.length) : WroteSome t buffer k s (.ok 0) (s.complete [] (.ok 0))
  | progress {n : Nat} (hk : k + n ≤ buffer.length) (hn : 1 ≤ n)
      (h : buildTask (t.attempt buffer s.outcomes.length k) = .ok n) :
      WroteSome t buffer k s (.ok n) (s.complete (buffer.drop k) (.ok n))
  | eof (hk : k < buffer.length) (h : buildTask (t.attempt buffer s.outcomes.length k) = .fail .eof) :
      WroteSome t buffer k s (.ok 0) (s.complete (buffer.drop k) (.fail .eof))
  | error {e : ErrorCode} (hk : k < buffer.length) (hne : e ≠ .eof)
      (h : buildTask (t.attempt buffer s.outcomes.length k) = .fail e) :
      WroteSome t buffer k s (.fail e) (s.complete (buffer.drop k) (.fail e))

theorem writeSome_spec (hk : k ≤ buffer.length) :
    WroteSome t buffer k s (t.writeSome (buffer.drop k) s).1 (t.writeSome (buffer.drop k) s).2 := by
  rcases Nat.lt_or_eq_of_le hk with hlt | rfl
  · have hne : buffer.drop k ≠ [] := by
      intro hnil
      exact Nat.not_le_of_lt hlt (List.drop_eq_nil_iff.mp hnil)
    cases hresult : buildTask (t.async_write_some s.outcomes.length (buffer.drop k)) with
    | ok n =>
        obtain ⟨hn, hle⟩ := t.accepts _ _ n hne hresult
        rw [List.length_drop] at hle
        simp only [writeSome, hresult]
        exact .progress (by omega) hn hresult
    | fail e =>
        simp only [writeSome, hresult]
        cases e with
        | eof => exact .eof hlt hresult
        | no_buffer_space => exact .error hlt ErrorCode.noConfusion hresult
        | other value => exact .error hlt ErrorCode.noConfusion hresult
  · simp only [writeSome, List.drop_length, t.empty, buildTask]
    exact .full rfl

/-- What the next operation leaves of `Writing`. -/
theorem Writing.start_of (h : Writing t buffer k s) (hcall : t.writeSome (buffer.drop k) s = (.ok n, s'))
    (hn : n ≠ 0) : Writing t buffer (k + n) s' := by
  have hspec := writeSome_spec (t := t) (s := s) h.le
  rw [hcall] at hspec
  cases hspec with
  | full hk => exact absurd rfl hn
  | eof hk hfail => exact absurd rfl hn
  | progress hk hn' hok =>
      constructor
      · show offset _ (_ ++ [_]).length = _
        rw [List.length_append]
        exact offset_succ h.start hok
      · show s.bytes ++ _ = _
        rw [h.bytes, List.take_add]
      · exact hk
      · intro e he
        rcases List.mem_append.mp he with he | he
        · exact h.succeeded e he
        · cases List.mem_singleton.mp he

/-- How `Write` returns: the whole buffer has been sent, or the operation at byte `k` has failed. -/
inductive Wrote (t : Sender) (buffer : ConstBuffer) : Result Unit ErrorCode → Sent → Prop where
  | whole {s : Sent} {i : Nat} (start : offset (t.attempt buffer) i = some buffer.length) (bytes : s.bytes = buffer)
      (succeeded : ∀ e, .fail e ∉ s.outcomes) : Wrote t buffer (.ok ()) s
  | failed {s : Sent} {i k : Nat} {e : ErrorCode} (start : offset (t.attempt buffer) i = some k)
      (hk : k < buffer.length) (h : buildTask (t.attempt buffer i k) = .fail e) (bytes : s.bytes = buffer.take k)
      (failed : ∀ e', .fail e' ∈ s.outcomes ↔ e' = e) :
      Wrote t buffer (if e = .eof then .ok () else .fail e) s

theorem Writing.failed (h : Writing t buffer k s) (hk : k < buffer.length)
    (hfail : buildTask (t.attempt buffer s.outcomes.length k) = .fail e) :
    Wrote t buffer (if e = .eof then .ok () else .fail e) (s.complete (buffer.drop k) (.fail e)) := by
  refine .failed h.start hk hfail h.bytes ?_
  intro e'
  show _ ∈ s.outcomes ++ [_] ↔ _
  rw [List.mem_append, List.mem_singleton]
  constructor
  · rintro (he | he)
    · exact absurd he (h.succeeded e')
    · cases he
      rfl
  · rintro rfl
    exact .inr rfl

theorem write_returns (t : Sender) (buffer : ConstBuffer) :
    ∃ r s, Wrote t buffer r s ∧ ∀ fuel, buffer.length < fuel → t.write buffer fuel = some (r, s) := by
  have hinit : Writing t buffer 0 {} := ⟨rfl, rfl, Nat.zero_le _, fun _ => List.not_mem_nil⟩
  have hagain : ∀ k s n s', Writing t buffer k s → t.writeSome (buffer.drop k) s = (.ok n, s') → n ≠ 0 →
      Writing t buffer (k + n) s' := fun k s n s' hs hcall hn => hs.start_of hcall hn
  obtain ⟨k, s, s', r, hs, hstop, hloop⟩ := transfer_total (fun k s hs => hs.le) hagain hinit
  have hspec := writeSome_spec (t := t) (s := s) hs.le
  cases hstop with
  | zero hcall =>
      refine ⟨.ok (), s', ?_, ?_⟩
      · rw [hcall] at hspec
        generalize hn : 0 = n at hspec
        cases hspec with
        | full hk =>
            have hbytes := hs.bytes
            rw [hk, List.take_length] at hbytes
            refine .whole (hk ▸ hs.start) ?_ ?_
            · show s.bytes ++ _ = _
              rw [hbytes, List.take_nil, List.append_nil]
            · intro e he
              rcases List.mem_append.mp he with he | he
              · exact hs.succeeded e he
              · cases List.mem_singleton.mp he
        | eof hk hfail => exact hs.failed hk hfail
        | progress hk hn' hok => omega
      · intro fuel hfuel
        rw [write, hloop fuel hfuel]
        rfl
  | @error e hcall =>
      refine ⟨.fail e, s', ?_, ?_⟩
      · rw [hcall] at hspec
        cases hspec with
        | error hk hne hfail =>
            have hwrote := hs.failed hk hfail
            rwa [if_neg hne] at hwrote
      · intro fuel hfuel
        rw [write, hloop fuel hfuel]
        rfl

/-- What a call of `Write` promises: "will block until all of the bytes in the buffer are sent or an error
    occurred". -/
structure Contract (buffer : ConstBuffer) (status : Result Unit ErrorCode) (s : Sent) : Prop where
  inOrder : s.bytes <+: buffer
  complete : status = .ok () ↔ s.bytes = buffer
  reported : ∀ e, .fail e ∈ s.outcomes → status = .fail e

/-- `Write` returns, and keeps its promise. -/
def WritesAll (t : Sender) (buffer : ConstBuffer) : Prop :=
  ∃ status s, (∀ fuel, buffer.length < fuel → t.write buffer fuel = some (status, s)) ∧
    Contract buffer status s

/-- **`Write` and the end-of-file error.** `Write` is right about a buffer if and only if no operation on a
    non-empty rest of it ends with `asio::error::eof`. -/
theorem writesAll_iff (t : Sender) (buffer : ConstBuffer) :
    WritesAll t buffer ↔ ∀ i k, offset (t.attempt buffer) i = some k → k < buffer.length →
      (t.attempt buffer i k).1 ≠ some .eof := by
  obtain ⟨r, s, hwrote, hreturns⟩ := write_returns t buffer
  constructor
  · rintro ⟨r', s', hreturns', hcontract⟩ j l hj hl heof
    have heof := buildTask_eq_fail.mpr heof
    have hsame := (hreturns _ (Nat.lt_succ_self _)).symm.trans (hreturns' _ (Nat.lt_succ_self _))
    cases hsame
    cases hwrote with
    | whole start bytes succeeded =>
        have hle := offset_le start hj heof
        omega
    | failed start hk hfail bytes failed =>
        -- the operation that fails is this one, and `Ok()` is returned
        obtain ⟨rfl, rfl⟩ := offset_unique start hfail hj heof
        have hsent := hcontract.complete.mp (if_pos rfl)
        rw [bytes, List.take_eq_self_iff] at hsent
        omega
  · intro hne
    refine ⟨r, s, hreturns, ?_⟩
    cases hwrote with
    | whole start bytes succeeded =>
        constructor
        · exact bytes ▸ List.prefix_rfl
        · exact ⟨fun _ => bytes, fun _ => rfl⟩
        · intro e he
          exact absurd he (succeeded e)
    | @failed s i k e start hk hfail bytes failed =>
        have hnot : e ≠ .eof := by
          rintro rfl
          exact hne i k start hk (buildTask_eq_fail.mp hfail)
        rw [if_neg hnot]
        constructor
        · rw [bytes]
          exact List.take_prefix _ _
        · constructor
          · intro hok
            cases hok
          · intro hsent
            rw [bytes, List.take_eq_self_iff] at hsent
            omega
        · intro e' he'
          rw [(failed e').mp he']

theorem write_mono {fuel fuel' : Nat} {c : Result Unit ErrorCode × Sent} (h : t.write buffer fuel = some c)
    (hle : fuel ≤ fuel') : t.write buffer fuel' = some c := by
  obtain ⟨c', hloop, hc⟩ := Option.map_eq_some_iff.mp h
  rw [write, loop_mono hloop hle, Option.map_some, hc]

/-- One byte is taken, and then `asio::error::eof`. -/
def eofMidway : Sender where
  async_write_some i buffer := if buffer = [] then (none, 0) else if i = 0 then (none, 1) else (some .eof, 0)
  accepts i buffer n hne h := by
    rw [if_neg hne] at h
    split at h
    · cases h
      exact ⟨Nat.le_refl 1, List.length_pos_iff.mpr hne⟩
    · cases h
  empty _ := rfl

/-- `Write` returns `Ok()`, with two of three bytes not sent. -/
theorem write_eofMidway :
    (∀ fuel, 3 < fuel → eofMidway.write [1, 2, 3] fuel = some (.ok (), ⟨[1], [.ok 1, .fail .eof]⟩)) ∧
      ¬ WritesAll eofMidway [1, 2, 3] := by
  have hwrite : eofMidway.write [1, 2, 3] 4 = some (.ok (), ⟨[1], [.ok 1, .fail .eof]⟩) := by decide
  refine ⟨fun fuel hfuel => write_mono hwrite hfuel, ?_⟩
  rintro ⟨status, s, hreturns, hcontract⟩
  have hsame := hwrite.symm.trans (hreturns 4 (by decide))
  cases hsame
  have hsent := hcontract.complete.mp rfl
  cases hsent

end Sender

/-! ## Reading -/

/-- `asio::mutable_buffer`. -/
structure MutableBuffer where
  data : Nat
  size : Nat

/-- `buffer + shift`. -/
def MutableBuffer.advance (buffer : MutableBuffer) (shift : Nat) : MutableBuffer where
  data := buffer.data + min shift buffer.size
  size := buffer.size - min shift buffer.size

/-- The receiving side of a `tcp::socket`: the stream, which may have no end, and how operation number `i` ends
    after `position` bytes of it, on a buffer of `size` bytes. -/
structure Receiver where
  byte : Nat → UInt8
  length : Option Nat
  async_read_some : Nat → Nat → Nat → Option ErrorCode × Nat
  delivers : ∀ i position size n, 0 < size → buildTask (async_read_some i position size) = .ok n →
    1 ≤ n ∧ n ≤ size ∧ ∀ l, length = some l → position + n ≤ l
  exhausted : ∀ i position size, 0 < size → (async_read_some i position size).1 = some .eof →
    length = some position
  empty : ∀ i position, async_read_some i position 0 = (none, 0)

/-- What operations leave behind: the memory, how many bytes of the stream have been delivered, and how
    each operation of one call of `Read` has ended. -/
structure Received where
  memory : Nat → UInt8
  position : Nat
  outcomes : List (Result Nat ErrorCode) := []

namespace Receiver

/-- An operation on `buffer` has ended. -/
def complete (r : Receiver) (buffer : MutableBuffer) (s : Received) : Result Nat ErrorCode → Received
  | .ok n =>
      { memory := fun a => if buffer.data ≤ a ∧ a < buffer.data + n then r.byte (s.position + (a - buffer.data))
          else s.memory a
        position := s.position + n
        outcomes := s.outcomes ++ [.ok n] }
  | .fail e => { s with outcomes := s.outcomes ++ [.fail e] }

/-- `ReadSome`. -/
def readSome (r : Receiver) (buffer : MutableBuffer) (s : Received) : Result Nat ErrorCode × Received :=
  let result := buildTask (r.async_read_some s.outcomes.length s.position buffer.size)
  match result with
  | .fail .eof => (.ok 0, r.complete buffer s result)
  | .fail .no_buffer_space => (.ok 0, r.complete buffer s result)
  | _ => (result, r.complete buffer s result)

/-- `Read`, called with the given memory after `position` bytes of the stream. -/
def read (r : Receiver) (buffer : MutableBuffer) (memory : Nat → UInt8) (position fuel : Nat) :
    Option (Result Nat ErrorCode × Received) :=
  loop (transfer fun shift s => r.readSome (buffer.advance shift) s) fuel (0, { memory, position })

/-- How operation number `i` ends if it starts at byte `k` of the buffer. -/
def attempt (r : Receiver) (buffer : MutableBuffer) (position i k : Nat) : Option ErrorCode × Nat :=
  r.async_read_some i (position + k) (buffer.size - k)

/-- The next `k` bytes of the stream are in the buffer, and nothing else has changed outside it. -/
structure Filled (r : Receiver) (buffer : MutableBuffer) (memory : Nat → UInt8) (position k : Nat) (s : Received) :
    Prop where
  le : k ≤ buffer.size
  filled : ∀ j < k, s.memory (buffer.data + j) = r.byte (position + j)
  untouched : ∀ a, a < buffer.data ∨ buffer.data + buffer.size ≤ a → s.memory a = memory a

/-- Before operation number `i` of `Read`, at byte `k` of the buffer. -/
structure Reading (r : Receiver) (buffer : MutableBuffer) (memory : Nat → UInt8) (position k : Nat) (s : Received) :
    Prop extends Filled r buffer memory position k s where
  start : offset (r.attempt buffer position) s.outcomes.length = some k
  calls : s.outcomes.length ≤ k
  position : s.position = position + k
  succeeded : ∀ e, .fail e ∉ s.outcomes

variable {r : Receiver} {buffer : MutableBuffer} {memory : Nat → UInt8} {position k n : Nat} {e : ErrorCode}
  {s s' : Received}

/-- What one call of `ReadSome` does at byte `k` of the buffer. -/
inductive ReadsSome (r : Receiver) (buffer : MutableBuffer) (position k : Nat) (s : Received) :
    Result Nat ErrorCode → Received → Prop where
  | full (hk : k = buffer.size) : ReadsSome r buffer position k s (.ok 0) (r.complete (buffer.advance k) s (.ok 0))
  | progress {n : Nat} (hk : k + n ≤ buffer.size) (hn : 1 ≤ n)
      (h : buildTask (r.attempt buffer position s.outcomes.length k) = .ok n) :
      ReadsSome r buffer position k s (.ok n) (r.complete (buffer.advance k) s (.ok n))
  | zero {e : ErrorCode} (hk : k < buffer.size) (he : e = .eof ∨ e = .no_buffer_space)
      (h : buildTask (r.attempt buffer position s.outcomes.length k) = .fail e) :
      ReadsSome r buffer position k s (.ok 0) (r.complete (buffer.advance k) s (.fail e))
  | error {e : ErrorCode} (hk : k < buffer.size) (hne : ¬ (e = .eof ∨ e = .no_buffer_space))
      (h : buildTask (r.attempt buffer position s.outcomes.length k) = .fail e) :
      ReadsSome r buffer position k s (.fail e) (r.complete (buffer.advance k) s (.fail e))

theorem complete_calls (result : Result Nat ErrorCode) :
    (r.complete buffer s result).outcomes.length = s.outcomes.length + 1 := by
  cases result <;> exact List.length_append

theorem readSome_calls : (r.readSome buffer s).2.outcomes.length = s.outcomes.length + 1 := by
  simp only [readSome]
  split <;> exact complete_calls _

theorem advance_of_le (hk : k ≤ buffer.size) : buffer.advance k = ⟨buffer.data + k, buffer.size - k⟩ := by
  rw [MutableBuffer.advance, Nat.min_eq_left hk]

theorem readSome_spec (hk : k ≤ buffer.size) (hposition : s.position = position + k) :
    ReadsSome r buffer position k s (r.readSome (buffer.advance k) s).1 (r.readSome (buffer.advance k) s).2 := by
  have hsize : (buffer.advance k).size = buffer.size - k := by rw [advance_of_le hk]
  rcases Nat.lt_or_eq_of_le hk with hlt | rfl
  · cases hresult : buildTask (r.attempt buffer position s.outcomes.length k) with
    | ok n =>
        have hcall := hresult
        rw [attempt, ← hposition, ← hsize] at hcall
        obtain ⟨hn, hle, -⟩ := r.delivers _ _ _ n (by omega) hcall
        simp only [readSome, hcall]
        exact .progress (by omega) hn hresult
    | fail e =>
        have hcall := hresult
        rw [attempt, ← hposition, ← hsize] at hcall
        simp only [readSome, hcall]
        cases e with
        | eof => exact .zero hlt (.inl rfl) hresult
        | no_buffer_space => exact .zero hlt (.inr rfl) hresult
        | other value => exact .error hlt (by simp) hresult
  · simp only [readSome, hsize, Nat.sub_self, r.empty, buildTask]
    exact .full rfl

/-- The bytes of one more operation. -/
theorem Filled.complete (h : Filled r buffer memory position k s) (hposition : s.position = position + k)
    (hle : k + n ≤ buffer.size) :
    Filled r buffer memory position (k + n) (r.complete (buffer.advance k) s (.ok n)) := by
  rw [advance_of_le h.le]
  refine ⟨hle, ?_, ?_⟩
  · intro j hj
    by_cases hnew : k ≤ j
    · have hin : buffer.data + k ≤ buffer.data + j ∧ buffer.data + j < buffer.data + k + n := by omega
      have hbyte : s.position + (buffer.data + j - (buffer.data + k)) = position + j := by omega
      exact (if_pos hin).trans (congrArg r.byte hbyte)
    · have hout : ¬ (buffer.data + k ≤ buffer.data + j ∧ buffer.data + j < buffer.data + k + n) := by omega
      exact (if_neg hout).trans (h.filled j (by omega))
  · intro a ha
    have hout : ¬ (buffer.data + k ≤ a ∧ a < buffer.data + k + n) := by omega
    exact (if_neg hout).trans (h.untouched a ha)

/-- What the next operation leaves of `Reading`. -/
theorem Reading.start_of (h : Reading r buffer memory position k s)
    (hcall : r.readSome (buffer.advance k) s = (.ok n, s')) (hn : n ≠ 0) :
    Reading r buffer memory position (k + n) s' := by
  have hspec := readSome_spec (r := r) h.le h.position
  rw [hcall] at hspec
  cases hspec with
  | full hk => exact absurd rfl hn
  | zero hk he hfail => exact absurd rfl hn
  | progress hk hn' hok =>
      refine ⟨h.complete h.position hk, ?_, ?_, ?_, ?_⟩
      · show offset _ (_ ++ [_]).length = _
        rw [List.length_append]
        exact offset_succ h.start hok
      · show (_ ++ [_]).length ≤ _
        rw [List.length_append]
        exact Nat.add_le_add h.calls hn'
      · show s.position + n = _
        rw [h.position, Nat.add_assoc]
      · intro e he
        rcases List.mem_append.mp he with he | he
        · exact h.succeeded e he
        · cases List.mem_singleton.mp he

/-- How `Read` returns: the buffer is full, or the operation at byte `k` has failed. -/
inductive ReadReturns (r : Receiver) (buffer : MutableBuffer) (memory : Nat → UInt8) (position : Nat) :
    Result Nat ErrorCode → Received → Prop where
  | full {s : Received} {i : Nat} (start : offset (r.attempt buffer position) i = some buffer.size)
      (bytes : Filled r buffer memory position buffer.size s) (succeeded : ∀ e, .fail e ∉ s.outcomes) :
      ReadReturns r buffer memory position (.ok buffer.size) s
  | failed {s : Received} {i k : Nat} {e : ErrorCode} (start : offset (r.attempt buffer position) i = some k)
      (hk : k < buffer.size) (h : buildTask (r.attempt buffer position i k) = .fail e)
      (bytes : Filled r buffer memory position k s) (failed : ∀ e', .fail e' ∈ s.outcomes ↔ e' = e) :
      ReadReturns r buffer memory position (if e = .eof ∨ e = .no_buffer_space then .ok k else .fail e) s

theorem Reading.failed (h : Reading r buffer memory position k s) (hk : k < buffer.size)
    (hfail : buildTask (r.attempt buffer position s.outcomes.length k) = .fail e) :
    ReadReturns r buffer memory position (if e = .eof ∨ e = .no_buffer_space then .ok k else .fail e)
      (r.complete (buffer.advance k) s (.fail e)) := by
  refine .failed h.start hk hfail ⟨h.le, h.filled, h.untouched⟩ ?_
  intro e'
  show _ ∈ s.outcomes ++ [_] ↔ _
  rw [List.mem_append, List.mem_singleton]
  constructor
  · rintro (he | he)
    · exact absurd he (h.succeeded e')
    · cases he
      rfl
  · rintro rfl
    exact .inr rfl

theorem Reading.full (h : Reading r buffer memory position k s) (hk : k = buffer.size) :
    ReadReturns r buffer memory position (.ok k) (r.complete (buffer.advance k) s (.ok 0)) := by
  subst hk
  have hfilled := h.complete (n := 0) h.position (Nat.le_refl _)
  refine .full h.start hfilled ?_
  intro e he
  rcases List.mem_append.mp he with he | he
  · exact h.succeeded e he
  · cases List.mem_singleton.mp he

theorem read_returns (r : Receiver) (buffer : MutableBuffer) (memory : Nat → UInt8) (position : Nat) :
    ∃ result s, ReadReturns r buffer memory position result s ∧ s.outcomes.length ≤ buffer.size + 1 ∧
      ∀ fuel, buffer.size < fuel → r.read buffer memory position fuel = some (result, s) := by
  have hinit : Reading r buffer memory position 0 { memory, position } := by
    refine ⟨⟨Nat.zero_le _, ?_, fun _ _ => rfl⟩, rfl, Nat.le_refl 0, rfl, fun _ => List.not_mem_nil⟩
    intro j hj
    exact absurd hj (Nat.not_lt_zero j)
  have hagain : ∀ k s n s', Reading r buffer memory position k s → r.readSome (buffer.advance k) s = (.ok n, s') →
      n ≠ 0 → Reading r buffer memory position (k + n) s' := fun k s n s' hs hcall hn => hs.start_of hcall hn
  obtain ⟨k, s, s', result, hs, hstop, hloop⟩ := transfer_total (fun k s hs => hs.le) hagain hinit
  have hspec := readSome_spec (r := r) hs.le hs.position
  -- every operation but the last one has moved a byte
  have hcalls : (r.readSome (buffer.advance k) s).2.outcomes.length ≤ buffer.size + 1 := by
    rw [readSome_calls]
    exact Nat.succ_le_succ (Nat.le_trans hs.calls hs.le)
  cases hstop with
  | zero hcall =>
      rw [hcall] at hspec hcalls
      refine ⟨.ok k, s', ?_, hcalls, hloop⟩
      generalize hn : 0 = n at hspec
      cases hspec with
      | full hk => exact hs.full hk
      | zero hk he hfail =>
          have hread := hs.failed hk hfail
          rwa [if_pos he] at hread
      | progress hk hn' hok => omega
  | @error e hcall =>
      rw [hcall] at hspec hcalls
      refine ⟨.fail e, s', ?_, hcalls, hloop⟩
      cases hspec with
      | error hk hne hfail =>
          have hread := hs.failed hk hfail
          rwa [if_neg hne] at hread

/-- What a call of `Read` promises: at most one operation more than there are bytes to fill, and "bytes
    received < buffer size means end of stream". -/
structure Contract (r : Receiver) (buffer : MutableBuffer) (memory : Nat → UInt8) (position : Nat)
    (result : Result Nat ErrorCode) (s : Received) : Prop where
  calls : s.outcomes.length ≤ buffer.size + 1
  untouched : ∀ a, a < buffer.data ∨ buffer.data + buffer.size ≤ a → s.memory a = memory a
  received : ∀ k, result = .ok k → k ≤ buffer.size ∧ (∀ j < k, s.memory (buffer.data + j) = r.byte (position + j)) ∧
    (k = buffer.size ∨ r.length = some (position + k))
  reported : ∀ e, .fail e ∈ s.outcomes → e ≠ .eof → result = .fail e

/-- `Read` returns, and keeps its promise. -/
def ReadsAll (r : Receiver) (buffer : MutableBuffer) (memory : Nat → UInt8) (position : Nat) : Prop :=
  ∃ result s, (∀ fuel, buffer.size < fuel → r.read buffer memory position fuel = some (result, s)) ∧
    Contract r buffer memory position result s

/-- **`Read` and the no-buffer-space error.** `Read` is right about a buffer if and only if no operation on a
    non-empty rest of it ends with `asio::error::no_buffer_space`. -/
theorem readsAll_iff (r : Receiver) (buffer : MutableBuffer) (memory : Nat → UInt8) (position : Nat) :
    ReadsAll r buffer memory position ↔ ∀ i k, offset (r.attempt buffer position) i = some k → k < buffer.size →
      (r.attempt buffer position i k).1 ≠ some .no_buffer_space := by
  obtain ⟨result, s, hread, hcalls, hreturns⟩ := read_returns r buffer memory position
  constructor
  · rintro ⟨result', s', hreturns', hcontract⟩ j l hj hl hspace
    have hspace := buildTask_eq_fail.mpr hspace
    have hsame := (hreturns _ (Nat.lt_succ_self _)).symm.trans (hreturns' _ (Nat.lt_succ_self _))
    cases hsame
    cases hread with
    | full start bytes succeeded =>
        have hle := offset_le start hj hspace
        omega
    | failed start hk hfail bytes failed =>
        -- the operation that fails is this one, and its error is lost
        obtain ⟨rfl, rfl⟩ := offset_unique start hfail hj hspace
        have hlost := hcontract.reported _ ((failed _).mpr rfl) ErrorCode.noConfusion
        rw [if_pos (.inr rfl)] at hlost
        cases hlost
  · intro hne
    refine ⟨result, s, hreturns, ?_⟩
    cases hread with
    | full start bytes succeeded =>
        refine ⟨hcalls, bytes.untouched, ?_, ?_⟩
        · intro k hk
          cases hk
          exact ⟨bytes.le, bytes.filled, .inl rfl⟩
        · intro e he
          exact absurd he (succeeded e)
    | @failed s i k e start hk hfail bytes failed =>
        have hnot : e ≠ .no_buffer_space := by
          rintro rfl
          exact hne i k start hk (buildTask_eq_fail.mp hfail)
        refine ⟨hcalls, bytes.untouched, ?_, ?_⟩
        · intro k' hk'
          split at hk'
          · next he =>
              cases hk'
              obtain rfl := he.resolve_right hnot
              have hend := r.exhausted _ _ _ (Nat.sub_pos_of_lt hk) (buildTask_eq_fail.mp hfail)
              exact ⟨bytes.le, bytes.filled, .inr hend⟩
          · cases hk'
        · intro e' he' heof
          obtain rfl := (failed e').mp he'
          rw [if_neg]
          rintro (rfl | rfl)
          · exact heof rfl
          · exact hnot rfl

/-- One byte is delivered, and then `asio::error::no_buffer_space`; the stream goes on for ever. -/
def noSpace : Receiver where
  byte _ := 0
  length := none
  async_read_some i _ size := if size = 0 then (none, 0) else if i = 0 then (none, 1) else (some .no_buffer_space, 0)
  delivers i position size n hsize h := by
    rw [if_neg (Nat.ne_of_gt hsize)] at h
    split at h
    · cases h
      refine ⟨Nat.le_refl 1, hsize, ?_⟩
      intro l hl
      cases hl
    · cases h
  exhausted i position size hsize h := by
    rw [if_neg (Nat.ne_of_gt hsize)] at h
    split at h <;> cases h
  empty _ _ := rfl

/-- `Read` returns `Ok(1)`, with two bytes of the buffer to fill, and the stream has not ended. -/
theorem read_noSpace :
    (∀ fuel, 3 < fuel → (noSpace.read ⟨0, 3⟩ (fun _ => 1) 0 fuel).map (·.1) = some (.ok 1)) ∧
      ¬ ReadsAll noSpace ⟨0, 3⟩ (fun _ => 1) 0 := by
  have hread : (noSpace.read ⟨0, 3⟩ (fun _ => 1) 0 4).map (·.1) = some (.ok 1) := by decide
  constructor
  · intro fuel hfuel
    obtain ⟨c, hloop, hc⟩ := Option.map_eq_some_iff.mp hread
    rw [read, loop_mono hloop hfuel, Option.map_some, hc]
  · rintro ⟨result, s, hreturns, hcontract⟩
    rw [hreturns 4 (by decide), Option.map_some] at hread
    have hshort := (hcontract.received 1 (Option.some.inj hread)).2.2
    rcases hshort with hshort | hend
    · cases hshort
    · cases hend

end Receiver

end Net
end Tpcc
