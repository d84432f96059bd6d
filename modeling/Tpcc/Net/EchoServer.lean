import Mathlib.Data.List.TakeDrop
import Tpcc.Net.Socket
import Tpcc.Transition.System

/-!
# `Net.EchoServer` — the echo server on callbacks

`asio/echo`: `Session::ReadChunk` and `WriteChunk` start each other from their handlers, over one `buffer_`, and
`Server::AcceptClient` starts itself. The run loop calls the handlers of all sessions, in any order.

`asio` is not part of the repository. An operation that has been started is kept in `State.operations` until its
handler is called. Until then `asio` stores bytes into the buffer of a read and sends bytes from the buffer of a
write, a few at a time; it may give up at any moment. A read that succeeds has brought something, and a write
that succeeds has sent all it was given.

## Contents
- **The state.** `Buffer`, `Session`, `Operation`.
- **The server.** The functions of `Session` and `Server` and their handlers.
- **Steps.** `receive`, `transmit` and `complete`.
- **The cycle of a session.** `Phase` has a case for each half of it.
-/

namespace Tpcc
namespace Net
namespace Echo

open Transition

/-! ## The state -/

abbrev SessionId := Nat

def kBufferSize : Nat := 1024

/-- `char buffer_[kBufferSize]`. -/
structure Buffer where
  bytes : List UInt8
  size : bytes.length = kBufferSize

theorem Buffer.size_store (buffer : Buffer) {chunk : List UInt8} {offset : Nat}
    (h : offset + chunk.length ≤ kBufferSize) :
    (buffer.bytes.take offset ++ chunk ++ buffer.bytes.drop (offset + chunk.length)).length = kBufferSize := by
  have hsize := buffer.size
  simp only [List.length_append, List.length_take, List.length_drop]
  omega

/-- The buffer after `chunk` has been stored at `offset`. -/
def Buffer.store (buffer : Buffer) (chunk : List UInt8) (offset : Nat) (h : offset + chunk.length ≤ kBufferSize) :
    Buffer :=
  ⟨buffer.bytes.take offset ++ chunk ++ buffer.bytes.drop (offset + chunk.length), buffer.size_store h⟩

theorem Buffer.take_store (buffer : Buffer) {chunk : List UInt8} {offset : Nat}
    (h : offset + chunk.length ≤ kBufferSize) :
    (buffer.store chunk offset h).bytes.take (offset + chunk.length) = buffer.bytes.take offset ++ chunk := by
  have hsize := buffer.size
  apply List.take_left'
  rw [List.length_append, List.length_take]
  omega

/-- A `Session`, with the bytes that its reads have brought and those that its writes have sent. -/
structure Session where
  buffer_ : Buffer
  read : List UInt8 := []
  written : List UInt8 := []

/-- An operation whose handler has not been called. -/
inductive Operation where
  | accept
  /-- `async_read_some` has stored the bytes `received`. -/
  | read (session : SessionId) (received : List UInt8)
  /-- `async_write` has sent `sent` of the first `bytes` bytes of `buffer_`, which was `start` when it began. -/
  | write (session : SessionId) (bytes sent : Nat) (start : Buffer)

/-- The operation is one of session `i`. -/
def Operation.of (i : SessionId) : Operation → Bool
  | .accept => false
  | .read j _ => j == i
  | .write j _ _ _ => j == i

structure State where
  /-- The sessions, as they were made. -/
  sessions : List Session
  operations : List Operation

def State.initiate (s : State) (op : Operation) : State := { s with operations := s.operations ++ [op] }

/-! ## The server -/

/-- `Session::ReadChunk`. -/
def readChunk (s : State) (i : SessionId) : State := s.initiate (.read i [])

/-- `Session::WriteChunk`. -/
def writeChunk (s : State) (i : SessionId) (bytes : Nat) : Option State :=
  (s.sessions[i]?).map fun session => s.initiate (.write i bytes 0 session.buffer_)

/-- `Session::Start`. -/
def start (s : State) (i : SessionId) : State := readChunk s i

/-- `Server::AcceptClient`. -/
def acceptClient (s : State) : State := s.initiate .accept

/-- The handler of `ReadChunk`. -/
def onRead (s : State) (i : SessionId) (error_code : Option ErrorCode) (bytes_read : Nat) : Option State :=
  if error_code.isNone then writeChunk s i bytes_read else some s

/-- The handler of `WriteChunk`. -/
def onWrite (s : State) (i : SessionId) (error_code : Option ErrorCode) : State :=
  if error_code.isNone then readChunk s i else s

/-- The handler of `AcceptClient`. `memory` is what `buffer_` happens to hold in the new session. -/
def onAccept (s : State) (error_code : Option ErrorCode) (memory : Buffer) : State :=
  if error_code.isNone then
    acceptClient (start { s with sessions := s.sessions ++ [{ buffer_ := memory }] } s.sessions.length)
  else acceptClient s

/-- `Server::Start`. -/
def initial : State := acceptClient ⟨[], []⟩

/-! ## Steps -/

/-- `asio` stores `chunk` behind what operation number `k`, a read, has received. -/
def receive (s : State) (k : Nat) (chunk : List UInt8) : Option State :=
  match s.operations[k]? with
  | some (.read i received) =>
      (s.sessions[i]?).bind fun session =>
        if h : received.length + chunk.length ≤ kBufferSize then
          some { sessions := s.sessions.set i { session with buffer_ := session.buffer_.store chunk received.length h }
                 operations := s.operations.set k (.read i (received ++ chunk)) }
        else none
  | _ => none

/-- `asio` sends the next `n` bytes of operation number `k`, a write. -/
def transmit (s : State) (k : Nat) (n : Nat) : Option State :=
  match s.operations[k]? with
  | some (.write i bytes sent start) =>
      (s.sessions[i]?).bind fun session =>
        if sent + n ≤ bytes then
          some { sessions := s.sessions.set i
                   { session with written := session.written ++ (session.buffer_.bytes.drop sent).take n }
                 operations := s.operations.set k (.write i bytes (sent + n) start) }
        else none
  | _ => none

/-- Operation number `k` completes: the run loop calls its handler. -/
def complete (s : State) (k : Nat) (error_code : Option ErrorCode) (memory : Buffer) : Option State :=
  match s.operations[k]? with
  | none => none
  | some .accept => some (onAccept { s with operations := s.operations.eraseIdx k } error_code memory)
  | some (.read i received) =>
      match error_code with
      | some code => onRead { s with operations := s.operations.eraseIdx k } i (some code) 0
      | none =>
          (s.sessions[i]?).bind fun session =>
            if received = [] then none
            else onRead { sessions := s.sessions.set i { session with read := session.read ++ received }
                          operations := s.operations.eraseIdx k } i none received.length
  | some (.write i bytes sent _) =>
      if error_code = none ∧ sent ≠ bytes then none
      else some (onWrite { s with operations := s.operations.eraseIdx k } i error_code)

inductive Action where
  | receive (k : Nat) (chunk : List UInt8)
  | transmit (k : Nat) (n : Nat)
  | complete (k : Nat) (error_code : Option ErrorCode) (memory : Buffer)

def next (s : State) : Action → Option State
  | .receive k chunk => receive s k chunk
  | .transmit k n => transmit s k n
  | .complete k error_code memory => complete s k error_code memory

/-- `ServeForever`. -/
def system : System State := System.ofNext initial next

/-! ## The cycle of a session -/

variable {i j : SessionId} {s s' : State} {session : Session} {op op' : Operation}

/-- Where session `i` is, by its operations. -/
inductive Phase (i : SessionId) : Option Session → List Operation → Prop where
  /-- Not made yet. -/
  | absent : Phase i none []
  /-- After an error. -/
  | closed (session : Session) (h : session.written <+: session.read) : Phase i (some session) []
  | reads (session : Session) (received : List UInt8) (hequal : session.written = session.read)
      (hbuffer : session.buffer_.bytes.take received.length = received) : Phase i (some session) [.read i received]
  /-- Before the write, `base` had been read and written. -/
  | writes (session : Session) (base : List UInt8) (bytes sent : Nat) (hsent : sent ≤ bytes)
      (hread : session.read = base ++ session.buffer_.bytes.take bytes)
      (hwritten : session.written = base ++ session.buffer_.bytes.take sent) :
      Phase i (some session) [.write i bytes sent session.buffer_]

section Facts

variable {x : Option Session} {ops pre post : List Operation}

theorem Phase.one (h : Phase i x ops) : ops.length ≤ 1 := by
  cases h with
  | absent => exact Nat.zero_le 1
  | closed session h => exact Nat.zero_le 1
  | reads session received hequal hbuffer => exact Nat.le_refl 1
  | writes session base bytes sent hsent hread hwritten => exact Nat.le_refl 1

theorem Phase.kept (h : Phase i (some session) ops) {bytes sent : Nat} {start : Buffer}
    (hop : .write i bytes sent start ∈ ops) : session.buffer_ = start := by
  cases h with
  | closed session h => cases hop
  | reads session received hequal hbuffer => cases List.mem_singleton.mp hop
  | writes session base bytes sent hsent hread hwritten =>
      cases List.mem_singleton.mp hop
      rfl

theorem Phase.echoes (h : Phase i (some session) ops) : session.written <+: session.read := by
  cases h with
  | closed session h => exact h
  | reads session received hequal hbuffer => exact hequal ▸ List.prefix_refl _
  | writes session base bytes sent hsent hread hwritten =>
      rw [hread, hwritten]
      exact (List.prefix_append_right_inj base).mpr (List.take_prefix_take_left hsent)

theorem Phase.equal (h : Phase i (some session) ops) {received : List UInt8} (hop : .read i received ∈ ops) :
    session.written = session.read := by
  cases h with
  | closed session h => cases hop
  | reads session received hequal hbuffer => exact hequal
  | writes session base bytes sent hsent hread hwritten => cases List.mem_singleton.mp hop

theorem Phase.alone (h : Phase i x (pre ++ op :: post)) : pre = [] ∧ post = [] ∧ Phase i x [op] := by
  have hlength := h.one
  rw [List.length_append, List.length_cons] at hlength
  obtain rfl := List.eq_nil_of_length_eq_zero (l := pre) (by omega)
  obtain rfl := List.eq_nil_of_length_eq_zero (l := post) (by omega)
  exact ⟨rfl, rfl, h⟩

end Facts

def Inv (s : State) : Prop := ∀ i, Phase i s.sessions[i]? (s.operations.filter (·.of i))

/-- What a step does to session `i` is all it does. -/
theorem Inv.update (h : Inv s) (hsessions : ∀ j, j ≠ i → s'.sessions[j]? = s.sessions[j]?)
    (hops : ∀ j, j ≠ i → s'.operations.filter (·.of j) = s.operations.filter (·.of j))
    (hphase : Phase i s'.sessions[i]? (s'.operations.filter (·.of i))) : Inv s' := by
  intro j
  by_cases hj : j = i
  · rw [hj]
    exact hphase
  · rw [hsessions j hj, hops j hj]
    exact h j

theorem of_ne (hop : op.of i = true) (hj : j ≠ i) : op.of j = false := by
  cases op with
  | accept => rfl
  | read k received =>
      obtain rfl := beq_iff_eq.mp hop
      exact beq_eq_false_iff_ne.mpr (Ne.symm hj)
  | write k bytes sent start =>
      obtain rfl := beq_iff_eq.mp hop
      exact beq_eq_false_iff_ne.mpr (Ne.symm hj)

/-- The operation number `k` and the others. -/
theorem exists_split {ops : List Operation} {k : Nat} (h : ops[k]? = some op) : ∃ pre post,
    ops = pre ++ op :: post ∧ ops.eraseIdx k = pre ++ post ∧ ∀ op', ops.set k op' = pre ++ op' :: post := by
  obtain ⟨hlt, hop⟩ := List.getElem?_eq_some_iff.mp h
  refine ⟨ops.take k, ops.drop (k + 1), ?_, List.eraseIdx_eq_take_drop_succ .., ?_⟩
  · rw [← hop, List.cons_getElem_drop_succ, List.take_append_drop]
  · intro op'
    exact List.set_eq_take_append_cons_drop.trans (if_pos hlt)

section Operations

variable {pre post : List Operation}

theorem filter_keep (hop : op.of i = true) :
    (pre ++ op :: post).filter (·.of i) = pre.filter (·.of i) ++ op :: post.filter (·.of i) := by
  rw [List.filter_append, List.filter_cons_of_pos hop]

theorem filter_skip (hop : op.of i = false) :
    (pre ++ op :: post).filter (·.of i) = pre.filter (·.of i) ++ post.filter (·.of i) := by
  rw [List.filter_append, List.filter_cons_of_neg (Bool.eq_false_iff.mp hop)]

theorem filter_news {news : List Operation} (hnews : ∀ op ∈ news, op.of i = true) (hj : j ≠ i) :
    news.filter (·.of j) = [] := by
  apply List.filter_eq_nil_iff.mpr
  intro op hop
  exact Bool.eq_false_iff.mp (of_ne (hnews op hop) hj)

end Operations

section Step

variable {k : Nat} {sessions : List Session} {news : List Operation}

/-- An operation of session `i` is its only one. -/
theorem Inv.only (h : Inv s) (hk : s.operations[k]? = some op) (hop : op.of i = true) : ∃ pre post,
    s.operations = pre ++ op :: post ∧ s.operations.eraseIdx k = pre ++ post ∧
      (∀ op', s.operations.set k op' = pre ++ op' :: post) ∧ pre.filter (·.of i) = [] ∧ post.filter (·.of i) = [] ∧
      Phase i s.sessions[i]? [op] := by
  obtain ⟨pre, post, hsplit, herase, hset⟩ := exists_split hk
  have hi := h i
  rw [hsplit, filter_keep hop] at hi
  exact ⟨pre, post, hsplit, herase, hset, hi.alone⟩

theorem Inv.current (h : Inv s) (hk : s.operations[k]? = some op) (hop : op.of i = true) :
    Phase i s.sessions[i]? [op] := by
  obtain ⟨-, -, -, -, -, -, -, hphase⟩ := h.only hk hop
  exact hphase

/-- An operation of session `i` makes progress. -/
theorem Inv.progress (h : Inv s) (hk : s.operations[k]? = some op) (hop : op.of i = true) (hop' : op'.of i = true)
    (hsessions : ∀ j, j ≠ i → sessions[j]? = s.sessions[j]?) (hphase : Phase i sessions[i]? [op']) :
    Inv ⟨sessions, s.operations.set k op'⟩ := by
  obtain ⟨pre, post, hsplit, -, hset, hpre, hpost, -⟩ := h.only hk hop
  refine h.update hsessions ?_ ?_
  · intro j hj
    show (s.operations.set k op').filter (·.of j) = s.operations.filter (·.of j)
    rw [hset, hsplit, filter_skip (of_ne hop hj), filter_skip (of_ne hop' hj)]
  · show Phase i sessions[i]? ((s.operations.set k op').filter (·.of i))
    rw [hset, filter_keep hop', hpre, hpost]
    exact hphase

/-- An operation of session `i` is over, and its handler has started those in `news`. -/
theorem Inv.finish (h : Inv s) (hk : s.operations[k]? = some op) (hop : op.of i = true)
    (hnews : ∀ op' ∈ news, op'.of i = true) (hsessions : ∀ j, j ≠ i → sessions[j]? = s.sessions[j]?)
    (hphase : Phase i sessions[i]? news) : Inv ⟨sessions, s.operations.eraseIdx k ++ news⟩ := by
  obtain ⟨pre, post, hsplit, herase, -, hpre, hpost, -⟩ := h.only hk hop
  refine h.update hsessions ?_ ?_
  · intro j hj
    show (s.operations.eraseIdx k ++ news).filter (·.of j) = s.operations.filter (·.of j)
    rw [herase, List.filter_append, filter_news hnews hj, List.append_nil, hsplit, filter_skip (of_ne hop hj),
      List.filter_append]
  · show Phase i sessions[i]? ((s.operations.eraseIdx k ++ news).filter (·.of i))
    rw [herase, List.filter_append, List.filter_append, hpre, hpost, List.filter_eq_self.mpr hnews]
    exact hphase

theorem Inv.receive {chunk : List UInt8} (h : Inv s) (hnext : receive s k chunk = some s') : Inv s' := by
  simp only [Echo.receive] at hnext
  split at hnext
  · next i received hk =>
      obtain ⟨session, hsession, hnext⟩ := Option.bind_eq_some_iff.mp hnext
      split at hnext
      · next hle =>
          cases hnext
          have hcurrent := h.current hk (i := i) (beq_self_eq_true i)
          rw [hsession] at hcurrent
          cases hcurrent with
          | reads session received hequal hbuffer =>
              have hlt := (List.getElem?_eq_some_iff.mp hsession).1
              refine h.progress hk (i := i) (beq_self_eq_true i) (beq_self_eq_true i) ?_ ?_
              · intro j hj
                exact List.getElem?_set_ne (Ne.symm hj)
              · rw [List.getElem?_set_self hlt]
                refine .reads _ _ hequal ?_
                rw [List.length_append, Buffer.take_store, hbuffer]
      · cases hnext
  · cases hnext

theorem Inv.transmit {n : Nat} (h : Inv s) (hnext : transmit s k n = some s') : Inv s' := by
  simp only [Echo.transmit] at hnext
  split at hnext
  · next i bytes sent start hk =>
      obtain ⟨session, hsession, hnext⟩ := Option.bind_eq_some_iff.mp hnext
      split at hnext
      · next hle =>
          cases hnext
          have hcurrent := h.current hk (i := i) (beq_self_eq_true i)
          rw [hsession] at hcurrent
          cases hcurrent with
          | writes session base bytes sent hsent hread hwritten =>
              have hlt := (List.getElem?_eq_some_iff.mp hsession).1
              refine h.progress hk (i := i) (beq_self_eq_true i) (beq_self_eq_true i) ?_ ?_
              · intro j hj
                exact List.getElem?_set_ne (Ne.symm hj)
              · rw [List.getElem?_set_self hlt]
                refine .writes { session with
                  written := session.written ++ (session.buffer_.bytes.drop sent).take n } base bytes (sent + n) hle
                  hread ?_
                show session.written ++ _ = _
                rw [hwritten, List.append_assoc, ← List.take_add]
      · cases hnext
  · cases hnext

theorem Inv.acceptClient (h : Inv s) : Inv (acceptClient s) := by
  intro i
  have hfilter : (Echo.acceptClient s).operations.filter (·.of i) = s.operations.filter (·.of i) := by
    show (s.operations ++ [Operation.accept]).filter (·.of i) = _
    rw [List.filter_append]
    exact List.append_nil _
  rw [hfilter]
  exact h i

/-- A session is made and started. -/
theorem Inv.start (h : Inv s) (memory : Buffer) :
    Inv (start { s with sessions := s.sessions ++ [{ buffer_ := memory }] } s.sessions.length) := by
  have hops : ∀ i, (s.operations ++ [Operation.read s.sessions.length []]).filter (·.of i) =
      s.operations.filter (·.of i) ++ ([Operation.read s.sessions.length []]).filter (·.of i) :=
    fun i => List.filter_append ..
  refine h.update (i := s.sessions.length) ?_ ?_ ?_
  · intro j hj
    rcases Nat.lt_or_gt_of_ne hj with hlt | hgt
    · exact List.getElem?_append_left hlt
    · show (s.sessions ++ [_])[j]? = s.sessions[j]?
      rw [List.getElem?_eq_none (Nat.le_of_lt hgt), List.getElem?_eq_none]
      rw [List.length_append, List.length_singleton]
      exact hgt
  · intro j hj
    refine (hops j).trans ?_
    have hnew : ([Operation.read s.sessions.length []]).filter (·.of j) = [] := by
      exact filter_news (List.forall_mem_singleton.mpr (beq_self_eq_true s.sessions.length)) hj
    rw [hnew, List.append_nil]
  · have hnone : Phase s.sessions.length none (s.operations.filter (·.of s.sessions.length)) := by
      rw [← List.getElem?_eq_none (Nat.le_refl s.sessions.length)]
      exact h s.sessions.length
    show Phase s.sessions.length (s.sessions ++ [_])[s.sessions.length]?
      ((s.operations ++ [Operation.read s.sessions.length []]).filter (·.of s.sessions.length))
    rw [hops, List.getElem?_concat_length]
    generalize s.operations.filter (·.of s.sessions.length) = mine at hnone
    cases hnone
    have hnew : ([Operation.read s.sessions.length []]).filter (·.of s.sessions.length) =
        [.read s.sessions.length []] := List.filter_cons_of_pos (beq_self_eq_true s.sessions.length)
    rw [hnew]
    exact .reads _ [] rfl rfl

theorem Inv.accepted (h : Inv s) (hk : s.operations[k]? = some .accept) :
    Inv { s with operations := s.operations.eraseIdx k } := by
  obtain ⟨pre, post, hsplit, herase, -⟩ := exists_split hk
  intro i
  have hi := h i
  rw [hsplit, filter_skip rfl, ← List.filter_append] at hi
  show Phase i s.sessions[i]? ((s.operations.eraseIdx k).filter (·.of i))
  rw [herase]
  exact hi

/-- The handler of a read: what has been read is all to be written. -/
theorem Inv.onRead {received : List UInt8} (h : Inv s) (hk : s.operations[k]? = some (.read i received))
    (hsession : s.sessions[i]? = some session)
    (hnext : onRead { sessions := s.sessions.set i { session with read := session.read ++ received }
                      operations := s.operations.eraseIdx k } i none received.length = some s') : Inv s' := by
  have hlt := (List.getElem?_eq_some_iff.mp hsession).1
  have hcurrent := h.current hk (i := i) (beq_self_eq_true i)
  simp only [Echo.onRead, Option.isNone_none, if_true, writeChunk, List.getElem?_set_self hlt, Option.map_some] at hnext
  cases hnext
  rw [hsession] at hcurrent
  cases hcurrent with
  | reads session received hequal hbuffer =>
      refine h.finish hk (i := i) (beq_self_eq_true i) ?_ ?_ ?_
      · exact List.forall_mem_singleton.mpr (beq_self_eq_true i)
      · intro j hj
        exact List.getElem?_set_ne (Ne.symm hj)
      · rw [List.getElem?_set_self hlt]
        refine .writes { session with read := session.read ++ received } session.read received.length 0
          (Nat.zero_le _) ?_ ?_
        · rw [hbuffer]
        · show session.written = session.read ++ session.buffer_.bytes.take 0
          rw [hequal, List.take_zero, List.append_nil]

/-- The handler of a write that has sent everything. -/
theorem Inv.onWrite {bytes : Nat} {start : Buffer} (h : Inv s)
    (hk : s.operations[k]? = some (.write i bytes bytes start)) :
    Inv (onWrite { s with operations := s.operations.eraseIdx k } i none) := by
  have hcurrent := h.current hk (i := i) (beq_self_eq_true i)
  refine h.finish hk (i := i) (beq_self_eq_true i) ?_ (fun _ _ => rfl) ?_
  · exact List.forall_mem_singleton.mpr (beq_self_eq_true i)
  · generalize s.sessions[i]? = x at hcurrent
    cases hcurrent with
    | writes session base bytes sent hsent hread hwritten =>
        exact .reads session [] (hwritten.trans hread.symm) rfl

/-- After an error the handler starts nothing. -/
theorem Inv.fail (h : Inv s) (hk : s.operations[k]? = some op) (hop : op.of i = true) :
    Inv { s with operations := s.operations.eraseIdx k } := by
  have hcurrent := h.current hk hop
  have hfinish : Inv ⟨s.sessions, s.operations.eraseIdx k ++ []⟩ := by
    refine h.finish hk hop nofun (fun _ _ => rfl) ?_
    generalize s.sessions[i]? = x at hcurrent
    cases x with
    | none => cases hcurrent
    | some session => exact .closed session hcurrent.echoes
  rwa [List.append_nil] at hfinish

theorem Inv.complete {error_code : Option ErrorCode} {memory : Buffer} (h : Inv s)
    (hnext : complete s k error_code memory = some s') : Inv s' := by
  simp only [Echo.complete] at hnext
  split at hnext
  · cases hnext
  · next hk =>
      cases hnext
      simp only [onAccept]
      split
      · exact ((h.accepted hk).start memory).acceptClient
      · exact (h.accepted hk).acceptClient
  · next i received hk =>
      cases error_code with
      | some code =>
          cases hnext
          exact h.fail hk (i := i) (beq_self_eq_true i)
      | none =>
          obtain ⟨session, hsession, hnext⟩ := Option.bind_eq_some_iff.mp hnext
          split at hnext
          · cases hnext
          · exact h.onRead hk hsession hnext
  · next i bytes sent start hk =>
      split at hnext
      · cases hnext
      · next hsent =>
          cases hnext
          cases error_code with
          | none =>
              obtain rfl : sent = bytes := not_not.mp fun hne => hsent ⟨rfl, hne⟩
              exact h.onWrite hk
          | some code => exact h.fail hk (i := i) (beq_self_eq_true i)

end Step

theorem Inv.init : Inv initial := fun _ => .absent

theorem Inv.next {a : Action} (h : Inv s) (hnext : next s a = some s') : Inv s' := by
  cases a with
  | receive k chunk => exact h.receive hnext
  | transmit k n => exact h.transmit hnext
  | complete k error_code memory => exact h.complete hnext

theorem reachable_inv (h : system.Reachable s) : Inv s := by
  refine h.invariant ?_ ?_
  · rintro s rfl
    exact .init
  · rintro s s' hinv ⟨a, hnext⟩
    exact hinv.next hnext

/-- What is promised to the client of session `i`. -/
structure Intact (s : State) (i : SessionId) (session : Session) : Prop where
  one : (s.operations.filter (·.of i)).length ≤ 1
  kept : ∀ bytes sent start, .write i bytes sent start ∈ s.operations → session.buffer_ = start
  echoes : session.written <+: session.read
  equal : ∀ received, .read i received ∈ s.operations → session.written = session.read

/-- **The echo server keeps the bytes of each session intact.** -/
theorem echo_intact (h : system.Reachable s) (i : SessionId) (session : Session)
    (hsession : s.sessions[i]? = some session) : Intact s i session := by
  have hphase := reachable_inv h i
  rw [hsession] at hphase
  have hmem : ∀ op ∈ s.operations, op.of i = true → op ∈ s.operations.filter (·.of i) :=
    fun op hop hof => List.mem_filter.mpr ⟨hop, hof⟩
  exact {
    one := hphase.one
    kept := fun bytes sent start hop => hphase.kept (hmem _ hop (beq_self_eq_true i))
    echoes := hphase.echoes
    equal := fun received hop => hphase.equal (hmem _ hop (beq_self_eq_true i)) }

def zeroed : Buffer := ⟨List.replicate kBufferSize 0, List.length_replicate⟩

/-- Two clients; the first has sent two bytes, and one of them is on its way back. -/
def twoClients : List Action :=
  [.complete 0 none zeroed, .complete 1 none zeroed, .receive 1 [111], .receive 0 [104, 105],
    .complete 0 none zeroed, .transmit 2 1]

theorem echo_intact_twoClients : ∃ s session, system.Reachable s ∧ s.sessions[0]? = some session ∧
    session.read = [104, 105] ∧ session.written = [104] ∧ Intact s 0 session := by
  have hrun : ∃ s session, System.run next initial twoClients = some s ∧ s.sessions[0]? = some session ∧
      session.read = [104, 105] ∧ session.written = [104] := ⟨_, _, rfl, rfl, rfl, rfl⟩
  obtain ⟨s, session, hs, hsession, hread, hwritten⟩ := hrun
  have hreach : system.Reachable s := System.reachable_of_run twoClients hs
  exact ⟨s, session, hreach, hsession, hread, hwritten, echo_intact hreach 0 session hsession⟩

end Echo
end Net
end Tpcc
