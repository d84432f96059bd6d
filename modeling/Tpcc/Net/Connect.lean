import Tpcc.Net.Socket

/-!
# `Net.Connect` — resolution and the connection attempts

`Socket::ConnectTo`, `GetEndpoints`, `TryToConnect` and `TryToConnectToEndpoint`. The attempts are made one
after the other on a single `tcp::socket`: the first one opens it, and it stays open with that protocol.

`asio` and `wheels` are not part of the repository: how an attempt ends is arbitrary, a resolution yields an
error or at least one endpoint, and a failed `Result` throws when it is converted to its value.

## Contents
- **The code**, under the names it has in the source.
- **The attempts.** `attempt`, and where `tryToConnect` stops (`tried_spec`).
- **Errors.** When `connectTo` reports its errors through its `Result`.
- **Protocols.** Which of the endpoints `tryToConnect` can reach.
-/

namespace Tpcc
namespace Net

/-! ## The code -/

/-- `tcp::v4()` and `tcp::v6()`. -/
inductive Protocol where
  | v4
  | v6
  deriving DecidableEq

/-- `tcp::endpoint`. -/
structure Endpoint where
  protocol : Protocol
  address : Nat
  deriving DecidableEq

/-- `tcp::socket`: the protocol it is open with, and where it is connected. -/
structure TcpSocket where
  opened : Option Protocol := none
  connected : Option Endpoint := none
  deriving DecidableEq

/-- How attempt number `i` to connect a socket ends, by the protocol the socket is open with. -/
abbrev Connect := Nat → Option Protocol → Endpoint → Option ErrorCode

/-- The socket of `TryToConnect`, and the endpoints tried so far. -/
structure Attempts where
  sock : TcpSocket := {}
  tried : List Endpoint := []

/-- `TryToConnectToEndpoint`. -/
def tryToConnectToEndpoint (connect : Connect) (s : Attempts) (endpoint : Endpoint) : Result Unit ErrorCode × Attempts :=
  let code := connect s.tried.length s.sock.opened endpoint
  let opened := s.sock.opened.getD endpoint.protocol
  let connected := if code = none then some endpoint else s.sock.connected
  (buildTask (code, ()), { sock := { opened, connected }, tried := s.tried ++ [endpoint] })

/-- The loop of `TryToConnect`, with `err`. -/
def tryLoop (connect : Connect) : List Endpoint → Attempts → Option ErrorCode → Option ErrorCode × Attempts
  | [], s, err => (err, s)
  | endpoint :: rest, s, _ =>
      match tryToConnectToEndpoint connect s endpoint with
      | (.ok (), s') => (none, s')
      | (.fail code, s') => tryLoop connect rest s' (some code)

/-- `TryToConnect`, with the endpoints it has tried. -/
def tryToConnect (connect : Connect) (endpoints_list : List Endpoint) : Result TcpSocket ErrorCode × List Endpoint :=
  match tryLoop connect endpoints_list {} none with
  | (some err, s) => (.fail err, s.tried)
  | (none, s) => (.ok s.sock, s.tried)

/-- `tcp::resolver`. -/
structure Resolver where
  async_resolve : String → String → Option ErrorCode × List Endpoint
  nonempty : ∀ host port endpoints, async_resolve host port = (none, endpoints) → endpoints ≠ []

/-- `GetEndpoints`. -/
def getEndpoints (resolver : Resolver) (host port : String) : Result (List Endpoint) ErrorCode :=
  match buildTask (resolver.async_resolve host port) with
  | .fail e => .fail e
  | .ok endpoints => .ok endpoints

/-- `ConnectTo`: what it returns or throws, and the endpoints it has tried. -/
def connectTo {X : Type} (W : (T : Type) → Wheels T ErrorCode X) (resolver : Resolver) (connect : Connect)
    (host : String) (port : UInt16) : Except X (Result TcpSocket ErrorCode) × List Endpoint :=
  let endpoints_list := getEndpoints resolver host (toString port)
  match endpoints_list with
  | .fail e => (.ok (.fail e), [])
  | .ok _ =>
      match (W _).unwrap endpoints_list with
      | .error x => (.error x, [])
      | .ok endpoints =>
          let asio_sock := tryToConnect connect endpoints
          (((W _).unwrap asio_sock.1).map .ok, asio_sock.2)

/-! ## The attempts -/

section Attempts

variable {connect : Connect} {endpoints rest : List Endpoint} {e : Endpoint} {code : ErrorCode} {i : Nat} {s : Attempts}
  {err : Option ErrorCode}

/-- What the socket is open with in front of attempt number `i`. -/
def openedAt (endpoints : List Endpoint) : Nat → Option Protocol
  | 0 => none
  | _ + 1 => endpoints.head?.map (·.protocol)

/-- How attempt number `i` ends, on endpoint number `i` of the list. -/
def attempt (connect : Connect) (endpoints : List Endpoint) (i : Nat) : Option (Option ErrorCode) :=
  endpoints[i]?.map (connect i (openedAt endpoints i))

/-- Attempt number `i` succeeds. -/
def Accepted (connect : Connect) (endpoints : List Endpoint) (i : Nat) : Prop :=
  attempt connect endpoints i = some none

/-- The attempts made so far have failed, the last one with `err`. -/
structure Refused (connect : Connect) (endpoints : List Endpoint) (s : Attempts) (err : Option ErrorCode) : Prop where
  opened : s.sock.opened = openedAt endpoints s.tried.length
  refused : ∀ i < s.tried.length, ¬ Accepted connect endpoints i
  last : ∀ i, s.tried.length = i + 1 → attempt connect endpoints i = some err
  none : s.tried = [] → err = none

/-- Where the loop stops: at the first attempt that succeeds, or at the end of the list. -/
inductive Tried (connect : Connect) (endpoints : List Endpoint) : Option ErrorCode → Attempts → Prop where
  | accepted {s : Attempts} {i : Nat} {e : Endpoint} (he : endpoints[i]? = some e) (h : Accepted connect endpoints i)
      (first : ∀ j < i, ¬ Accepted connect endpoints j) (connected : s.sock.connected = some e)
      (tried : s.tried = endpoints.take (i + 1)) : Tried connect endpoints none s
  | refused {s : Attempts} {err : Option ErrorCode} (h : Refused connect endpoints s err)
      (tried : s.tried = endpoints) : Tried connect endpoints err s

theorem getElem?_tried (hsplit : endpoints = s.tried ++ e :: rest) : endpoints[s.tried.length]? = some e := by
  rw [hsplit, List.getElem?_append_right (Nat.le_refl _), Nat.sub_self, List.getElem?_cons_zero]

theorem openedAt_succ (hsplit : endpoints = s.tried ++ e :: rest) (h : Refused connect endpoints s err) :
    some (s.sock.opened.getD e.protocol) = openedAt endpoints (s.tried.length + 1) := by
  rw [h.opened, openedAt]
  cases htried : s.tried with
  | nil =>
      rw [hsplit, htried]
      rfl
  | cons first others =>
      rw [hsplit, htried]
      rfl

/-- One more attempt fails. -/
theorem Refused.next (h : Refused connect endpoints s err) (hsplit : endpoints = s.tried ++ e :: rest)
    (hcode : connect s.tried.length s.sock.opened e = some code) :
    Refused connect endpoints (tryToConnectToEndpoint connect s e).2 (some code) := by
  have hattempt : attempt connect endpoints s.tried.length = some (some code) := by
    rw [attempt, getElem?_tried hsplit, ← h.opened, Option.map_some, hcode]
  have hlength : (tryToConnectToEndpoint connect s e).2.tried.length = s.tried.length + 1 := List.length_append
  refine ⟨?_, ?_, ?_, ?_⟩
  · rw [hlength]
    exact openedAt_succ hsplit h
  · intro i hi hacc
    rw [hlength] at hi
    rcases Nat.lt_succ_iff_lt_or_eq.mp hi with hi | rfl
    · exact h.refused i hi hacc
    · rw [Accepted, hattempt] at hacc
      cases hacc
  · intro i hi
    rw [hlength] at hi
    obtain rfl := Nat.succ.inj hi
    exact hattempt
  · intro hnil
    rw [hnil] at hlength
    cases hlength

theorem tryLoop_spec (h : Refused connect endpoints s err) (hsplit : endpoints = s.tried ++ rest) :
    Tried connect endpoints (tryLoop connect rest s err).1 (tryLoop connect rest s err).2 := by
  induction rest generalizing s err with
  | nil =>
      rw [List.append_nil] at hsplit
      exact .refused h hsplit.symm
  | cons e rest ih =>
      cases hcode : connect s.tried.length s.sock.opened e with
      | none =>
          have hcall : tryToConnectToEndpoint connect s e = (.ok (), (tryToConnectToEndpoint connect s e).2) := by
            rw [tryToConnectToEndpoint, hcode]
            rfl
          rw [tryLoop, hcall]
          refine .accepted (getElem?_tried hsplit) ?_ h.refused ?_ ?_
          · rw [Accepted, attempt, getElem?_tried hsplit, ← h.opened, Option.map_some, hcode]
          · exact if_pos hcode
          · show s.tried ++ [e] = _
            rw [hsplit, List.take_append, List.take_of_length_le (Nat.le_succ _), Nat.add_sub_cancel_left]
            rfl
      | some code =>
          have hcall : tryToConnectToEndpoint connect s e = (.fail code, (tryToConnectToEndpoint connect s e).2) := by
            rw [tryToConnectToEndpoint, hcode]
            rfl
          rw [tryLoop, hcall]
          apply ih (h.next hsplit hcode)
          rw [hsplit]
          exact List.append_cons _ _ _

theorem tried_spec (connect : Connect) (endpoints : List Endpoint) :
    Tried connect endpoints (tryLoop connect endpoints {} none).1 (tryLoop connect endpoints {} none).2 := by
  refine tryLoop_spec ⟨rfl, ?_, ?_, fun _ => rfl⟩ rfl
  · intro i hi
    exact absurd hi (Nat.not_lt_zero i)
  · intro i hi
    cases hi

end Attempts

/-! ## Errors -/

section Errors

variable {X : Type} {W : (T : Type) → Wheels T ErrorCode X} {resolver : Resolver} {connect : Connect} {host : String}
  {port : UInt16} {endpoints : List Endpoint}

/-- What `ConnectTo` promises of what it returns, or throws, after the endpoints it has tried. -/
structure Contract (resolver : Resolver) (connect : Connect) (host : String) (port : UInt16)
    (outcome : Except X (Result TcpSocket ErrorCode)) (tried : List Endpoint) : Prop where
  returns : ∃ result, outcome = .ok result
  resolution : ∀ e endpoints, resolver.async_resolve host (toString port) = (some e, endpoints) →
    outcome = .ok (.fail e)
  accepted : ∀ endpoints i e, resolver.async_resolve host (toString port) = (none, endpoints) →
    endpoints[i]? = some e → Accepted connect endpoints i → (∀ j < i, ¬ Accepted connect endpoints j) →
    tried = endpoints.take (i + 1) ∧ ∃ sock, outcome = .ok (.ok sock) ∧ sock.connected = some e
  refused : ∀ endpoints, resolver.async_resolve host (toString port) = (none, endpoints) →
    (∀ i, ¬ Accepted connect endpoints i) →
    ∃ e, attempt connect endpoints (endpoints.length - 1) = some (some e) ∧ outcome = .ok (.fail e)

/-- A resolution that fails is reported. -/
theorem connectTo_unresolved {e : ErrorCode}
    (h : resolver.async_resolve host (toString port) = (some e, endpoints)) :
    connectTo W resolver connect host port = (.ok (.fail e), []) := by
  simp only [connectTo, getEndpoints, h, buildTask]

theorem connectTo_resolved (hW : ∀ T, (W T).Documented)
    (h : resolver.async_resolve host (toString port) = (none, endpoints)) :
    connectTo W resolver connect host port =
      (((W _).unwrap (tryToConnect connect endpoints).1).map .ok, (tryToConnect connect endpoints).2) := by
  simp only [connectTo, getEndpoints, h, buildTask, (hW _).unwrap_ok]

/-- The first endpoint that accepts ends the loop. -/
theorem tryToConnect_of_accepted {i : Nat} (h : Accepted connect endpoints i) :
    ∃ j e sock, endpoints[j]? = some e ∧ Accepted connect endpoints j ∧ (∀ k < j, ¬ Accepted connect endpoints k) ∧
      tryToConnect connect endpoints = (.ok sock, endpoints.take (j + 1)) ∧ sock.connected = some e := by
  have hspec := tried_spec connect endpoints
  cases hloop : tryLoop connect endpoints {} none with
  | mk err s =>
      rw [hloop] at hspec
      change Tried connect endpoints err s at hspec
      cases hspec with
      | @accepted _ j e he hacc first connected tried =>
          refine ⟨j, e, s.sock, he, hacc, first, ?_, connected⟩
          simp only [tryToConnect, hloop, tried]
      | refused hrefused tried =>
          obtain ⟨e, he, -⟩ := Option.map_eq_some_iff.mp h
          refine absurd h (hrefused.refused i ?_)
          rw [tried]
          exact (List.getElem?_eq_some_iff.mp he).1

/-- Where none accepts, the error of the last attempt is what is left. -/
theorem tryToConnect_of_refused (hne : endpoints ≠ []) (h : ∀ i, ¬ Accepted connect endpoints i) :
    ∃ e, attempt connect endpoints (endpoints.length - 1) = some (some e) ∧
      tryToConnect connect endpoints = (.fail e, endpoints) := by
  have hspec := tried_spec connect endpoints
  cases hloop : tryLoop connect endpoints {} none with
  | mk err s =>
      rw [hloop] at hspec
      change Tried connect endpoints err s at hspec
      cases hspec with
      | accepted he hacc first connected tried => exact absurd hacc (h _)
      | refused hrefused tried =>
          have hlast := hrefused.last (endpoints.length - 1) (by
            have hpos := List.length_pos_iff.mpr hne
            rw [tried]
            omega)
          cases err with
          | none => exact absurd hlast (h _)
          | some e =>
              refine ⟨e, hlast, ?_⟩
              simp only [tryToConnect, hloop, tried]

/-- **Errors of `ConnectTo`.** It reports what happens through its `Result`, and does not throw, if and only if
    the resolution fails or one of the attempts succeeds. -/
theorem connectTo_contract_iff (hW : ∀ T, (W T).Documented) :
    Contract resolver connect host port (connectTo W resolver connect host port).1
        (connectTo W resolver connect host port).2 ↔
      ∀ endpoints, resolver.async_resolve host (toString port) = (none, endpoints) →
        ∃ i, Accepted connect endpoints i := by
  constructor
  · intro hcontract endpoints hresolve
    by_contra hnone
    have hrefused := not_exists.mp hnone
    obtain ⟨e, -, htry⟩ := tryToConnect_of_refused (resolver.nonempty _ _ _ hresolve) hrefused
    obtain ⟨x, hx, -⟩ := (hW TcpSocket).unwrap_fail e
    obtain ⟨result, hreturns⟩ := hcontract.returns
    -- the failed `Result` is converted to a socket
    rw [connectTo_resolved hW hresolve, htry, hx] at hreturns
    cases hreturns
  · intro hsome
    cases hresolve : resolver.async_resolve host (toString port) with
    | mk code endpoints =>
        cases code with
        | some e =>
            rw [connectTo_unresolved hresolve]
            refine ⟨⟨_, rfl⟩, ?_, ?_, ?_⟩
            · intro e' endpoints' hresolve'
              cases hresolve.symm.trans hresolve'
              rfl
            · intro endpoints' i e' hresolve'
              cases hresolve.symm.trans hresolve'
            · intro endpoints' hresolve'
              cases hresolve.symm.trans hresolve'
        | none =>
            obtain ⟨i, hi⟩ := hsome endpoints hresolve
            obtain ⟨j, e, sock, he, hacc, hfirst, htry, hconnected⟩ := tryToConnect_of_accepted hi
            rw [connectTo_resolved hW hresolve, htry, (hW _).unwrap_ok]
            refine ⟨⟨_, rfl⟩, ?_, ?_, ?_⟩
            · intro e' endpoints' hresolve'
              cases hresolve.symm.trans hresolve'
            · intro endpoints' k e' hresolve' hk hacc' hfirst'
              cases hresolve.symm.trans hresolve'
              have heq : j = k := by
                rcases Nat.lt_trichotomy j k with hlt | heq | hlt
                · exact absurd hacc (hfirst' j hlt)
                · exact heq
                · exact absurd hacc' (hfirst k hlt)
              subst heq
              rw [he] at hk
              cases hk
              exact ⟨rfl, sock, rfl, hconnected⟩
            · intro endpoints' hresolve' hnone
              cases hresolve.symm.trans hresolve'
              exact absurd hi (hnone i)

/-- Every name has two endpoints. -/
def twoEndpoints : Resolver where
  async_resolve _ _ := (none, [⟨.v4, 0⟩, ⟨.v4, 1⟩])
  nonempty host port endpoints h := by
    cases h
    exact List.cons_ne_nil _ _

/-- Address 0 refuses. -/
def onlyOne : Connect := fun _ _ e => if e.address = 0 then some (.other 111) else none

/-- An endpoint that refuses and one that accepts: `ConnectTo` reports its success. -/
theorem connectTo_secondEndpoint :
    Contract twoEndpoints onlyOne "host" 80
      (connectTo (fun T => Wheels.exceptionPtr T ErrorCode) twoEndpoints onlyOne "host" 80).1
      (connectTo (fun T => Wheels.exceptionPtr T ErrorCode) twoEndpoints onlyOne "host" 80).2 := by
  apply (connectTo_contract_iff fun T => Wheels.exceptionPtr_documented T ErrorCode).mpr
  intro endpoints h
  cases h
  exact ⟨1, rfl⟩

/-- Two endpoints that refuse: `ConnectTo` throws. -/
theorem connectTo_throws :
    (connectTo (fun T => Wheels.exceptionPtr T ErrorCode) twoEndpoints (fun _ _ _ => some (.other 111)) "host" 80).1 =
        .error (.other 111) ∧
      ¬ Contract twoEndpoints (fun _ _ _ => some (.other 111)) "host" 80
        (connectTo (fun T => Wheels.exceptionPtr T ErrorCode) twoEndpoints (fun _ _ _ => some (.other 111)) "host" 80).1
        (connectTo (fun T => Wheels.exceptionPtr T ErrorCode) twoEndpoints (fun _ _ _ => some (.other 111)) "host" 80).2 := by
  refine ⟨rfl, ?_⟩
  intro hcontract
  obtain ⟨result, h⟩ := hcontract.returns
  cases h

end Errors

/-! ## Protocols -/

section Protocols

variable {connect : Connect} {accepts : Endpoint → Bool} {endpoints : List Endpoint} {e : Endpoint} {i : Nat}

/-- What `asio` documents of the attempts. `accepts` says which endpoints take a connection from a fresh socket
    of their own protocol; a socket that is open with another protocol cannot be connected to an endpoint. Of one
    that an attempt has left open with the protocol of the endpoint, nothing is documented. -/
structure Documented (connect : Connect) (accepts : Endpoint → Bool) : Prop where
  closed : ∀ i e, connect i none e = none ↔ accepts e = true
  other : ∀ i e p, p ≠ e.protocol → connect i (some p) e ≠ none

/-- If an endpoint of the list accepts, `TryToConnect` returns a socket that is connected to such an endpoint. -/
def Reaches (connect : Connect) (accepts : Endpoint → Bool) (endpoints : List Endpoint) : Prop :=
  (∃ e ∈ endpoints, accepts e = true) →
    ∃ sock e, (tryToConnect connect endpoints).1 = .ok sock ∧ sock.connected = some e ∧ e ∈ endpoints ∧ accepts e = true

/-- Behind the first endpoint, an attempt is made on the socket that is open with its protocol. Attempt number `i`, on
    `e`, is the first of these to succeed. -/
structure Reused (connect : Connect) (p : Protocol) (endpoints : List Endpoint) (i : Nat) (e : Endpoint) : Prop where
  behind : 0 < i
  endpoint : endpoints[i]? = some e
  succeeds : connect i (some p) e = none
  first : ∀ j e', 0 < j → j < i → endpoints[j]? = some e' → connect j (some p) e' ≠ none

theorem accepted_zero (h : Documented connect accepts) (hne : endpoints ≠ []) :
    Accepted connect endpoints 0 ↔ accepts (endpoints.head hne) = true := by
  rw [Accepted, attempt, ← List.head?_eq_getElem?, List.head?_eq_some_head hne, Option.map_some, Option.some_inj]
  exact h.closed 0 _

theorem accepted_behind (hne : endpoints ≠ []) (he : endpoints[i]? = some e) (hi : 0 < i) :
    Accepted connect endpoints i ↔ connect i (some (endpoints.head hne).protocol) e = none := by
  cases i with
  | zero => exact absurd hi (Nat.lt_irrefl 0)
  | succ i =>
      rw [Accepted, attempt, he, Option.map_some, Option.some_inj, openedAt, List.head?_eq_some_head hne, Option.map_some]

/-- The first attempt to succeed is on an endpoint that accepts. -/
theorem reaches_of_first (hi : Accepted connect endpoints i) (hfirst : ∀ j < i, ¬ Accepted connect endpoints j)
    (he : endpoints[i]? = some e) (hacc : accepts e = true) : Reaches connect accepts endpoints := by
  intro _
  obtain ⟨j, e', sock, he', hj, hfirst', htry, hconnected⟩ := tryToConnect_of_accepted hi
  have heq : j = i := by
    rcases Nat.lt_trichotomy j i with hlt | heq | hlt
    · exact absurd hj (hfirst j hlt)
    · exact heq
    · exact absurd hi (hfirst' i hlt)
  subst heq
  obtain rfl := Option.some.inj (he'.symm.trans he)
  refine ⟨sock, e', ?_, hconnected, List.mem_of_getElem? he', hacc⟩
  rw [htry]

/-- **Reachable endpoints.** `TryToConnect` reaches an endpoint that accepts if and only if the first endpoint of the list
    accepts, or the first of the others at which an attempt on the reused socket succeeds is one that accepts. That one
    has the protocol of the first endpoint. -/
theorem tryToConnect_reaches_iff (h : Documented connect accepts) (hne : endpoints ≠ []) :
    Reaches connect accepts endpoints ↔ ((∃ e ∈ endpoints, accepts e = true) →
      accepts (endpoints.head hne) = true ∨
        ∃ i e, Reused connect (endpoints.head hne).protocol endpoints i e ∧ accepts e = true ∧
          e.protocol = (endpoints.head hne).protocol) := by
  constructor
  · intro hreaches hsome
    obtain ⟨sock, e, hok, hconnected, -, hacc⟩ := hreaches hsome
    have haccepted : ∃ i, Accepted connect endpoints i := by
      by_contra hnone
      obtain ⟨code, -, htry⟩ := tryToConnect_of_refused hne (not_exists.mp hnone)
      rw [htry] at hok
      cases hok
    obtain ⟨i, hi⟩ := haccepted
    obtain ⟨j, e', sock', he', hj, hfirst, htry, hconnected'⟩ := tryToConnect_of_accepted hi
    rw [htry] at hok
    cases hok
    obtain rfl := Option.some.inj (hconnected'.symm.trans hconnected)
    rcases Nat.eq_zero_or_pos j with rfl | hpos
    · exact .inl ((accepted_zero h hne).mp hj)
    · have hsucceeds := (accepted_behind hne he' hpos).mp hj
      refine .inr ⟨j, e', ⟨hpos, he', hsucceeds, ?_⟩, hacc, ?_⟩
      · intro k e'' hk hkj he''
        exact fun hc => hfirst k hkj ((accepted_behind hne he'' hk).mpr hc)
      · by_contra hp
        exact h.other j e' _ (Ne.symm hp) hsucceeds
  · intro hcondition hsome
    have hhead : endpoints[0]? = some (endpoints.head hne) := by
      rw [← List.head?_eq_getElem?, List.head?_eq_some_head hne]
    by_cases hzero : accepts (endpoints.head hne) = true
    · have hfirst : ∀ j < 0, ¬ Accepted connect endpoints j := fun j hj => absurd hj (Nat.not_lt_zero j)
      exact reaches_of_first ((accepted_zero h hne).mpr hzero) hfirst hhead hzero hsome
    · obtain ⟨i, e, hreused, hacc, -⟩ := (hcondition hsome).resolve_left hzero
      refine reaches_of_first ((accepted_behind hne hreused.endpoint hreused.behind).mpr hreused.succeeds) ?_
        hreused.endpoint hacc hsome
      intro j hj haccepted
      rcases Nat.eq_zero_or_pos j with rfl | hpos
      · exact hzero ((accepted_zero h hne).mp haccepted)
      · obtain ⟨e', he', -⟩ := Option.map_eq_some_iff.mp haccepted
        exact hreused.first j e' hpos hj he' ((accepted_behind hne he' hpos).mp haccepted)

/-- The endpoints whose address is even accept. -/
def evenAddresses : Connect := fun _ opened e =>
  if e.address % 2 = 0 ∧ (opened = none ∨ opened = some e.protocol) then none else some (.other 97)

theorem evenAddresses_documented : Documented evenAddresses fun e => e.address % 2 = 0 where
  closed i e := by simp [evenAddresses]
  other i e p hp := by simp [evenAddresses, hp]

/-- The second endpoint has the protocol of the first one, the socket can be used again, and it is reached. -/
theorem tryToConnect_same_protocol :
    Reaches evenAddresses (fun e => e.address % 2 = 0) [⟨.v6, 1⟩, ⟨.v6, 2⟩] := by
  refine (tryToConnect_reaches_iff evenAddresses_documented (List.cons_ne_nil _ _)).mpr ?_
  intro _
  refine .inr ⟨1, ⟨.v6, 2⟩, ⟨by decide, rfl, by decide, fun j e' hj hj' => ?_⟩, by decide, rfl⟩
  omega

/-- The second endpoint accepts, and is not reached: the socket is open with the protocol of the first one. -/
theorem tryToConnect_other_protocol :
    Documented evenAddresses (fun e => e.address % 2 = 0) ∧
      (tryToConnect evenAddresses [⟨.v6, 1⟩, ⟨.v4, 2⟩]).1 = .fail (.other 97) ∧
      ¬ Reaches evenAddresses (fun e => e.address % 2 = 0) [⟨.v6, 1⟩, ⟨.v4, 2⟩] := by
  have hfail : (tryToConnect evenAddresses [⟨.v6, 1⟩, ⟨.v4, 2⟩]).1 = .fail (.other 97) := by decide
  refine ⟨evenAddresses_documented, hfail, ?_⟩
  intro hreaches
  obtain ⟨sock, e, hok, -⟩ := hreaches ⟨⟨.v4, 2⟩, by decide, by decide⟩
  rw [hfail] at hok
  cases hok

end Protocols

end Net
end Tpcc
