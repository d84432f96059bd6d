import Mathlib.Data.List.Perm.Basic
import Tpcc.Support.LinkedList
import Tpcc.Transition.System

/-!
# `Executors.LockFreeStack` — a stack that uses its nodes again

`LockFreeStack` with its `LFPointersPool`, one load or compare-exchange at a time. `Push` takes a node from the
pool and puts it on the stack, `Pop` takes a node from the stack and puts it into the pool: the two loops are
the same, on `pool_.head_` and on `head_`. Nodes stay allocated, and come back under the same address. The
destructors and `ExchangeWithAnother` are left out.

Two steps go wrong. `Push` asks the pool whether it is empty, and then takes a node without looking whether it
got one. And the compare-exchange that takes a node compares its address alone, so it also succeeds when the
node has been away meanwhile and `next`, read before, is that of another list.

## Contents
- **The machine.** `State`, `next`, and the condition `careful` on its steps.
- **Ownership.** `Place`: each address is in one list, or belongs to one thread, or is fresh. `InvAt` and its
  steps.
- **Careful runs.** `stack_correct`, and runs that are not.
-/

namespace Tpcc
namespace Executors
namespace LockFreeStack

open Transition

/-! ## The machine -/

abbrev Addr := Nat

abbrev ThreadId := Nat

variable {E : Type}

/-- `StackNode`. `data` is `none` where it has been moved from, or not been written. -/
structure StackNode (E : Type) where
  data : Option E := none
  next : Option Addr := none

/-- `LockFreeStack::head_` and `LFPointersPool::head_`. -/
inductive Head where
  | stack
  | pool
  deriving DecidableEq

/-- A call of `Push` or `Pop`. -/
inductive Call (E : Type) where
  | push (elem : E)
  | pop

/-- The list that the call takes a node from. -/
def Call.source : Call E → Head
  | .push _ => .pool
  | .pop => .stack

/-- The list that the call puts a node on. -/
def Call.target : Call E → Head
  | .push _ => .stack
  | .pop => .pool

/-- The next operation of a thread. -/
inductive Pc (E : Type) where
  /-- No call. -/
  | idle
  /-- `Push`: `pool_.IsEmpty()`. -/
  | isEmpty (elem : E)
  /-- `Push`: `new StackNode<T>`. -/
  | new (elem : E)
  /-- `node_to_delete = head_`. -/
  | load (call : Call E)
  /-- `node_to_delete->next`, an argument of the compare-exchange. -/
  | next (call : Call E) (node_to_delete : Addr)
  /-- The compare-exchange of `node_to_delete` for `next`. -/
  | take (call : Call E) (node_to_delete : Addr) (next : Option Addr)
  /-- `Push`: `new_node->data = std::move(elem)`. -/
  | data (elem : E) (new_node : Option Addr)
  /-- `Pop`: `result = std::move(node_to_delete->data)`. -/
  | move (node_to_delete : Addr) (result : Option E)
  /-- `new_node->next = head_`. -/
  | link (call : Call E) (new_node : Addr)
  /-- The compare-exchange of `new_node->next` for `new_node`. -/
  | put (call : Call E) (new_node : Addr)

/-- A `LockFreeStack`, the nodes, and the threads. `pushed` and `popped` record the elements whose
    compare-exchange on `head_` has succeeded. -/
structure State (E : Type) where
  heap : Addr → StackNode E := fun _ => {}
  allocated : List Addr := []
  head_ : Head → Option Addr := fun _ => none
  threads : ThreadId → Pc E := fun _ => .idle
  pushed : List E := []
  popped : List (Option E) := []

/-- Thread `t` goes on with `pc`. -/
def State.goOn (s : State E) (t : ThreadId) (pc : Pc E) : State E :=
  { s with threads := Function.update s.threads t pc }

@[simp] theorem State.goOn_self (s : State E) (t : ThreadId) (pc : Pc E) : (s.goOn t pc).threads t = pc :=
  Function.update_self ..

theorem State.goOn_of_ne (s : State E) {t t' : ThreadId} (pc : Pc E) (h : t' ≠ t) :
    (s.goOn t pc).threads t' = s.threads t' := Function.update_of_ne h ..

def State.write (s : State E) (node : Addr) (cell : StackNode E) : State E :=
  { s with heap := Function.update s.heap node cell }

def State.setHead (s : State E) (head : Head) (node : Option Addr) : State E :=
  { s with head_ := Function.update s.head_ head node }

/-- `LFPointersPool::Pop` returns `{nullptr}` to `Push`, and `Pop` returns an empty result. -/
def Call.nothing : Call E → Pc E
  | .push elem => .data elem none
  | .pop => .idle

/-- The call has taken `node`. -/
def State.taken (s : State E) (t : ThreadId) (node : Addr) (next : Option Addr) : Call E → State E
  | .push elem => (s.setHead .pool next).goOn t (.data elem (some node))
  | .pop =>
      ({ s with popped := s.popped ++ [(s.heap node).data] }.setHead .stack next).goOn t
        (.move node (s.heap node).data)

/-- The call has put `node` on its list, and returns. -/
def State.returned (s : State E) (t : ThreadId) (node : Addr) : Call E → State E
  | .push elem => ({ s with pushed := s.pushed ++ [elem] }.setHead .stack (some node)).goOn t .idle
  | .pop => (s.setHead .pool (some node)).goOn t .idle

/-- Thread `t` takes a step. -/
def State.step (s : State E) (t : ThreadId) : Option (State E) :=
  match s.threads t with
  | .idle => none
  | .isEmpty elem => some (s.goOn t (if (s.head_ .pool).isNone then .new elem else .load (.push elem)))
  | .new _ => none
  | .load call =>
      match s.head_ call.source with
      | none => some (s.goOn t call.nothing)
      | some node => some (s.goOn t (.next call node))
  | .next call node => some (s.goOn t (.take call node (s.heap node).next))
  | .take call node next =>
      if s.head_ call.source = some node then some (s.taken t node next call)
      else some (s.goOn t (.load call))
  -- the null pointer is dereferenced
  | .data _ none => none
  | .data elem (some node) =>
      some ((s.write node { s.heap node with data := some elem }).goOn t (.link (.push elem) node))
  | .move node _ => some ((s.write node { s.heap node with data := none }).goOn t (.link .pop node))
  | .link call node =>
      some ((s.write node { s.heap node with next := s.head_ call.target }).goOn t (.put call node))
  | .put call node =>
      if s.head_ call.target = (s.heap node).next then some (s.returned t node call)
      -- `new_node->next` has been passed by reference
      else some ((s.write node { s.heap node with next := s.head_ call.target }).goOn t (.link call node))

/-- Thread `t` calls `Push` or `Pop`, allocates its node at an address that is free, or takes a step. -/
inductive Action (E : Type) where
  | push (t : ThreadId) (elem : E)
  | pop (t : ThreadId)
  | new (t : ThreadId) (addr : Addr)
  | step (t : ThreadId)

def next (s : State E) : Action E → Option (State E)
  | .push t elem =>
      match s.threads t with
      | .idle => some (s.goOn t (.isEmpty elem))
      | _ => none
  | .pop t =>
      match s.threads t with
      | .idle => some (s.goOn t (.load .pop))
      | _ => none
  | .new t addr =>
      match s.threads t with
      | .new elem =>
          if addr ∈ s.allocated then none
          else some ({ s with allocated := addr :: s.allocated }.goOn t (.data elem (some addr)))
      | _ => none
  | .step t => s.step t

/-- When `Push` takes from the pool, the pool is not empty; a compare-exchange that takes a node writes the
    pointer that the node holds. -/
def careful (s : State E) : Action E → Bool
  | .step t =>
      match s.threads t with
      | .load (.push _) => (s.head_ .pool).isSome
      | .take call node next => decide (s.head_ call.source = some node → (s.heap node).next = next)
      | _ => true
  | _ => true

/-- The runs all of whose steps meet `ok`. -/
def system (ok : State E → Action E → Bool) : System (State E) :=
  System.ofNextIf {} next fun s a => ok s a = true

/-- Node `a` is reachable from `head`. -/
def State.Reaches (s : State E) (head : Head) (a : Addr) : Prop :=
  Tpcc.Reaches (fun b => (s.heap b).next) (s.head_ head) a

/-! ## Ownership -/

/-- The node that belongs to the thread alone. -/
def Pc.node : Pc E → Option Addr
  | .data _ new_node => new_node
  | .move node_to_delete _ => some node_to_delete
  | .link _ new_node => some new_node
  | .put _ new_node => some new_node
  | _ => none

/-- What is in that node. -/
def Pc.carries : Pc E → Option (Addr × Option E)
  | .move node_to_delete result => some (node_to_delete, result)
  | .link (.push elem) new_node => some (new_node, some elem)
  | .put (.push elem) new_node => some (new_node, some elem)
  | _ => none

theorem Pc.node_of_carries {pc : Pc E} {node : Addr} {x : Option E} (h : pc.carries = some (node, x)) :
    pc.node = some node := by
  unfold Pc.carries at h
  split at h <;> cases h <;> rfl

theorem Pc.carries_put (call : Call E) (node : Addr) : (Pc.put call node).carries = (Pc.link call node).carries := by
  cases call with
  | push elem => rfl
  | pop => rfl

/-- Where an address is. -/
inductive Place where
  | fresh
  | list (head : Head)
  | thread (t : ThreadId)

variable {s s' : State E} {t : ThreadId} {a : Addr} {pc : Pc E} {place : Addr → Place} {nodes : Head → List Addr}

/-- The addresses are where `place` says, and the lists consist of `nodes`. -/
structure InvAt (s : State E) (place : Addr → Place) (nodes : Head → List Addr) : Prop where
  linked : ∀ head, Linked (fun a => (s.heap a).next) (s.head_ head) (nodes head)
  listed : ∀ head a, a ∈ nodes head ↔ place a = .list head
  held : ∀ t a, (s.threads t).node = some a ↔ place a = .thread t
  allocated : ∀ a, a ∈ s.allocated ↔ place a ≠ .fresh
  carried : ∀ t a x, (s.threads t).carries = some (a, x) → (s.heap a).data = x
  notNull : ∀ t elem, s.threads t ≠ .data elem none
  elements : (s.popped ++ (nodes .stack).map fun a => (s.heap a).data).Perm (s.pushed.map some)

def Inv (s : State E) : Prop := ∃ place nodes, InvAt s place nodes

section Update

variable {threads : ThreadId → Pc E} {p : Place}

/-- Thread `t` goes on, and the address that it takes, makes or gives away is now in place `p`. -/
theorem held_update (hheld : ∀ t b, (threads t).node = some b ↔ place b = .thread t)
    (hself : ∀ b, pc.node = some b ↔ Function.update place a p b = .thread t)
    (hbefore : ∀ t', t' ≠ t → place a ≠ .thread t') (hafter : ∀ t', t' ≠ t → p ≠ .thread t') (t' : ThreadId)
    (b : Addr) : (Function.update threads t pc t').node = some b ↔ Function.update place a p b = .thread t' := by
  by_cases ht : t' = t
  · rw [ht, Function.update_self]
    exact hself b
  · rw [Function.update_of_ne ht, hheld t' b]
    by_cases hb : b = a
    · rw [hb, Function.update_self]
      exact iff_of_false (hbefore t' ht) (hafter t' ht)
    · rw [Function.update_of_ne hb]

/-- Thread `t` gets address `a`, which was with no thread. -/
theorem held_gain (hheld : ∀ t b, (threads t).node = some b ↔ place b = .thread t) (hnone : (threads t).node = none)
    (hnode : pc.node = some a) (hplace : ∀ t', place a ≠ .thread t') (t' : ThreadId) (b : Addr) :
    (Function.update threads t pc t').node = some b ↔ Function.update place a (.thread t) b = .thread t' := by
  refine held_update hheld ?_ (fun t' _ => hplace t') ?_ t' b
  · intro b
    by_cases hb : b = a
    · rw [hb, Function.update_self]
      exact iff_of_true hnode rfl
    · rw [Function.update_of_ne hb, ← hheld t b, hnone, hnode]
      exact iff_of_false (fun heq => hb (Option.some.inj heq).symm) (Option.some_ne_none b).symm
  · intro t' ht heq
    exact ht (Place.thread.inj heq).symm

theorem held_keep (hheld : ∀ t b, (threads t).node = some b ↔ place b = .thread t)
    (hself : pc.node = (threads t).node) (t' : ThreadId) (b : Addr) :
    (Function.update threads t pc t').node = some b ↔ place b = .thread t' := by
  by_cases ht : t' = t
  · rw [ht, Function.update_self, hself]
    exact hheld t b
  · rw [Function.update_of_ne ht]
    exact hheld t' b

theorem carried_update {heap : Addr → StackNode E}
    (hcarried : ∀ t b x, (threads t).carries = some (b, x) → (heap b).data = x)
    (hself : ∀ b x, pc.carries = some (b, x) → (heap b).data = x) (t' : ThreadId) (b : Addr) (x : Option E)
    (h : (Function.update threads t pc t').carries = some (b, x)) : (heap b).data = x := by
  by_cases ht : t' = t
  · rw [ht, Function.update_self] at h
    exact hself b x h
  · rw [Function.update_of_ne ht] at h
    exact hcarried t' b x h

theorem notNull_update (hnotNull : ∀ t elem, threads t ≠ .data elem none) (hself : ∀ elem, pc ≠ .data elem none)
    (t' : ThreadId) (elem : E) : Function.update threads t pc t' ≠ .data elem none := by
  by_cases ht : t' = t
  · rw [ht, Function.update_self]
    exact hself elem
  · rw [Function.update_of_ne ht]
    exact hnotNull t' elem

end Update

theorem InvAt.goOn (h : InvAt s place nodes) (hheld : (s.threads t).node = none) (hnode : pc.node = none)
    (hnotNull : ∀ elem, pc ≠ .data elem none) : InvAt (s.goOn t pc) place nodes where
  linked := h.linked
  listed := h.listed
  held := held_keep h.held (hnode.trans hheld.symm)
  allocated := h.allocated
  carried := carried_update h.carried fun b _ hx =>
    absurd (hnode.symm.trans (Pc.node_of_carries hx)) (Option.some_ne_none b).symm
  notNull := notNull_update h.notNull hnotNull
  elements := h.elements

/-- Thread `t` writes to the node that belongs to it. -/
theorem InvAt.write (h : InvAt s place nodes) {cell : StackNode E} (hheld : (s.threads t).node = some a)
    (hnode : pc.node = some a) (hcarries : ∀ x, pc.carries = some (a, x) → cell.data = x)
    (hnotNull : ∀ elem, pc ≠ .data elem none) : InvAt ((s.write a cell).goOn t pc) place nodes := by
  have hplace := (h.held t a).mp hheld
  have hunlisted : ∀ head, ∀ b ∈ nodes head, b ≠ a := by
    rintro head b hb rfl
    have hlist := (h.listed head b).mp hb
    rw [hplace] at hlist
    cases hlist
  have hcell : ∀ b, b ≠ a → (s.write a cell).heap b = s.heap b := by
    intro b hb
    show Function.update s.heap a cell b = s.heap b
    rw [Function.update_of_ne hb]
  refine ⟨?_, h.listed, held_keep h.held (hnode.trans hheld.symm), h.allocated, ?_,
    notNull_update h.notNull hnotNull, ?_⟩
  · intro head
    refine (h.linked head).congr fun b hb => ?_
    exact congrArg StackNode.next (hcell b (hunlisted head b hb))
  · intro t' b x hx
    by_cases ht : t' = t
    · replace hx : pc.carries = some (b, x) := by
        rwa [ht, State.goOn_self] at hx
      obtain rfl := Option.some.inj (hnode.symm.trans (Pc.node_of_carries hx))
      show (Function.update s.heap a cell a).data = x
      rw [Function.update_self]
      exact hcarries x hx
    · replace hx : (s.threads t').carries = some (b, x) := by
        rwa [State.goOn_of_ne _ pc ht] at hx
      have hb : b ≠ a := by
        rintro rfl
        have hother := (h.held t' b).mp (Pc.node_of_carries hx)
        rw [hplace] at hother
        exact ht (Place.thread.inj hother).symm
      show ((s.write a cell).heap b).data = x
      rw [hcell b hb]
      exact h.carried t' b x hx
  · have hmap : (nodes .stack).map (fun b => ((s.write a cell).heap b).data) =
        (nodes .stack).map fun b => (s.heap b).data := by
      refine List.map_congr_left fun b hb => ?_
      exact congrArg StackNode.data (hcell b (hunlisted .stack b hb))
    show (s.popped ++ (nodes .stack).map fun b => ((s.write a cell).heap b).data).Perm _
    rw [hmap]
    exact h.elements

/-- Thread `t` allocates a node. -/
theorem InvAt.new (h : InvAt s place nodes) (hheld : (s.threads t).node = none) (ha : a ∉ s.allocated) (elem : E) :
    InvAt ({ s with allocated := a :: s.allocated }.goOn t (.data elem (some a)))
      (Function.update place a (.thread t)) nodes := by
  have hplace : place a = .fresh := by
    by_contra hne
    exact ha ((h.allocated a).mpr hne)
  refine ⟨h.linked, ?_, held_gain h.held hheld rfl ?_, ?_, ?_, ?_, h.elements⟩
  · intro head b
    by_cases hb : b = a
    · rw [hb, Function.update_self, h.listed head a, hplace]
      exact iff_of_false Place.noConfusion Place.noConfusion
    · rw [Function.update_of_ne hb, h.listed head b]
  · intro t'
    rw [hplace]
    exact Place.noConfusion
  · intro b
    show b ∈ a :: s.allocated ↔ _
    by_cases hb : b = a
    · rw [hb, Function.update_self]
      exact iff_of_true List.mem_cons_self Place.noConfusion
    · rw [Function.update_of_ne hb, ← h.allocated b, List.mem_cons]
      exact or_iff_right hb
  · exact carried_update h.carried fun b x hx => absurd hx (Option.some_ne_none _).symm
  · exact notNull_update h.notNull fun elem' heq => absurd (Pc.data.inj heq).2 (Option.some_ne_none a)

section Exchange

variable {head : Head} {rest : List Addr}

theorem listed_take (hlisted : ∀ head b, b ∈ nodes head ↔ place b = .list head) (hnodes : nodes head = a :: rest)
    (hnodup : (nodes head).Nodup) (other : Head) (b : Addr) : b ∈ Function.update nodes head rest other ↔
      Function.update place a (.thread t) b = .list other := by
  have ha : place a = .list head := (hlisted head a).mp (hnodes ▸ List.mem_cons_self)
  rw [hnodes, List.nodup_cons] at hnodup
  by_cases hother : other = head
  · rw [hother, Function.update_self]
    by_cases hb : b = a
    · rw [hb, Function.update_self]
      exact iff_of_false hnodup.1 Place.noConfusion
    · rw [Function.update_of_ne hb, ← hlisted head b, hnodes, List.mem_cons]
      exact (or_iff_right hb).symm
  · rw [Function.update_of_ne hother, hlisted other b]
    by_cases hb : b = a
    · rw [hb, Function.update_self, ha]
      refine iff_of_false ?_ Place.noConfusion
      intro heq
      exact hother (Place.list.inj heq).symm
    · rw [Function.update_of_ne hb]

theorem listed_put (hlisted : ∀ head b, b ∈ nodes head ↔ place b = .list head) (ha : place a = .thread t)
    (other : Head) (b : Addr) : b ∈ Function.update nodes head (a :: nodes head) other ↔
      Function.update place a (.list head) b = .list other := by
  by_cases hother : other = head
  · rw [hother, Function.update_self, List.mem_cons]
    by_cases hb : b = a
    · rw [hb, Function.update_self]
      exact iff_of_true (.inl rfl) rfl
    · rw [Function.update_of_ne hb, ← hlisted head b]
      exact or_iff_right hb
  · rw [Function.update_of_ne hother, hlisted other b]
    by_cases hb : b = a
    · rw [hb, Function.update_self, ha]
      refine iff_of_false Place.noConfusion ?_
      intro heq
      exact hother (Place.list.inj heq).symm
    · rw [Function.update_of_ne hb]

theorem allocated_update {allocated : List Addr} {p : Place} (hallocated : ∀ b, b ∈ allocated ↔ place b ≠ .fresh)
    (ha : place a ≠ .fresh) (hp : p ≠ .fresh) (b : Addr) :
    b ∈ allocated ↔ Function.update place a p b ≠ .fresh := by
  by_cases hb : b = a
  · rw [hb, Function.update_self, hallocated a]
    exact iff_of_true ha hp
  · rw [Function.update_of_ne hb, hallocated b]

theorem linked_update (hlinked : ∀ head, Linked (fun a => (s.heap a).next) (s.head_ head) (nodes head))
    {p : Option Addr} {l : List Addr} (hself : Linked (fun a => (s.heap a).next) p l) (other : Head) :
    Linked (fun a => (s.heap a).next) (Function.update s.head_ head p other) (Function.update nodes head l other) := by
  by_cases hother : other = head
  · rw [hother, Function.update_self, Function.update_self]
    exact hself
  · rw [Function.update_of_ne hother, Function.update_of_ne hother]
    exact hlinked other

/-- Thread `t` takes node `a` from a list. -/
theorem InvAt.take (h : InvAt s place nodes) (hheld : (s.threads t).node = none) (hnodes : nodes head = a :: rest)
    (hnode : pc.node = some a) (hcarries : ∀ b x, pc.carries = some (b, x) → (s.heap b).data = x)
    (hnotNull : ∀ elem, pc ≠ .data elem none) {popped : List (Option E)}
    (helements : (popped ++ (Function.update nodes head rest .stack).map fun a => (s.heap a).data).Perm
      (s.pushed.map some)) : Inv (({ s with popped := popped }.setHead head (s.heap a).next).goOn t pc) := by
  have hlinked := h.linked head
  have ha : place a = .list head := (h.listed head a).mp (hnodes ▸ List.mem_cons_self)
  refine ⟨Function.update place a (.thread t), Function.update nodes head rest, ?_, ?_, held_gain h.held hheld hnode ?_,
    allocated_update h.allocated ?_ Place.noConfusion, carried_update h.carried hcarries, notNull_update h.notNull hnotNull, helements⟩
  · rw [hnodes] at hlinked
    exact linked_update h.linked hlinked.2
  · exact listed_take h.listed hnodes hlinked.nodup
  · intro t'
    rw [ha]
    exact Place.noConfusion
  · rw [ha]
    exact Place.noConfusion

/-- Thread `t` puts node `a` on a list, and returns. -/
theorem InvAt.put (h : InvAt s place nodes) (hheld : (s.threads t).node = some a)
    (hnext : s.head_ head = (s.heap a).next) {pushed : List E}
    (helements : (s.popped ++ (Function.update nodes head (a :: nodes head) .stack).map fun a => (s.heap a).data).Perm
      (pushed.map some)) : Inv (({ s with pushed := pushed }.setHead head (some a)).goOn t .idle) := by
  have ha : place a = .thread t := (h.held t a).mp hheld
  refine ⟨Function.update place a (.list head), Function.update nodes head (a :: nodes head), ?_, ?_,
    held_update h.held ?_ ?_ ?_, allocated_update h.allocated ?_ Place.noConfusion, carried_update h.carried nofun,
    notNull_update h.notNull nofun, helements⟩
  · refine linked_update h.linked ⟨rfl, ?_⟩
    show Linked _ (s.heap a).next (nodes head)
    rw [← hnext]
    exact h.linked head
  · exact listed_put h.listed ha
  · intro b
    by_cases hb : b = a
    · rw [hb, Function.update_self]
      exact iff_of_false (Option.some_ne_none a).symm Place.noConfusion
    · rw [Function.update_of_ne hb, ← h.held t b, hheld]
      exact iff_of_false (Option.some_ne_none b).symm fun heq => hb (Option.some.inj heq).symm
  · intro t' ht heq
    rw [ha] at heq
    exact ht (Place.thread.inj heq).symm
  · intro t' _
    exact Place.noConfusion
  · rw [ha]
    exact Place.noConfusion

end Exchange

/-! ## Careful runs -/

theorem InvAt.taken (h : InvAt s place nodes) {call : Call E} (hheld : (s.threads t).node = none)
    (hhead : s.head_ call.source = some a) : Inv (s.taken t a (s.heap a).next call) := by
  have hlinked := h.linked call.source
  rw [hhead] at hlinked
  obtain ⟨rest, hnodes, -⟩ := hlinked.exists_cons
  cases call with
  | push elem =>
      replace hnodes : nodes .pool = a :: rest := hnodes
      refine h.take hheld hnodes rfl ?_ ?_ h.elements
      · nofun
      · nofun
  | pop =>
      replace hnodes : nodes .stack = a :: rest := hnodes
      refine h.take hheld hnodes rfl ?_ ?_ ?_
      · intro b x hx
        cases hx
        rfl
      · nofun
      · have helements := h.elements
        rw [hnodes] at helements
        rw [Function.update_self, List.append_assoc]
        exact helements

theorem InvAt.returned (h : InvAt s place nodes) {call : Call E} (hpc : s.threads t = .put call a)
    (hnext : s.head_ call.target = (s.heap a).next) : Inv (s.returned t a call) := by
  have hheld : (s.threads t).node = some a := by
    rw [hpc]
    rfl
  cases call with
  | push elem =>
      have hdata : (s.heap a).data = some elem := by
        apply h.carried t
        rw [hpc]
        rfl
      replace hnext : s.head_ .stack = (s.heap a).next := hnext
      refine h.put hheld hnext ?_
      rw [Function.update_self, List.map_cons, hdata, List.map_append]
      refine List.perm_middle.trans ?_
      exact (h.elements.cons (some elem)).trans (List.perm_append_singleton (some elem) _).symm
  | pop =>
      replace hnext : s.head_ .pool = (s.heap a).next := hnext
      exact h.put hheld hnext h.elements

/-- **A careful step keeps the lists apart.** -/
theorem InvAt.step (h : InvAt s place nodes) (hcareful : careful s (.step t) = true) (hstep : s.step t = some s') :
    Inv s' := by
  simp only [State.step] at hstep
  simp only [careful] at hcareful
  cases hpc : s.threads t with
  | idle =>
      rw [hpc] at hstep
      cases hstep
  | isEmpty elem =>
      have hheld : (s.threads t).node = none := congrArg Pc.node hpc
      rw [hpc] at hstep
      cases hstep
      split
      · exact ⟨place, nodes, h.goOn hheld rfl nofun⟩
      · exact ⟨place, nodes, h.goOn hheld rfl nofun⟩
  | new elem =>
      rw [hpc] at hstep
      cases hstep
  | load call =>
      have hheld : (s.threads t).node = none := congrArg Pc.node hpc
      rw [hpc] at hstep hcareful
      simp only at hstep
      split at hstep
      · next hnone =>
          cases hstep
          cases call with
          | push elem =>
              -- the pool was not empty
              replace hnone : s.head_ .pool = none := hnone
              rw [hnone] at hcareful
              cases hcareful
          | pop => exact ⟨place, nodes, h.goOn hheld rfl nofun⟩
      · cases hstep
        exact ⟨place, nodes, h.goOn hheld rfl nofun⟩
  | next call node =>
      have hheld : (s.threads t).node = none := congrArg Pc.node hpc
      rw [hpc] at hstep
      cases hstep
      exact ⟨place, nodes, h.goOn hheld rfl nofun⟩
  | take call node next =>
      have hheld : (s.threads t).node = none := congrArg Pc.node hpc
      rw [hpc] at hstep hcareful
      simp only at hstep
      split at hstep
      · next hhead =>
          cases hstep
          have hnext := of_decide_eq_true hcareful hhead
          rw [← hnext]
          exact h.taken hheld hhead
      · cases hstep
        exact ⟨place, nodes, h.goOn hheld rfl nofun⟩
  | data elem new_node =>
      cases new_node with
      | none => exact absurd hpc (h.notNull t elem)
      | some node =>
          have hheld : (s.threads t).node = some node := congrArg Pc.node hpc
          rw [hpc] at hstep
          cases hstep
          refine ⟨place, nodes, h.write hheld rfl ?_ nofun⟩
          intro x hx
          cases hx
          rfl
  | move node result =>
      have hheld : (s.threads t).node = some node := congrArg Pc.node hpc
      rw [hpc] at hstep
      cases hstep
      exact ⟨place, nodes, h.write hheld rfl nofun nofun⟩
  | link call node =>
      have hheld : (s.threads t).node = some node := congrArg Pc.node hpc
      have hcarried := h.carried t node
      rw [hpc] at hstep hcarried
      cases hstep
      refine ⟨place, nodes, h.write hheld rfl ?_ nofun⟩
      intro x hx
      rw [Pc.carries_put] at hx
      exact hcarried x hx
  | put call node =>
      have hheld : (s.threads t).node = some node := congrArg Pc.node hpc
      have hcarried := h.carried t node
      rw [hpc, Pc.carries_put] at hcarried
      rw [hpc] at hstep
      simp only at hstep
      split at hstep
      · next hnext =>
          cases hstep
          exact h.returned hpc hnext
      · cases hstep
        refine ⟨place, nodes, h.write hheld rfl ?_ nofun⟩
        intro x hx
        exact hcarried x hx

theorem Inv.init : Inv ({} : State E) := by
  refine ⟨fun _ => .fresh, fun _ => [], fun _ => rfl, ?_, ?_, ?_, ?_, ?_, List.Perm.refl _⟩
  · intro head a
    exact iff_of_false List.not_mem_nil Place.noConfusion
  · intro t a
    exact iff_of_false (Option.some_ne_none a).symm Place.noConfusion
  · intro a
    exact iff_of_false List.not_mem_nil (not_not.mpr rfl)
  · intro t a x hx
    cases hx
  · intro t elem heq
    cases heq

theorem Inv.next {action : Action E} (h : Inv s) (hcareful : careful s action = true)
    (hnext : next s action = some s') : Inv s' := by
  obtain ⟨place, nodes, h⟩ := h
  cases action with
  | push t elem =>
      simp only [LockFreeStack.next] at hnext
      split at hnext
      · next hpc =>
          cases hnext
          exact ⟨place, nodes, h.goOn (congrArg Pc.node hpc) rfl nofun⟩
      · cases hnext
  | pop t =>
      simp only [LockFreeStack.next] at hnext
      split at hnext
      · next hpc =>
          cases hnext
          exact ⟨place, nodes, h.goOn (congrArg Pc.node hpc) rfl nofun⟩
      · cases hnext
  | new t addr =>
      simp only [LockFreeStack.next] at hnext
      split at hnext
      · next elem hpc =>
          split at hnext
          · cases hnext
          · next haddr =>
              cases hnext
              exact ⟨_, nodes, h.new (congrArg Pc.node hpc) haddr elem⟩
      · cases hnext
  | step t => exact h.step hcareful hnext

theorem reachable_inv (h : (system careful).Reachable s) : Inv s := by
  refine h.invariant ?_ ?_
  · rintro s rfl
    exact .init
  · rintro s s' hinv ⟨action, hcareful, hnext⟩
    exact hinv.next hcareful hnext

/-- What is promised of the stack. -/
structure Correct (s : State E) : Prop where
  notNull : ∀ t elem, s.threads t ≠ .data elem none
  apart : ∀ a, ¬ (s.Reaches .stack a ∧ s.Reaches .pool a)
  owned : ∀ t a, (s.threads t).node = some a → ∀ head, ¬ s.Reaches head a
  /-- What a call of `Pop` moves out of its node is what it has popped. -/
  result : ∀ t a x, s.threads t = .move a x → (s.heap a).data = x
  elements : ∃ nodes : List Addr, nodes.Nodup ∧ (∀ a, a ∈ nodes ↔ s.Reaches .stack a) ∧
    (s.popped ++ nodes.map fun a => (s.heap a).data).Perm (s.pushed.map some)

theorem InvAt.reaches_iff (h : InvAt s place nodes) (head : Head) : s.Reaches head a ↔ place a = .list head := by
  rw [← h.listed]
  exact (h.linked head).mem_iff.symm

/-- **The stack is correct along careful runs.** -/
theorem stack_correct (h : (system careful).Reachable s) : Correct s := by
  obtain ⟨place, nodes, h⟩ := reachable_inv h
  refine ⟨h.notNull, ?_, ?_, ?_, nodes .stack, (h.linked .stack).nodup, fun a => (h.linked .stack).mem_iff, h.elements⟩
  · rintro a ⟨hstack, hpool⟩
    rw [h.reaches_iff] at hstack hpool
    rw [hstack] at hpool
    cases hpool
  · intro t a hheld head hreach
    rw [h.held] at hheld
    rw [h.reaches_iff, hheld] at hreach
    cases hreach
  · intro t a x hpc
    apply h.carried t
    rw [hpc]
    rfl

section Runs

open LockFreeStack.Action

/-- `Push` of a stack with an empty pool, into a node at `addr`. -/
def pushes (t : ThreadId) (elem : Nat) (addr : Addr) : List (Action Nat) :=
  [push t elem, step t, new t addr, step t, step t, step t]

/-- `Push` into the first node of the pool, up to the exchange that takes the node. -/
def reuses (t : ThreadId) (elem : Nat) : List (Action Nat) := [push t elem, step t, step t, step t, step t]

/-- `Pop` of a stack that is not empty. -/
def pops (t : ThreadId) : List (Action Nat) := pop t :: List.replicate 6 (step t)

/-- Thread 1 pushes between two loads of a `Pop`, and then uses the node that was popped. -/
def overlap : List (Action Nat) :=
  pushes 0 10 0 ++ [push 1 20, step 1, pop 0, step 0, step 0, new 1 1, step 1, step 1, step 1] ++
    List.replicate 7 (step 0) ++ reuses 1 30

theorem stack_correct_overlap : ∃ s : State Nat, (system careful).Reachable s ∧ s.pushed = [10, 20] ∧
    s.popped = [some 20] ∧ s.head_ .stack = some 0 ∧ (s.threads 1).node = some 1 ∧ Correct s := by
  have hrun : ∃ s : State Nat, System.runWhile careful next {} overlap = some s ∧ s.pushed = [10, 20] ∧
      s.popped = [some 20] ∧ s.head_ .stack = some 0 ∧ (s.threads 1).node = some 1 := ⟨_, rfl, rfl, rfl, rfl, rfl⟩
  obtain ⟨s, hs, hpushed, hpopped, hhead, hnode⟩ := hrun
  have hreach : (system careful).Reachable s := ⟨_, rfl, System.steps_of_runWhile (fun _ _ hok => hok) hs⟩
  exact ⟨s, hreach, hpushed, hpopped, hhead, hnode, stack_correct hreach⟩

/-- The pool has one node. Thread 1 finds it not empty, and thread 0 takes the node. -/
def emptied : List (Action Nat) :=
  pushes 0 1 0 ++ pops 0 ++ [push 1 3, step 1] ++ reuses 0 2 ++ [step 1]

/-- Thread 1 pops, and has read that node 1 comes after node 0. Thread 2 pops both, thread 3 takes node 1 for a
    `Push`, thread 2 pushes node 0 again: the exchange of thread 1 succeeds. -/
def recycled : List (Action Nat) :=
  pushes 0 20 1 ++ pushes 0 10 0 ++ [pop 1, step 1, step 1] ++ pops 2 ++ pops 2 ++ reuses 3 30 ++ reuses 2 40 ++
    [step 2, step 2, step 2, step 1]

/-- A `Push` is left without a node. A `Push` owns a node that is on the stack, from which everything has been
    popped already. -/
theorem stack_not_correct :
    (∃ s : State Nat, (system fun _ _ => true).Reachable s ∧ s.threads 1 = .data 3 none) ∧
      ∃ s : State Nat, (system fun _ _ => true).Reachable s ∧ (s.threads 3).node = some 1 ∧ s.Reaches .stack 1 ∧
        s.pushed = [20, 10, 40] ∧ s.popped = [some 10, some 20, some 40] := by
  have hemptied : ∃ s : State Nat, System.runWhile (fun _ _ => true) next {} emptied = some s ∧
      s.threads 1 = .data 3 none := ⟨_, rfl, rfl⟩
  have hrecycled : ∃ s : State Nat, System.runWhile (fun _ _ => true) next {} recycled = some s ∧
      (s.threads 3).node = some 1 ∧ s.head_ .stack = some 1 ∧ s.pushed = [20, 10, 40] ∧
      s.popped = [some 10, some 20, some 40] := ⟨_, rfl, rfl, rfl, rfl, rfl⟩
  constructor
  · obtain ⟨s, hs, hnull⟩ := hemptied
    exact ⟨s, ⟨_, rfl, System.steps_of_runWhile (fun _ _ hok => hok) hs⟩, hnull⟩
  · obtain ⟨s, hs, hnode, hhead, hpushed, hpopped⟩ := hrecycled
    refine ⟨s, ⟨_, rfl, System.steps_of_runWhile (fun _ _ hok => hok) hs⟩, hnode, ?_, hpushed, hpopped⟩
    rw [State.Reaches, hhead]
    exact .head 1

end Runs

end LockFreeStack
end Executors
end Tpcc
