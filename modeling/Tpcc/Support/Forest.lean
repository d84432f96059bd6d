import Mathlib.Data.List.Basic

/-!
# `Support.Forest` — finite trees, level by level

The breadth-first order of a forest: its roots, then their children, then the children of those. A queue that
takes a tree from its front and puts the children at its end visits the nodes in this order
(`breadthFirst_cons`). A node stands for the tree below it. Nothing here names a program.
-/

namespace Tpcc

variable {α : Type*}

/-- A finite tree. -/
inductive Tree (α : Type*) where
  | node (value : α) (children : List (Tree α))

namespace Tree

def value : Tree α → α
  | node value _ => value

def children : Tree α → List (Tree α)
  | node _ children => children

mutual

/-- The number of nodes of a tree. -/
def size : Tree α → Nat
  | node _ children => forestSize children + 1

/-- The number of nodes of a forest. -/
def forestSize : List (Tree α) → Nat
  | [] => 0
  | t :: ts => t.size + forestSize ts

end

/-- The next level of a forest. -/
def nextLevel (ts : List (Tree α)) : List (Tree α) := ts.flatMap children

/-- The first `n` levels of a forest, from its roots down. -/
def levels : Nat → List (Tree α) → List (Tree α)
  | 0, _ => []
  | n + 1, ts => ts ++ levels n (nextLevel ts)

/-- **The breadth-first order.** A forest has no more levels than nodes. -/
def breadthFirst (ts : List (Tree α)) : List (Tree α) := levels (forestSize ts) ts

variable {t : Tree α} {ts ts' : List (Tree α)} {m n : Nat}

@[simp] theorem nextLevel_cons : nextLevel (t :: ts) = t.children ++ nextLevel ts := List.flatMap_cons

@[simp] theorem nextLevel_append : nextLevel (ts ++ ts') = nextLevel ts ++ nextLevel ts' := List.flatMap_append

theorem size_eq (t : Tree α) : t.size = forestSize t.children + 1 := by
  cases t with
  | node value children => rfl

@[simp] theorem forestSize_append : forestSize (ts ++ ts') = forestSize ts + forestSize ts' := by
  induction ts with
  | nil => exact (Nat.zero_add _).symm
  | cons t ts ih => rw [List.cons_append, forestSize, forestSize, ih, Nat.add_assoc]

/-- A level holds the nodes that are missing below it. -/
theorem forestSize_nextLevel (ts : List (Tree α)) : forestSize (nextLevel ts) + ts.length = forestSize ts := by
  induction ts with
  | nil => rfl
  | cons t ts ih =>
      rw [nextLevel_cons, forestSize_append, forestSize, size_eq, List.length_cons]
      omega

theorem levels_nil (n : Nat) : levels n ([] : List (Tree α)) = [] := by
  induction n with
  | zero => rfl
  | succ n ih => exact ih

theorem levels_congr (hm : forestSize ts ≤ m) (hn : forestSize ts ≤ n) : levels m ts = levels n ts := by
  induction m generalizing ts n with
  | zero =>
      have hsize := forestSize_nextLevel ts
      obtain rfl := List.length_eq_zero_iff.mp (show ts.length = 0 by omega)
      exact (levels_nil n).symm
  | succ m ih =>
      cases ts with
      | nil => rw [levels_nil, levels_nil]
      | cons t ts =>
          have hsize := forestSize_nextLevel (t :: ts)
          rw [List.length_cons] at hsize
          obtain ⟨n, rfl⟩ := Nat.exists_eq_add_of_le' (show 1 ≤ n by omega)
          rw [levels, levels, ih (n := n) (by omega) (by omega)]

theorem breadthFirst_nil : breadthFirst ([] : List (Tree α)) = [] := rfl

theorem breadthFirst_eq (ts : List (Tree α)) : breadthFirst ts = ts ++ breadthFirst (nextLevel ts) := by
  have hsize := forestSize_nextLevel ts
  have hlevels : breadthFirst ts = levels (forestSize ts + 1) ts := levels_congr (Nat.le_refl _) (Nat.le_succ _)
  have hrest : levels (forestSize ts) (nextLevel ts) = breadthFirst (nextLevel ts) :=
    levels_congr (by omega) (Nat.le_refl _)
  rw [hlevels, levels, hrest]

/-- Part of a level can be read later, if what is below it is read after the rest. -/
theorem breadthFirst_append (ts ts' : List (Tree α)) :
    breadthFirst (ts ++ ts') = ts ++ breadthFirst (ts' ++ nextLevel ts) := by
  induction hn : forestSize (ts ++ ts') using Nat.strongRecOn generalizing ts ts' with
  | ind n ih =>
      cases hlevel : ts ++ ts' with
      | nil =>
          obtain ⟨rfl, rfl⟩ := List.append_eq_nil_iff.mp hlevel
          rfl
      | cons t rest =>
          have hsize := forestSize_nextLevel (ts ++ ts')
          rw [hlevel, List.length_cons, ← hlevel] at hsize
          rw [← hlevel, breadthFirst_eq, nextLevel_append, ih _ ?smaller _ _ rfl, breadthFirst_eq (ts' ++ nextLevel ts),
            nextLevel_append]
          · simp only [List.append_assoc]
          case smaller =>
            rw [← nextLevel_append]
            omega

/-- **The queue.** -/
theorem breadthFirst_cons (t : Tree α) (ts : List (Tree α)) :
    breadthFirst (t :: ts) = t :: breadthFirst (ts ++ t.children) := by
  have h := breadthFirst_append [t] ts
  rwa [nextLevel_cons, nextLevel, List.flatMap_nil, List.append_nil] at h

theorem length_breadthFirst (ts : List (Tree α)) : (breadthFirst ts).length = forestSize ts := by
  induction hn : forestSize ts using Nat.strongRecOn generalizing ts with
  | ind n ih =>
      cases ts with
      | nil => exact hn
      | cons t ts =>
          have hsize : forestSize (ts ++ t.children) + 1 = forestSize (t :: ts) := by
            rw [forestSize_append, forestSize, size_eq]
            omega
          rw [breadthFirst_cons, List.length_cons, ih _ (by omega) _ rfl, hsize, hn]

end Tree
end Tpcc
