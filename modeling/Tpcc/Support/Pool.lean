import Mathlib.Data.List.Perm.Basic
import Mathlib.Data.List.Range
import Mathlib.Logic.Function.Basic

/-!
# `Support.Pool` — items that are in a pool or with a user

Items are made as they are wanted, numbered from 0, and are kept in a pool while nobody uses them. `Accounts` says
that each item is in one place: once in the pool, or with one user. Nothing here names a program.
-/

namespace Tpcc

variable {ι : Type*} {pool : List Nat} {made : Nat} {item item' : ι → Option Nat} {users : List ι} {i j : ι} {x : Nat}

/-- The pool and the users' items are the items made, each once. -/
structure Accounts (pool : List Nat) (made : Nat) (item : ι → Option Nat) (users : List ι) : Prop where
  nodup : users.Nodup
  mem_users : ∀ i, i ∈ users ↔ item i ≠ none
  perm : (pool ++ users.filterMap item).Perm (List.range made)

namespace Accounts

theorem empty : Accounts [] 0 (fun _ : ι => none) [] where
  nodup := .nil
  mem_users _ := iff_of_false List.not_mem_nil (not_not.mpr rfl)
  perm := .refl _

theorem congr (h : Accounts pool made item users) (hitem : ∀ i, item' i = item i) : Accounts pool made item' users := by
  rwa [show item' = item from funext hitem]

theorem all_nodup (h : Accounts pool made item users) : (pool ++ users.filterMap item).Nodup :=
  h.perm.nodup_iff.mpr List.nodup_range

theorem mem_filterMap (h : Accounts pool made item users) (hi : item i = some x) : x ∈ users.filterMap item :=
  List.mem_filterMap.mpr ⟨i, (h.mem_users i).mpr (by simp [hi]), hi⟩

/-- An item that is used is not in the pool. -/
theorem not_mem (h : Accounts pool made item users) (hi : item i = some x) : x ∉ pool :=
  fun hx => (List.nodup_append.mp h.all_nodup).2.2 x hx x (h.mem_filterMap hi) rfl

theorem lt (h : Accounts pool made item users) (hi : item i = some x) : x < made :=
  List.mem_range.mp (h.perm.mem_iff.mp (List.mem_append_right _ (h.mem_filterMap hi)))

/-- **No item has two users.** -/
theorem injective (h : Accounts pool made item users) (hi : item i = some x) (hj : item j = some x) : i = j := by
  classical
  by_contra hne
  have hmem : ∀ {k}, item k = some x → k ∈ users := fun hk => (h.mem_users _).mpr (by simp [hk])
  have hperm := (List.perm_cons_erase (hmem hi)).filterMap item
  rw [List.filterMap_cons, hi] at hperm
  -- the item once more, with the other user
  have hother : x ∈ (users.erase i).filterMap item :=
    List.mem_filterMap.mpr ⟨j, (List.mem_erase_of_ne (Ne.symm hne)).mpr (hmem hj), hj⟩
  have hnodup := hperm.nodup_iff.mp (List.nodup_append.mp h.all_nodup).2.1
  exact (List.nodup_cons.mp hnodup).1 hother

theorem length_filterMap (h : ∀ i ∈ users, item i ≠ none) : (users.filterMap item).length = users.length := by
  induction users with
  | nil => rfl
  | cons i users ih =>
      obtain ⟨x, hx⟩ := Option.ne_none_iff_exists'.mp (h i List.mem_cons_self)
      rw [List.filterMap_cons, hx, List.length_cons, List.length_cons, ih fun j hj => h j (List.mem_cons_of_mem i hj)]

/-- **As many items are free or used as have been made.** -/
theorem length (h : Accounts pool made item users) : pool.length + users.length = made := by
  have hused := length_filterMap fun i hi => (h.mem_users i).mp hi
  rw [← hused, ← List.length_append, h.perm.length_eq, List.length_range]

/-- With no user, all items are in the pool. -/
theorem perm_of_nil (h : Accounts pool made item []) : pool.Perm (List.range made) := by
  have hperm := h.perm
  rwa [List.filterMap_nil, List.append_nil] at hperm

theorem not_user (h : Accounts pool made item users) (hi : item i = none) : i ∉ users :=
  fun hmem => (h.mem_users i).mp hmem hi

variable [DecidableEq ι]

/-- What the others have. -/
theorem filterMap_update {v : Option Nat} (hi : i ∉ users) :
    users.filterMap (Function.update item i v) = users.filterMap item := by
  refine List.filterMap_congr ?_
  intro j hj
  rw [Function.update_of_ne]
  rintro rfl
  exact hi hj

/-- User `i` gets item `x`. -/
theorem mem_take (h : Accounts pool made item users) (j : ι) :
    j ∈ i :: users ↔ Function.update item i (some x) j ≠ none := by
  by_cases hj : j = i
  · subst hj
    simp
  · rw [Function.update_of_ne hj, List.mem_cons, ← h.mem_users]
    exact or_iff_right hj

/-- **The last item of the pool is taken.** -/
theorem take (h : Accounts pool made item users) (hlast : pool.getLast? = some x) (hi : item i = none) :
    Accounts pool.dropLast made (Function.update item i (some x)) (i :: users) := by
  refine ⟨List.nodup_cons.mpr ⟨h.not_user hi, h.nodup⟩, h.mem_take, ?_⟩
  rw [List.filterMap_cons, Function.update_self, filterMap_update (h.not_user hi)]
  have hperm := h.perm
  rw [← List.dropLast_append_getLast? x hlast, List.append_assoc, List.singleton_append] at hperm
  exact hperm

/-- **An item is made**, the pool being empty. -/
theorem make (h : Accounts [] made item users) (hi : item i = none) :
    Accounts [] (made + 1) (Function.update item i (some made)) (i :: users) := by
  refine ⟨List.nodup_cons.mpr ⟨h.not_user hi, h.nodup⟩, h.mem_take, ?_⟩
  rw [List.filterMap_cons, Function.update_self, filterMap_update (h.not_user hi), List.range_succ]
  exact (h.perm.cons made).trans (List.perm_append_singleton made _).symm

/-- **An item is put back.** -/
theorem give (h : Accounts pool made item users) (hi : item i = some x) :
    Accounts (pool ++ [x]) made (Function.update item i none) (users.erase i) := by
  have hmem : i ∈ users := (h.mem_users i).mpr (by simp [hi])
  have hnot : i ∉ users.erase i := h.nodup.not_mem_erase
  refine ⟨h.nodup.erase i, ?_, ?_⟩
  · intro j
    by_cases hj : j = i
    · subst hj
      simp [hnot]
    · rw [Function.update_of_ne hj, List.mem_erase_of_ne hj]
      exact h.mem_users j
  · rw [filterMap_update hnot, List.append_assoc, List.singleton_append]
    have hperm := (List.perm_cons_erase hmem).filterMap item
    rw [List.filterMap_cons, hi] at hperm
    exact (hperm.symm.append_left pool).trans h.perm

end Accounts
end Tpcc
