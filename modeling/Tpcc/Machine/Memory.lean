import Mathlib.Algebra.Group.Nat.Defs
import Mathlib.Logic.Function.Basic

/-!
# `Machine.Memory` — bytes, and the words they make

A memory has a byte at each 64-bit address. A word is the eight bytes from its address on, the lowest first;
addresses wrap around, and words can overlap. Nothing here names a program.
-/

namespace Tpcc
namespace Machine

abbrev Byte : Type := BitVec 8

abbrev Word : Type := BitVec 64

abbrev Memory : Type := Word → Byte

/-- Byte `x` is one of the word at `a`. -/
def Within (a x : Word) : Prop := (x - a).toNat < 8

instance (a x : Word) : Decidable (Within a x) := Nat.decLt _ _

/-- The words at `a` and `b` have no byte in common. -/
def Apart (a b : Word) : Prop := ∀ x, Within a x → ¬ Within b x

theorem Apart.symm {a b : Word} (h : Apart a b) : Apart b a := fun x hb ha => h x ha hb

/-- The offset of the `k`-th byte of a word. -/
theorem offset_byte (a : Word) {k : Nat} (h : k < 8) : (a + BitVec.ofNat 64 k - a).toNat = k := by
  rw [BitVec.add_comm, BitVec.add_sub_cancel, BitVec.toNat_ofNat]
  omega

theorem within_byte (a : Word) {k : Nat} (h : k < 8) : Within a (a + BitVec.ofNat 64 k) := by
  rw [Within, offset_byte a h]
  exact h

/-- A byte of a word is its `k`-th for some `k`. -/
theorem Within.exists_byte {a x : Word} (h : Within a x) : ∃ k, k < 8 ∧ x = a + BitVec.ofNat 64 k := by
  refine ⟨(x - a).toNat, h, ?_⟩
  rw [BitVec.ofNat_toNat, BitVec.setWidth_eq, BitVec.add_comm, BitVec.sub_add_cancel]

theorem extract_append {v : Word} {i j n k : Nat} (h : i = j + k) :
    v.extractLsb' i n ++ v.extractLsb' j k = v.extractLsb' j (n + k) :=
  BitVec.extractLsb'_append_extractLsb'_eq_extractLsb' h

/-- The word of eight bytes. -/
def ofBytes (f : Nat → Byte) : Word := f 7 ++ f 6 ++ f 5 ++ f 4 ++ f 3 ++ f 2 ++ f 1 ++ f 0

/-- The `k`-th byte of a word. -/
def byteOf (v : Word) (k : Nat) : Byte := v.extractLsb' (8 * k) 8

theorem ofBytes_byteOf (v : Word) : ofBytes (byteOf v) = v := by
  unfold ofBytes byteOf
  rw [extract_append (show 8 * 7 = 8 * 6 + 8 from rfl), extract_append (show 8 * 6 = 8 * 5 + 8 from rfl),
    extract_append (show 8 * 5 = 8 * 4 + 8 from rfl), extract_append (show 8 * 4 = 8 * 3 + 8 from rfl),
    extract_append (show 8 * 3 = 8 * 2 + 8 from rfl), extract_append (show 8 * 2 = 8 * 1 + 8 from rfl),
    extract_append (show 8 * 1 = 8 * 0 + 8 from rfl)]
  exact BitVec.extractLsb'_eq_self

theorem extract_left {w n : Nat} {u : BitVec w} {b : Byte} (h : 8 ≤ n) :
    (u ++ b).extractLsb' n 8 = u.extractLsb' (n - 8) 8 := by
  ext i hi
  have hlt : ¬ n + i < 8 := by omega
  have hsub : n + i - 8 = n - 8 + i := by omega
  simp [BitVec.getLsbD_append, hlt, hsub]

theorem extract_right {w : Nat} {u : BitVec w} {b : Byte} : (u ++ b).extractLsb' 0 8 = b := by
  ext i hi
  simp [BitVec.getLsbD_append, hi]

theorem byteOf_ofBytes (f : Nat → Byte) {k : Nat} (h : k < 8) : byteOf (ofBytes f) k = f k := by
  have hcases : k = 0 ∨ k = 1 ∨ k = 2 ∨ k = 3 ∨ k = 4 ∨ k = 5 ∨ k = 6 ∨ k = 7 := by omega
  unfold ofBytes byteOf
  rcases hcases with rfl | rfl | rfl | rfl | rfl | rfl | rfl | rfl
  · exact extract_right
  iterate 6
    · simp (disch := decide) only [extract_left]
      exact extract_right
  · simp (disch := decide) only [extract_left]
    exact BitVec.extractLsb'_eq_self

theorem ofBytes_congr {f g : Nat → Byte} (h : ∀ k, k < 8 → f k = g k) : ofBytes f = ofBytes g := by
  unfold ofBytes
  rw [h 7 (by decide), h 6 (by decide), h 5 (by decide), h 4 (by decide), h 3 (by decide), h 2 (by decide),
    h 1 (by decide), h 0 (by decide)]

namespace Memory

variable {m m' : Memory} {a b v x : Word}

/-- The word at `a`. -/
def load (m : Memory) (a : Word) : Word := ofBytes fun k => m (a + BitVec.ofNat 64 k)

/-- The memory with word `v` at `a`. -/
def store (m : Memory) (a v : Word) : Memory := fun x => if Within a x then byteOf v (x - a).toNat else m x

theorem store_of_not_within (h : ¬ Within a x) : m.store a v x = m x := if_neg h

theorem store_byte (m : Memory) (a v : Word) {k : Nat} (h : k < 8) :
    m.store a v (a + BitVec.ofNat 64 k) = byteOf v k := by
  unfold store
  rw [if_pos (within_byte a h), offset_byte a h]

/-- **A load reads what was stored at the same address.** -/
theorem load_store_self (m : Memory) (a v : Word) : (m.store a v).load a = v := by
  have hbytes : (m.store a v).load a = ofBytes (byteOf v) := ofBytes_congr fun k hk => store_byte m a v hk
  rw [hbytes, ofBytes_byteOf]

/-- A load reads only its bytes. -/
theorem load_congr (h : ∀ x, Within a x → m x = m' x) : m.load a = m'.load a :=
  ofBytes_congr fun _ hk => h _ (within_byte a hk)

/-- **A store elsewhere changes nothing here.** -/
theorem load_store_of_apart (m : Memory) (v : Word) (h : Apart a b) : (m.store a v).load b = m.load b :=
  load_congr fun x hx => store_of_not_within fun ha => h x ha hx

/-- What a store does to a byte does not depend on the others. -/
theorem store_congr (h : m x = m' x) : m.store a v x = m'.store a v x := by
  unfold store
  rw [h]

/-- **Storing what is there changes nothing.** -/
theorem store_load_self (m : Memory) (a : Word) : m.store a (m.load a) = m := by
  funext x
  by_cases hx : Within a x
  · obtain ⟨k, hk, rfl⟩ := hx.exists_byte
    rw [store_byte m a _ hk]
    exact byteOf_ofBytes _ hk
  · exact store_of_not_within hx

end Memory
/-! ## Several stores -/

/-- The memory after stores, oldest first. -/
def writes (m : Memory) (stores : List (Word × Word)) : Memory := stores.foldl (fun m w => m.store w.1 w.2) m

section

variable {m m' : Memory} {w : Word × Word} {stores : List (Word × Word)} {x : Word}

theorem writes_snoc : writes m (stores ++ [w]) = (writes m stores).store w.1 w.2 := List.foldl_append ..

/-- What stores do to a byte does not depend on the others. -/
theorem writes_congr (h : m x = m' x) : writes m stores x = writes m' stores x := by
  induction stores generalizing m m' with
  | nil => exact h
  | cons w stores ih => exact ih (Memory.store_congr h)

/-- Stores elsewhere. -/
theorem writes_of_forall_not_within (h : ∀ w ∈ stores, ¬ Within w.1 x) : writes m stores x = m x := by
  induction stores generalizing m with
  | nil => rfl
  | cons w stores ih =>
      calc writes m (w :: stores) x = m.store w.1 w.2 x := ih fun w' hw' => h w' (List.mem_cons_of_mem w hw')
        _ = m x := Memory.store_of_not_within (h w List.mem_cons_self)

theorem load_writes_of_apart {a : Word} (h : ∀ w ∈ stores, Apart w.1 a) : (writes m stores).load a = m.load a :=
  Memory.load_congr fun x hx => writes_of_forall_not_within fun w hw hin => h w hw x hin hx

/-- **Each of several words that are apart can be loaded.** -/
theorem load_writes (hapart : stores.Pairwise fun w w' => Apart w.1 w'.1) (hw : w ∈ stores) :
    (writes m stores).load w.1 = w.2 := by
  induction stores generalizing m with
  | nil => cases hw
  | cons w' stores ih =>
      obtain ⟨hfirst, hrest⟩ := List.pairwise_cons.mp hapart
      rcases List.mem_cons.mp hw with rfl | hw
      · have hload : (writes (m.store w.1 w.2) stores).load w.1 = (m.store w.1 w.2).load w.1 :=
          load_writes_of_apart fun w' hw' => (hfirst w' hw').symm
        exact hload.trans (Memory.load_store_self ..)
      · exact ih hrest hw

end

/-! ## Words that are apart -/

theorem within_row {a x : Word} {k : Nat} (hk : 8 * k + 8 ≤ 2 ^ 64) :
    Within (a + BitVec.ofNat 64 (8 * k)) x ↔ 8 * k ≤ (x - a).toNat ∧ (x - a).toNat < 8 * k + 8 := by
  have hsub : x - (a + BitVec.ofNat 64 (8 * k)) = x - a - BitVec.ofNat 64 (8 * k) := by rw [BitVec.sub_sub]
  have hlt := (x - a).isLt
  unfold Within
  rw [hsub, BitVec.toNat_sub, BitVec.toNat_ofNat]
  omega

/-- The words of a row. -/
theorem apart_row {a : Word} {j k : Nat} (hj : 8 * j + 8 ≤ 2 ^ 64) (hk : 8 * k + 8 ≤ 2 ^ 64) (hne : j ≠ k) :
    Apart (a + BitVec.ofNat 64 (8 * j)) (a + BitVec.ofNat 64 (8 * k)) := by
  intro x hx hx'
  rw [within_row hj] at hx
  rw [within_row hk] at hx'
  omega

/-- The address of a word as the processor likes it. -/
def Aligned (a : Word) : Prop := a.toNat % 8 = 0

instance (a : Word) : Decidable (Aligned a) := Nat.decEq _ _

theorem apart_of_aligned {a b : Word} (ha : Aligned a) (hb : Aligned b) (hne : a ≠ b) : Apart a b := by
  intro x hx hx'
  have hnat : a.toNat ≠ b.toNat := fun h => hne (BitVec.eq_of_toNat_eq h)
  unfold Within at hx hx'
  unfold Aligned at ha hb
  rw [BitVec.toNat_sub] at hx hx'
  have hlt := x.isLt
  have hlt' := a.isLt
  have hlt'' := b.isLt
  omega

end Machine
end Tpcc
