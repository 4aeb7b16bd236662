import CherryOS.Lib.Stack

/-!
# Cells of two bytes

A memory of bytes in which cells of two bytes are stored, with the addresses they were stored
at.  Places are offsets from a base, and only their distance matters: `cell_put` reads what a
store left, and the loops that copy and fill are described by what each place holds after
them.  A copy that goes up may have its source above its target, and one that goes down its
source below, however much they overlap.
-/

namespace CherryOS
namespace Lib

def readCell (m : Bytes32) (a : BitVec 32) : BitVec 16 := m (a + 1) ++ m a

def writeCell (m : Bytes32) (a : BitVec 32) (v : BitVec 16) : Bytes32 :=
  Function.update (Function.update m a (v.setWidth 8)) (a + 1) (v.extractLsb' 8 8)

theorem readCell_writeCell (m : Bytes32) (a : BitVec 32) (v : BitVec 16) :
    readCell (writeCell m a v) a = v := by
  have hne : a ≠ a + 1 := by simp
  rw [readCell, writeCell, Function.update_self, Function.update_of_ne hne, Function.update_self]
  refine BitVec.eq_of_getLsbD_eq fun i hi => ?_
  rw [BitVec.getLsbD_append]
  split
  · simp_all
  · simp_all
    omega

/-- Cells that do not overlap. -/
theorem readCell_writeCell_of_apart (m : Bytes32) {a b : BitVec 32} (v : BitVec 16)
    (hab : 2 ≤ (b - a).toNat) (hba : 2 ≤ (a - b).toNat) :
    readCell (writeCell m a v) b = readCell m b := by
  have h1 : b ≠ a := by rintro rfl; simp at hab
  have h2 : b ≠ a + 1 := by rintro rfl; simp at hab
  have h3 : b + 1 ≠ a := by rintro rfl; simp at hba
  have h4 : b + 1 ≠ a + 1 := fun h => h1 (add_right_cancel h)
  rw [readCell, readCell, writeCell, Function.update_of_ne h4, Function.update_of_ne h3,
    Function.update_of_ne h2, Function.update_of_ne h1]

/-- A memory and the addresses of the cells stored in it, the last one first. -/
structure Store where
  mem : Bytes32
  stored : List (BitVec 32)

namespace Store

def put (s : Store) (a : BitVec 32) (v : BitVec 16) : Store :=
  { mem := writeCell s.mem a v, stored := a :: s.stored }

/-- A store to the low byte of a cell. -/
def putLow (s : Store) (a : BitVec 32) (v : BitVec 8) : Store :=
  { mem := Function.update s.mem a v, stored := a :: s.stored }

/-- `for (i = 0; i < n; i++) dst[i] = src[i]` -/
def copyUp (dst src : BitVec 32) : Nat → Store → Store
  | 0, s => s
  | n + 1, s =>
    let s' := copyUp dst src n s
    s'.put (dst + BitVec.ofNat 32 (2 * n)) (readCell s'.mem (src + BitVec.ofNat 32 (2 * n)))

/-- `for (i = n - 1; i != -1; i--) dst[i] = src[i]` -/
def copyDown (dst src : BitVec 32) : Nat → Store → Store
  | 0, s => s
  | n + 1, s =>
    copyDown dst src n
      (s.put (dst + BitVec.ofNat 32 (2 * n)) (readCell s.mem (src + BitVec.ofNat 32 (2 * n))))

/-- `for (i = 0; i < n; i++) dst[i] = v` -/
def fill (dst : BitVec 32) (v : BitVec 16) : Nat → Store → Store
  | 0, s => s
  | n + 1, s => (fill dst v n s).put (dst + BitVec.ofNat 32 (2 * n)) v

/-- The cell at an offset from a base. -/
def cell (s : Store) (base : BitVec 32) (k : Nat) : BitVec 16 :=
  readCell s.mem (base + BitVec.ofNat 32 k)

/-- The same cell from another base. -/
theorem cell_add (s : Store) (base : BitVec 32) (t k : Nat) :
    s.cell (base + BitVec.ofNat 32 t) k = s.cell base (t + k) := by
  rw [cell, cell, BitVec.add_assoc, ← BitVec.ofNat_add]

/-! ## What is read -/

variable {s : Store} {base dst src : BitVec 32} {v : BitVec 16} {i j k n t u : Nat}

theorem add_ofNat_add (base : BitVec 32) (t n : Nat) :
    base + BitVec.ofNat 32 t + BitVec.ofNat 32 n = base + BitVec.ofNat 32 (t + n) := by
  rw [BitVec.ofNat_add, BitVec.add_assoc]

theorem cell_put (s : Store) (base : BitVec 32) (k : Nat) (v : BitVec 16) :
    (s.put (base + BitVec.ofNat 32 k) v).cell base k = v :=
  readCell_writeCell _ _ _

theorem cell_put_of_apart (hj : j < 2 ^ 31) (hk : k < 2 ^ 31) (h : k + 2 ≤ j ∨ j + 2 ≤ k) :
    (s.put (base + BitVec.ofNat 32 j) v).cell base k = s.cell base k := by
  have hdist : ∀ {x y : Nat}, x < 2 ^ 31 → y < 2 ^ 31 → (x + 2 ≤ y ∨ y + 2 ≤ x) →
      2 ≤ (base + BitVec.ofNat 32 x - (base + BitVec.ofNat 32 y)).toNat := by
    intro x y hx hy hxy
    rw [add_sub_add_left_eq_sub, BitVec.toNat_sub, BitVec.toNat_ofNat, BitVec.toNat_ofNat]
    omega
  exact readCell_writeCell_of_apart _ _ (hdist hk hj h) (hdist hj hk h.symm)

/-! ### A copy that goes up -/

theorem cell_copyUp_of_apart (hd : dst = base + BitVec.ofNat 32 t) (hn : t + 2 * n < 2 ^ 31)
    (hk : k < 2 ^ 31) (h : k + 2 ≤ t ∨ t + 2 * n ≤ k) :
    (copyUp dst src n s).cell base k = s.cell base k := by
  subst hd
  induction n with
  | zero => rfl
  | succ n ih =>
    rw [copyUp, add_ofNat_add, cell_put_of_apart (by omega) hk (by omega)]
    exact ih (by omega) (by omega)

theorem cell_copyUp (hd : dst = base + BitVec.ofNat 32 t) (hs : src = base + BitVec.ofNat 32 u)
    (htu : t ≤ u) (hn : u + 2 * n < 2 ^ 31) (hi : i < n) :
    (copyUp dst src n s).cell base (t + 2 * i) = s.cell base (u + 2 * i) := by
  subst hd hs
  induction n with
  | zero => cases hi
  | succ n ih =>
    rw [copyUp, add_ofNat_add, add_ofNat_add]
    by_cases hin : i = n
    · -- the source of the last cell has not been written yet
      rw [hin, cell_put]
      exact cell_copyUp_of_apart rfl (by omega) (by omega) (by omega)
    · rw [cell_put_of_apart (by omega) (by omega) (by omega)]
      exact ih (by omega) (by omega)

/-! ### A copy that goes down -/

theorem cell_copyDown_of_apart (hd : dst = base + BitVec.ofNat 32 t) (hn : t + 2 * n < 2 ^ 31)
    (hk : k < 2 ^ 31) (h : k + 2 ≤ t ∨ t + 2 * n ≤ k) :
    (copyDown dst src n s).cell base k = s.cell base k := by
  subst hd
  induction n generalizing s with
  | zero => rfl
  | succ n ih =>
    rw [copyDown, ih (by omega) (by omega), add_ofNat_add]
    exact cell_put_of_apart (by omega) hk (by omega)

theorem cell_copyDown (hd : dst = base + BitVec.ofNat 32 t) (hs : src = base + BitVec.ofNat 32 u)
    (hut : u ≤ t) (hn : t + 2 * n < 2 ^ 31) (hi : i < n) :
    (copyDown dst src n s).cell base (t + 2 * i) = s.cell base (u + 2 * i) := by
  subst hd hs
  induction n generalizing s with
  | zero => cases hi
  | succ n ih =>
    rw [copyDown, add_ofNat_add, add_ofNat_add]
    by_cases hin : i = n
    · rw [hin, cell_copyDown_of_apart rfl (by omega) (by omega) (by omega), cell_put]
      rfl
    · -- the cell stored first is above every source that is left
      rw [ih (by omega) (by omega)]
      exact cell_put_of_apart (by omega) (by omega) (by omega)

/-! ### A fill -/

theorem cell_fill_of_apart (hd : dst = base + BitVec.ofNat 32 t) (hn : t + 2 * n < 2 ^ 31)
    (hk : k < 2 ^ 31) (h : k + 2 ≤ t ∨ t + 2 * n ≤ k) :
    (fill dst v n s).cell base k = s.cell base k := by
  subst hd
  induction n with
  | zero => rfl
  | succ n ih =>
    rw [fill, add_ofNat_add, cell_put_of_apart (by omega) hk (by omega)]
    exact ih (by omega) (by omega)

theorem cell_fill (hd : dst = base + BitVec.ofNat 32 t) (hn : t + 2 * n < 2 ^ 31) (hi : i < n) :
    (fill dst v n s).cell base (t + 2 * i) = v := by
  subst hd
  induction n with
  | zero => cases hi
  | succ n ih =>
    rw [fill, add_ofNat_add]
    by_cases hin : i = n
    · rw [hin, cell_put]
    · rw [cell_put_of_apart (by omega) (by omega) (by omega)]
      exact ih (by omega) (by omega)

/-! ## What is stored -/

/-- Each cell that was stored lies between two offsets from the base. -/
def Within (s : Store) (base : BitVec 32) (size : Nat) : Prop :=
  ∀ a ∈ s.stored, ∃ k, k + 2 ≤ size ∧ a = base + BitVec.ofNat 32 k

theorem Within.put (h : s.Within base n) (hk : k + 2 ≤ n) (v : BitVec 16) :
    (s.put (base + BitVec.ofNat 32 k) v).Within base n := by
  intro a ha
  obtain rfl | ha := List.mem_cons.mp ha
  · exact ⟨k, hk, rfl⟩
  · exact h a ha

theorem Within.putLow (h : s.Within base n) (hk : k + 2 ≤ n) (v : BitVec 8) :
    (s.putLow (base + BitVec.ofNat 32 k) v).Within base n := by
  intro a ha
  obtain rfl | ha := List.mem_cons.mp ha
  · exact ⟨k, hk, rfl⟩
  · exact h a ha

theorem Within.copyUp (h : s.Within base j) (hd : dst = base + BitVec.ofNat 32 t)
    (hn : t + 2 * n ≤ j) (src : BitVec 32) : (copyUp dst src n s).Within base j := by
  subst hd
  induction n with
  | zero => exact h
  | succ n ih =>
    rw [Store.copyUp, add_ofNat_add]
    exact (ih (by omega)).put (by omega) _

theorem Within.copyDown (h : s.Within base j) (hd : dst = base + BitVec.ofNat 32 t)
    (hn : t + 2 * n ≤ j) (src : BitVec 32) : (copyDown dst src n s).Within base j := by
  subst hd
  induction n generalizing s with
  | zero => exact h
  | succ n ih =>
    rw [Store.copyDown, add_ofNat_add]
    exact ih (h.put (by omega) _) (by omega)

theorem Within.fill (h : s.Within base j) (hd : dst = base + BitVec.ofNat 32 t)
    (hn : t + 2 * n ≤ j) (v : BitVec 16) : (fill dst v n s).Within base j := by
  subst hd
  induction n with
  | zero => exact h
  | succ n ih =>
    rw [Store.fill, add_ofNat_add]
    exact (ih (by omega)).put (by omega) _

end Store

end Lib
end CherryOS
