/-
Memory as a function of machine addresses, and the copies into it.

An address is a bit vector, so that addresses wrap.  `copyIn m a x n` stores the first `n`
values of `x` from address `a` on, one after another.  As long as `n` values fit in the
address space at all, where they are is a matter of the distance from `a`: `copyIn_apply`.

`leByte` and `leWord` take a 32-bit word apart into bytes and put it together again.
-/
import Mathlib

namespace CherryOS
namespace Lib

variable {w : Nat} {β : Type*}

def copyIn (m : BitVec w → β) (a : BitVec w) (x : Nat → β) : Nat → BitVec w → β
  | 0 => m
  | n + 1 => Function.update (copyIn m a x n) (a + BitVec.ofNat w n) (x n)

variable {m : BitVec w → β} {a p : BitVec w} {x y : Nat → β} {n k : Nat}

/-- The address at distance `n` from `a`. -/
theorem eq_add_ofNat_iff (hn : n < 2 ^ w) : p = a + BitVec.ofNat w n ↔ (p - a).toNat = n := by
  constructor
  · intro h
    rw [h, BitVec.add_comm, BitVec.add_sub_cancel, BitVec.toNat_ofNat, Nat.mod_eq_of_lt hn]
  · intro h
    rw [← h, BitVec.ofNat_toNat, BitVec.setWidth_eq, BitVec.add_comm, BitVec.sub_add_cancel]

theorem copyIn_apply (hn : n ≤ 2 ^ w) :
    copyIn m a x n p = if (p - a).toNat < n then x (p - a).toNat else m p := by
  induction n with
  | zero => rfl
  | succ n ih =>
    rw [copyIn]
    by_cases hp : (p - a).toNat = n
    · rw [(eq_add_ofNat_iff (by omega)).mpr hp, Function.update_self, ← (eq_add_ofNat_iff
        (by omega)).mpr hp, hp, if_pos (by omega)]
    · have hne : p ≠ a + BitVec.ofNat w n := fun e => hp ((eq_add_ofNat_iff (by omega)).mp e)
      rw [Function.update_of_ne hne, ih (by omega)]
      by_cases hlt : (p - a).toNat < n
      · rw [if_pos hlt, if_pos (by omega)]
      · rw [if_neg hlt, if_neg (by omega)]

theorem copyIn_congr (h : ∀ i < n, x i = y i) : copyIn m a x n = copyIn m a y n := by
  induction n with
  | zero => rfl
  | succ n ih => rw [copyIn, copyIn, ih fun i hi => h i (by omega), h n (by omega)]

/-- Two copies, the second from where the first ended. -/
theorem copyIn_copyIn :
    copyIn (copyIn m a x n) (a + BitVec.ofNat w n) (fun i => x (n + i)) k =
      copyIn m a x (n + k) := by
  induction k with
  | zero => rfl
  | succ k ih =>
    rw [copyIn, ih, BitVec.add_assoc, ← BitVec.ofNat_add]
    rfl

/-- What was copied in is read back. -/
theorem copyIn_read (hn : n ≤ 2 ^ w) (hk : k < n) :
    copyIn m a x n (a + BitVec.ofNat w k) = x k := by
  have hd : (a + BitVec.ofNat w k - a).toNat = k := (eq_add_ofNat_iff (by omega)).mp rfl
  rw [copyIn_apply hn, hd, if_pos hk]

/-! ## Words of four bytes, the least significant first -/

def leByte (v : BitVec 32) (k : Nat) : BitVec 8 := (v >>> (8 * k)).setWidth 8

def leWord (x : Nat → BitVec 8) : BitVec 32 := x 3 ++ x 2 ++ x 1 ++ x 0

theorem leWord_leByte (v : BitVec 32) : leWord (leByte v) = v := by
  refine BitVec.eq_of_getLsbD_eq fun i hi => ?_
  have hi : i < 32 := hi
  simp only [leWord, leByte, BitVec.getLsbD_append, BitVec.getLsbD_setWidth,
    BitVec.getLsbD_ushiftRight]
  by_cases h0 : i < 8
  · simp [h0]
  · by_cases h1 : i - 8 < 8
    · simp only [h0, h1, decide_true, decide_false, Bool.true_and]
      exact congrArg v.getLsbD (by omega)
    · by_cases h2 : i - 8 - 8 < 8
      · simp only [h0, h1, h2, decide_true, decide_false, Bool.true_and]
        exact congrArg v.getLsbD (by omega)
      · have h3 : i - 8 - 8 - 8 < 8 := by omega
        simp only [h0, h1, h2, h3, decide_true, decide_false, Bool.true_and]
        exact congrArg v.getLsbD (by omega)

theorem leWord_congr {x y : Nat → BitVec 8} (h : ∀ k < 4, x k = y k) : leWord x = leWord y := by
  rw [leWord, leWord, h 0 (by omega), h 1 (by omega), h 2 (by omega), h 3 (by omega)]

end Lib
end CherryOS
