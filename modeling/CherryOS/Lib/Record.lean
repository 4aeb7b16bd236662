import CherryOS.Lib.Stack

/-!
# Records in byte memory

A field lies at an offset from the address of its record and has one, two or four bytes.
A load extends it with zeros and a store keeps the low bytes of a word.  Two fields of one
record, or of two records, do not disturb each other as long as their bytes are apart.
-/

namespace CherryOS
namespace Lib
namespace Record

structure Field where
  off : Nat
  size : Nat
  size_le : size ≤ 4

/-- What a field keeps of a word. -/
def Field.fit (f : Field) (v : BitVec 32) : BitVec 32 :=
  leWord fun k => if k < f.size then leByte v k else 0

def load (m : Bytes32) (a : BitVec 32) (f : Field) : BitVec 32 :=
  leWord fun k => if k < f.size then m (a + BitVec.ofNat 32 f.off + BitVec.ofNat 32 k) else 0

def store (m : Bytes32) (a : BitVec 32) (f : Field) (v : BitVec 32) : Bytes32 :=
  copyIn m (a + BitVec.ofNat 32 f.off) (leByte v) f.size

variable {m m' : Bytes32} {a b v p : BitVec 32} {f g : Field}

theorem Field.fit_zero (f : Field) : f.fit 0 = 0 := by
  have hbyte : ∀ k, leByte 0 k = 0 := fun k => by simp [leByte]
  simp only [fit, hbyte, ite_self, leWord]
  rfl

theorem Field.fit_word (h : f.size = 4) (v : BitVec 32) : f.fit v = v := by
  rw [fit, leWord_congr fun k hk => if_pos (h ▸ hk)]
  exact leWord_leByte v

theorem load_store_self (m : Bytes32) (a v : BitVec 32) (f : Field) :
    load (store m a f v) a f = f.fit v := by
  refine leWord_congr fun k _ => ?_
  by_cases hk : k < f.size
  · have hsize := f.size_le
    rw [if_pos hk, if_pos hk]
    exact copyIn_read (by omega) hk
  · rw [if_neg hk, if_neg hk]

/-- A store changes the bytes of its field. -/
theorem store_apply (h : f.size ≤ (p - (a + BitVec.ofNat 32 f.off)).toNat) :
    store m a f v p = m p := by
  have hsize := f.size_le
  rw [store, copyIn_apply (by omega), if_neg (by omega)]

theorem load_congr
    (h : ∀ k < g.size, m' (b + BitVec.ofNat 32 g.off + BitVec.ofNat 32 k) =
      m (b + BitVec.ofNat 32 g.off + BitVec.ofNat 32 k)) : load m' b g = load m b g := by
  refine leWord_congr fun k _ => ?_
  by_cases hk : k < g.size
  · rw [if_pos hk, if_pos hk, h k hk]
  · rw [if_neg hk, if_neg hk]

/-- The bytes of the two fields are apart. -/
def Apart (a : BitVec 32) (f : Field) (b : BitVec 32) (g : Field) : Prop :=
  a.toNat + f.off + f.size ≤ b.toNat + g.off ∨ b.toNat + g.off + g.size ≤ a.toNat + f.off

theorem load_store_apart (ha : a.toNat + f.off + f.size ≤ 2 ^ 32)
    (hb : b.toNat + g.off + g.size ≤ 2 ^ 32) (h : Apart a f b g) :
    load (store m a f v) b g = load m b g := by
  refine load_congr fun k hk => store_apply ?_
  have hlt := a.isLt
  rw [BitVec.toNat_sub, BitVec.toNat_add, BitVec.toNat_add, BitVec.toNat_add, BitVec.toNat_ofNat,
    BitVec.toNat_ofNat, BitVec.toNat_ofNat]
  rcases h with h | h <;> omega

/-- A store to a record leaves the memory outside of it alone. -/
theorem store_outside {size : Nat} (hf : f.off + f.size ≤ size) (hsize : size ≤ 2 ^ 32)
    (hp : size ≤ (p - a).toNat) : store m a f v p = m p := by
  by_cases hfield : f.size ≤ (p - (a + BitVec.ofNat 32 f.off)).toNat
  · exact store_apply hfield
  · exfalso
    have hsum : p - a = p - (a + BitVec.ofNat 32 f.off) + BitVec.ofNat 32 f.off := by ring
    rw [hsum, BitVec.toNat_add, BitVec.toNat_ofNat] at hp
    have hlt := (p - (a + BitVec.ofNat 32 f.off)).isLt
    rw [Nat.mod_eq_of_lt (a := f.off) (by omega)] at hp
    have hmod := Nat.mod_le ((p - (a + BitVec.ofNat 32 f.off)).toNat + f.off) (2 ^ 32)
    omega

end Record
end Lib
end CherryOS
