import CherryOS.Mm.Windows
import CherryOS.Lib.Bytes

/-!
# Linear addresses

The rules of the i386 for a 32-bit linear address, with 4 MB pages: bits 22 and up name a
directory entry, which is a page of 4 MB when its bit 7 is set, and otherwise names the
table in which bits 12 to 21 choose the entry of a 4 KB page.  The directory is at
address 0.
-/

namespace CherryOS
namespace Mm

open Kernel Lib

namespace Mem

/-- The physical address of a linear one, if it is mapped. -/
def translate (m : Mem) (lin : U32) : Option U32 :=
  let pde := m.phys (lin >>> 22).toNat
  if pde &&& 1 = 0 then none
  else if pde &&& 0x80 ≠ 0 then some ((pde &&& 0xFFC00000) + (lin &&& 0x3FFFFF))
  else
    let pte := m.phys (wordAt (pageAddr pde) ((lin >>> 12) &&& 0x3FF).toNat)
    if pte &&& 1 = 0 then none else some (pageAddr pte + (lin &&& 0xFFF))

/-- The byte at a physical address. -/
def byteAt (m : Mem) (addr : U32) : BitVec 8 := leByte (m.phys (addr.toNat / 4)) (addr.toNat % 4)

end Mem

theorem windowBase_toNat {nr : Nat} (hnr : nr < 64) : (windowBase nr).toNat = nr * 2 ^ 26 := by
  rw [windowBase, BitVec.toNat_mul, BitVec.toNat_ofNat]
  show nr % 2 ^ 32 * 67108864 % 2 ^ 32 = _
  omega

/-- An offset in a window: the directory entry, the table entry and the byte it names. -/
structure Offset (off : U32) (k j x : Nat) : Prop where
  dir : k < 16
  tab : j < 1024
  byte : x < 4096
  sum : off.toNat = k * 2 ^ 22 + j * 4096 + x

theorem Offset.of_lt {off : U32} (h : off.toNat < 2 ^ 26) :
    Offset off (off.toNat / 2 ^ 22) (off.toNat / 4096 % 1024) (off.toNat % 4096) :=
  ⟨by omega, by omega, by omega, by omega⟩

variable {m : Mem} {nr k j x : Nat} {off : U32}

theorem Offset.lin (h : Offset off k j x) (hnr : nr < 64) :
    (windowBase nr + off).toNat = nr * 2 ^ 26 + k * 2 ^ 22 + j * 4096 + x := by
  obtain ⟨hk, hj, hx, hsum⟩ := h
  rw [BitVec.toNat_add, windowBase_toNat hnr, hsum]
  omega

theorem Offset.dirIndex (h : Offset off k j x) (hnr : nr < 64) :
    ((windowBase nr + off) >>> 22).toNat = 16 * nr + k := by
  rw [BitVec.toNat_ushiftRight, h.lin hnr, Nat.shiftRight_eq_div_pow]
  obtain ⟨hk, hj, hx, _⟩ := h
  omega

theorem toNat_and_low (a : U32) {n : Nat} (hn : n < 32) :
    (a &&& BitVec.ofNat 32 (2 ^ n - 1)).toNat = a.toNat % 2 ^ n := by
  have hlt : 2 ^ n - 1 < 2 ^ 32 := by
    have := Nat.pow_le_pow_right (n := 2) (by decide) (Nat.le_of_lt hn)
    omega
  rw [BitVec.toNat_and, BitVec.toNat_ofNat, Nat.mod_eq_of_lt hlt, Nat.and_two_pow_sub_one_eq_mod]

theorem Offset.tabIndex (h : Offset off k j x) (hnr : nr < 64) :
    (((windowBase nr + off) >>> 12) &&& 0x3FF).toNat = j := by
  rw [show (0x3FF : U32) = BitVec.ofNat 32 (2 ^ 10 - 1) from rfl, toNat_and_low _ (by decide),
    BitVec.toNat_ushiftRight, h.lin hnr, Nat.shiftRight_eq_div_pow]
  obtain ⟨hk, hj, hx, _⟩ := h
  omega

theorem Offset.byteIndex (h : Offset off k j x) (hnr : nr < 64) :
    ((windowBase nr + off) &&& 0xFFF).toNat = x := by
  rw [show (0xFFF : U32) = BitVec.ofNat 32 (2 ^ 12 - 1) from rfl, toNat_and_low _ (by decide),
    h.lin hnr]
  obtain ⟨hk, hj, hx, _⟩ := h
  omega

theorem frameOf_lt (e : U32) : frameOf e < 2 ^ 20 := by
  rw [frameOf, BitVec.toNat_ushiftRight, Nat.shiftRight_eq_div_pow]
  have := e.isLt
  omega

theorem and_one_eq (e : U32) : e &&& 1 = 0 ∨ e &&& 1 = 1 := by
  have h := toNat_and_low e (n := 1) (by decide)
  have h1 : BitVec.ofNat 32 (2 ^ 1 - 1) = (1 : U32) := rfl
  rw [h1] at h
  rcases Nat.mod_two_eq_zero_or_one e.toNat with h0 | h0
  · exact Or.inl (BitVec.eq_of_toNat_eq (h.trans h0))
  · exact Or.inr (BitVec.eq_of_toNat_eq (h.trans h0))

/-- An offset whose directory entry is present is mapped by a 4 MB page, or through the
table. -/
theorem Offset.translate (h : Offset off k j x) (hnr : nr < 64) :
    m.translate (windowBase nr + off) =
      if m.phys (16 * nr + k) &&& 1 = 0 then none
      else if m.phys (16 * nr + k) &&& 0x80 ≠ 0 then
        some ((m.phys (16 * nr + k) &&& 0xFFC00000) + ((windowBase nr + off) &&& 0x3FFFFF))
      else if m.phys (m.entryWord (16 * nr + k) j) &&& 1 = 0 then none
      else some (pageAddr (m.phys (m.entryWord (16 * nr + k) j)) +
        ((windowBase nr + off) &&& 0xFFF)) := by
  rw [Mem.translate, h.dirIndex hnr, h.tabIndex hnr, wordAt_pageAddr]
  rfl

/-- The byte an offset names in a 4 KB page. -/
theorem Offset.byteAt (h : Offset off k j x) (hnr : nr < 64) (m : Mem) (pte : U32) :
    m.byteAt (pageAddr pte + ((windowBase nr + off) &&& 0xFFF)) =
      leByte (m.phys (frameOf pte * 1024 + x / 4)) (x % 4) := by
  have hlt := frameOf_lt pte
  have hx := h.byte
  have haddr : (pageAddr pte + ((windowBase nr + off) &&& 0xFFF)).toNat = frameOf pte * 4096 + x := by
    rw [BitVec.toNat_add, pageAddr_toNat, h.byteIndex hnr]
    omega
  have hword : (frameOf pte * 4096 + x) / 4 = frameOf pte * 1024 + x / 4 := by omega
  have hbyte : (frameOf pte * 4096 + x) % 4 = x % 4 := by omega
  rw [Mem.byteAt, haddr, hword, hbyte]

/-- Through a table: what is mapped, and where. -/
theorem Offset.translate_table (h : Offset off k j x) (hnr : nr < 64)
    (ht : Table (m.phys (16 * nr + k))) : m.translate (windowBase nr + off) =
      if m.phys (m.entryWord (16 * nr + k) j) &&& 1 = 1 then
        some (pageAddr (m.phys (m.entryWord (16 * nr + k) j)) + ((windowBase nr + off) &&& 0xFFF))
      else none := by
  have hp : ¬ m.phys (16 * nr + k) &&& 1 = 0 := by
    rw [ht.1]
    decide
  rw [h.translate hnr, if_neg hp, if_neg (not_not.mpr ht.2)]
  rcases and_one_eq (m.phys (m.entryWord (16 * nr + k) j)) with h0 | h1
  · rw [if_pos h0, if_neg (by rw [h0]; decide)]
  · rw [if_neg (by rw [h1]; decide), if_pos h1]

end Mm
end CherryOS
