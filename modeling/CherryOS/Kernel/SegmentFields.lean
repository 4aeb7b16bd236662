import CherryOS.Kernel.Descriptors

/-!
# The fields of a descriptor

A descriptor holds its base and its limit in pieces, between the bits of its type.  Each
setter should change its own field only, and each reader should find what was set.
`set_segment_base` shifts the low half of the base by 8 where its place is bit 16, so it does
both for the bases whose low half is zero and for no others.
-/

namespace CherryOS
namespace Kernel

/-- The 20-bit limit, in units of a byte or a page. -/
def limitField (seg : SegDesc) : U32 := (seg.low32 &&& 0xFFFF) ||| (seg.high32 &&& 0x000F0000)

/-- The type, DPL and present bits, and the four bits from AVL to granularity. -/
def attributes (seg : SegDesc) : U32 := seg.high32 &&& 0x00F0FF00

/-- The setters store what they are given, and leave the other fields alone. -/
structure Faithful (seg : SegDesc) (b l a dpl : U32) : Prop where
  base : getSegmentBase (setSegmentBase seg b) = b
  baseLimit : limitField (setSegmentBase seg b) = limitField seg
  baseAttributes : attributes (setSegmentBase seg b) = attributes seg
  limit : limitField (setSegmentLimit seg l) = l &&& 0xFFFFF
  limitBase : getSegmentBase (setSegmentLimit seg l) = getSegmentBase seg
  limitAttributes : attributes (setSegmentLimit seg l) = attributes seg
  tss : ∀ gdt index, getSegmentBase (setTssDesc gdt index a dpl index) = a
  ldt : ∀ gdt index, getSegmentBase (setLdtDesc gdt index a dpl index) = a

/-! ## The setter of the limit -/

theorem limitField_setSegmentLimit (seg : SegDesc) (l : U32) :
    limitField (setSegmentLimit seg l) = l &&& 0xFFFFF := by
  refine BitVec.eq_of_getLsbD_eq fun i hi => ?_
  have hi : i < 32 := hi
  rw [limitField, setSegmentLimit]
  simp only [BitVec.getLsbD_or, BitVec.getLsbD_shiftLeft, BitVec.getLsbD_and,
    BitVec.getLsbD_ushiftRight, hi]
  interval_cases i <;> simp

theorem getSegmentBase_setSegmentLimit (seg : SegDesc) (l : U32) :
    getSegmentBase (setSegmentLimit seg l) = getSegmentBase seg := by
  refine BitVec.eq_of_getLsbD_eq fun i hi => ?_
  have hi : i < 32 := hi
  rw [getSegmentBase, setSegmentLimit, getSegmentBase]
  simp only [BitVec.getLsbD_or, BitVec.getLsbD_shiftLeft, BitVec.getLsbD_and,
    BitVec.getLsbD_ushiftRight, hi]
  interval_cases i <;> simp

theorem attributes_setSegmentLimit (seg : SegDesc) (l : U32) :
    attributes (setSegmentLimit seg l) = attributes seg := by
  refine BitVec.eq_of_getLsbD_eq fun i hi => ?_
  have hi : i < 32 := hi
  rw [attributes, setSegmentLimit, attributes]
  simp only [BitVec.getLsbD_or, BitVec.getLsbD_shiftLeft, BitVec.getLsbD_and,
    BitVec.getLsbD_ushiftRight, hi]
  interval_cases i <;> simp

/-! ## The setter of the base -/

theorem attributes_setSegmentBase (seg : SegDesc) (b : U32) :
    attributes (setSegmentBase seg b) = attributes seg := by
  refine BitVec.eq_of_getLsbD_eq fun i hi => ?_
  have hi : i < 32 := hi
  rw [attributes, setSegmentBase, attributes]
  simp only [BitVec.getLsbD_or, BitVec.getLsbD_shiftLeft, BitVec.getLsbD_and,
    BitVec.getLsbD_ushiftRight, hi]
  interval_cases i <;> simp

/-- The base that is read back has the upper half of `b`, and the second byte of `b` as its
first. -/
theorem getSegmentBase_setSegmentBase (seg : SegDesc) (b : U32) :
    getSegmentBase (setSegmentBase seg b) =
      (b &&& 0xFFFF0000#32) ||| ((b &&& 0xFFFF#32) >>> 8) := by
  refine BitVec.eq_of_getLsbD_eq fun i hi => ?_
  have hi : i < 32 := hi
  rw [getSegmentBase, setSegmentBase]
  simp only [BitVec.getLsbD_or, BitVec.getLsbD_shiftLeft, BitVec.getLsbD_and,
    BitVec.getLsbD_ushiftRight, hi]
  interval_cases i <;> simp

theorem limitField_setSegmentBase (seg : SegDesc) (b : U32) :
    limitField (setSegmentBase seg b) = limitField seg ||| ((b &&& 0xFF#32) <<< 8) := by
  refine BitVec.eq_of_getLsbD_eq fun i hi => ?_
  have hi : i < 32 := hi
  rw [limitField, setSegmentBase, limitField]
  simp only [BitVec.getLsbD_or, BitVec.getLsbD_shiftLeft, BitVec.getLsbD_and,
    BitVec.getLsbD_ushiftRight, hi]
  interval_cases i <;> simp

theorem halves (b : U32) : (b &&& 0xFFFF0000#32) ||| (b &&& 0xFFFF#32) = b := by
  rw [← BitVec.and_or_distrib_left]
  exact BitVec.and_allOnes

theorem getSegmentBase_setSegmentBase_iff (seg : SegDesc) (b : U32) :
    getSegmentBase (setSegmentBase seg b) = b ↔ b &&& 0xFFFF#32 = 0#32 := by
  rw [getSegmentBase_setSegmentBase]
  constructor
  · intro h
    -- the low half is its own second byte
    have hshift : (b &&& 0xFFFF#32) >>> 8 = b &&& 0xFFFF#32 := by
      calc (b &&& 0xFFFF#32) >>> 8
          = ((b &&& 0xFFFF0000#32) ||| ((b &&& 0xFFFF#32) >>> 8)) &&& 0xFFFF#32 := by
            refine BitVec.eq_of_getLsbD_eq fun i hi => ?_
            have hi : i < 32 := hi
            simp only [BitVec.getLsbD_or, BitVec.getLsbD_and, BitVec.getLsbD_ushiftRight]
            interval_cases i <;> simp
        _ = b &&& 0xFFFF#32 := by rw [h]
    have hnat : (b &&& 0xFFFF#32).toNat / 256 = (b &&& 0xFFFF#32).toNat := by
      have := congrArg BitVec.toNat hshift
      rwa [BitVec.toNat_ushiftRight, Nat.shiftRight_eq_div_pow] at this
    refine BitVec.eq_of_toNat_eq ?_
    rw [BitVec.toNat_zero]
    omega
  · intro h
    rw [h, BitVec.zero_ushiftRight]
    have := halves b
    rwa [h] at this

theorem limitField_setSegmentBase_eq (seg : SegDesc) {b : U32} (h : b &&& 0xFFFF#32 = 0#32) :
    limitField (setSegmentBase seg b) = limitField seg := by
  have hlow : b &&& 0xFF#32 = 0#32 := by
    calc b &&& 0xFF#32 = (b &&& 0xFFFF#32) &&& 0xFF#32 := by rw [BitVec.and_assoc]; rfl
      _ = 0#32 := by rw [h, BitVec.zero_and]
  rw [limitField_setSegmentBase, hlow, BitVec.zero_shiftLeft, BitVec.or_zero]

/-! ## The descriptors of a task -/

/-- The DPL has the two bits below the present bit. -/
theorem dpl_access {dpl : U32} (h : dpl < 4) (kind : U32) (hk : kind &&& 0xFFFF00#32 = kind) :
    (dpl <<< 13 ||| 1#32 <<< 15 ||| kind) &&& 0xFFFF00#32 =
      dpl <<< 13 ||| 1#32 <<< 15 ||| kind := by
  have hdpl : (dpl <<< 13) &&& 0xFFFF00#32 = dpl <<< 13 := by
    have hlt : dpl.toNat < 4 := h
    have hcases : dpl = 0 ∨ dpl = 1 ∨ dpl = 2 ∨ dpl = 3 := by
      simp only [← BitVec.toNat_inj]
      change dpl.toNat = 0 ∨ dpl.toNat = 1 ∨ dpl.toNat = 2 ∨ dpl.toNat = 3
      omega
    rcases hcases with rfl | rfl | rfl | rfl <;> decide
  rw [BitVec.and_or_distrib_right, BitVec.and_or_distrib_right, hdpl, hk]
  rfl

theorem tssDesc_sysDesc (addr dpl : U32) :
    tssDesc addr dpl = sysDesc addr 104 (dpl <<< 13 ||| 1#32 <<< 15 ||| 0x9#32 <<< 8) := by
  rw [tssDesc, sysDesc, low_add addr (by decide), or_access]
  rfl

theorem ldtDesc_sysDesc (addr dpl : U32) :
    ldtDesc addr dpl = sysDesc addr 32 (dpl <<< 13 ||| 1#32 <<< 15 ||| 0x2#32 <<< 8) := by
  rw [ldtDesc, sysDesc, low_add addr (by decide), or_access]
  rfl

theorem getSegmentBase_setTssDesc (gdt : Nat → SegDesc) (index : Nat) (addr : U32) {dpl : U32}
    (h : dpl < 4) : getSegmentBase (setTssDesc gdt index addr dpl index) = addr := by
  rw [setTssDesc, Function.update_self, tssDesc_sysDesc]
  exact getSegmentBase_sysDesc addr (by decide) (dpl_access h _ (by decide))

theorem getSegmentBase_setLdtDesc (gdt : Nat → SegDesc) (index : Nat) (addr : U32) {dpl : U32}
    (h : dpl < 4) : getSegmentBase (setLdtDesc gdt index addr dpl index) = addr := by
  rw [setLdtDesc, Function.update_self, ldtDesc_sysDesc]
  exact getSegmentBase_sysDesc addr (by decide) (dpl_access h _ (by decide))

/-! ## The exact condition -/

/-- The descriptors encode and decode faithfully for the bases that are multiples of 64 KB, and
for no others. -/
theorem faithful_iff (seg : SegDesc) (b l a : U32) {dpl : U32} (h : dpl < 4) :
    Faithful seg b l a dpl ↔ b &&& 0xFFFF#32 = 0#32 := by
  constructor
  · intro hf
    exact (getSegmentBase_setSegmentBase_iff seg b).mp hf.base
  · intro hb
    exact
      { base := (getSegmentBase_setSegmentBase_iff seg b).mpr hb
        baseLimit := limitField_setSegmentBase_eq seg hb
        baseAttributes := attributes_setSegmentBase seg b
        limit := limitField_setSegmentLimit seg l
        limitBase := getSegmentBase_setSegmentLimit seg l
        limitAttributes := attributes_setSegmentLimit seg l
        tss := fun gdt index => getSegmentBase_setTssDesc gdt index a h
        ldt := fun gdt index => getSegmentBase_setLdtDesc gdt index a h }

theorem faithful_iff_dpl3 :
    Faithful (userSeg 0xFFF 0xFA 1) 0x8000000 0xFFFFF 0x123456 3 ↔
      0x8000000#32 &&& 0xFFFF#32 = 0#32 :=
  faithful_iff _ _ _ _ (by decide)

/-- With the base 4 KB the base 16 is read back. -/
theorem setSegmentBase_unfaithful :
    ¬ ∀ (seg : SegDesc) (b l a dpl : U32), dpl < 4 → Faithful seg b l a dpl := by
  intro h
  have hbase := (h (userSeg 0xFFF 0xFA 0) 0x1000 0 0 0 (by decide)).base
  have h16 : getSegmentBase (setSegmentBase (userSeg 0xFFF 0xFA 0) 0x1000) = 0x10 := by decide
  rw [h16] at hbase
  exact absurd hbase (by decide)

end Kernel
end CherryOS
