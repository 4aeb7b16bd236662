import Mathlib
import CherryOS.Kernel.Task

/-!
# Segment descriptors

The functions of `kernel/sched.c` that read and write descriptors, and the `lsl` of
`get_segment_limit`, which reads a descriptor of the LDT that is loaded: the one of
`current`.  `lsl` scales the 20-bit limit when the granularity bit is set.

`userSeg` is the shape every user descriptor of the kernel has: the one `task0` starts
with, moved to a base of 64 MB times the slot and possibly cut to 1 MB.
-/

namespace CherryOS
namespace Kernel

def getSegmentBase (seg : SegDesc) : U32 :=
  (((seg.high32 >>> 24) &&& 0xFF) <<< 24) ||| ((seg.high32 &&& 0xFF) <<< 16) |||
    ((seg.low32 >>> 16) &&& 0xFFFF)

def setSegmentBase (seg : SegDesc) (newBase : U32) : SegDesc :=
  { low32 := (seg.low32 &&& 0x0000FFFF) ||| ((newBase &&& 0xFFFF) <<< 8),
    high32 := ((seg.high32 &&& 0x00FFFF00) ||| ((newBase >>> 16) &&& 0xFF)) |||
      (((newBase >>> 24) &&& 0xFF) <<< 24) }

def setSegmentLimit (seg : SegDesc) (newLimit : U32) : SegDesc :=
  { low32 := (seg.low32 &&& 0xFFFF0000) ||| (newLimit &&& 0xFFFF),
    high32 := (seg.high32 &&& 0xFFF0FFFF) ||| (((newLimit >>> 16) &&& 0xF) <<< 16) }

/-- The limit `lsl` loads from a descriptor. -/
def segmentLimit (seg : SegDesc) : U32 :=
  let raw := (seg.low32 &&& 0xFFFF) ||| (seg.high32 &&& 0x000F0000)
  if seg.high32 &&& 0x00800000 ≠ 0 then (raw <<< 12) ||| 0xFFF else raw

/-- `get_segment_limit(selector)` for a selector of the loaded LDT: bits 3 and up are the
index. -/
def getSegmentLimit (ldt : Fin 3 → SegDesc) (selector : Nat) : U32 :=
  segmentLimit (ldt (Fin.ofNat 3 (selector >>> 3)))

/-- The descriptor `set_tss_desc` stores. -/
def tssDesc (addr dpl : U32) : SegDesc :=
  { low32 := ((addr &&& 0xFFFF) <<< 16) + 104,
    high32 := (((addr &&& 0xFF000000) >>> 24) <<< 24) ||| (dpl <<< 13) ||| (1 <<< 15) |||
      (0x9 <<< 8) ||| ((addr &&& 0xFF0000) >>> 16) }

/-- The descriptor `set_ldt_desc` stores. -/
def ldtDesc (addr dpl : U32) : SegDesc :=
  { low32 := ((addr &&& 0xFFFF) <<< 16) + 32,
    high32 := (((addr &&& 0xFF000000) >>> 24) <<< 24) ||| (dpl <<< 13) ||| (1 <<< 15) |||
      (0x2 <<< 8) ||| ((addr &&& 0xFF0000) >>> 16) }

def setTssDesc (gdt : Nat → SegDesc) (index : Nat) (addr dpl : U32) : Nat → SegDesc :=
  Function.update gdt index (tssDesc addr dpl)

def setLdtDesc (gdt : Nat → SegDesc) (index : Nat) (addr dpl : U32) : Nat → SegDesc :=
  Function.update gdt index (ldtDesc addr dpl)

/-! ## User descriptors -/

/-- The linear base of the window of slot `nr`: `task_nr * 0x4000000`. -/
def windowBase (nr : Nat) : U32 := BitVec.ofNat 32 nr * 0x4000000#32

/-- A user descriptor with limit field `limit`, type byte `kind` and the base of slot
`nr`. -/
def userSeg (limit kind : U32) (nr : Nat) : SegDesc :=
  { low32 := limit, high32 := 0xC00000#32 ||| (kind <<< 8) ||| (BitVec.ofNat 32 (4 * nr) <<< 24) }

/-- The limit fields in use: 16 MB for task 0, 1 MB for task 1 and its descendants. -/
def UserLimit (limit : U32) : Prop := limit = 0xFFF ∨ limit = 0xFF

/-- The type bytes of the code and the data descriptor. -/
def UserKind (kind : U32) : Prop := kind = 0xFA ∨ kind = 0xF2

theorem getSegmentBase_userSeg {limit kind : U32} (hl : UserLimit limit) (hk : UserKind kind)
    {nr : Nat} (hn : nr < 64) : getSegmentBase (userSeg limit kind nr) = windowBase nr := by
  rcases hl with rfl | rfl <;> rcases hk with rfl | rfl <;> interval_cases nr <;> decide

theorem setSegmentBase_userSeg {limit kind : U32} (hl : UserLimit limit) (hk : UserKind kind)
    {nr nr' : Nat} (hn : nr < 64) (hn' : nr' < 64) :
    setSegmentBase (userSeg limit kind nr) (windowBase nr') = userSeg limit kind nr' := by
  have hmask : (0xC00000#32 ||| (kind <<< 8) ||| (BitVec.ofNat 32 (4 * nr) <<< 24)) &&&
      0x00FFFF00 = 0xC00000#32 ||| (kind <<< 8) := by
    rcases hk with rfl | rfl <;> interval_cases nr <;> decide
  have hhigh : (userSeg limit kind nr).high32 &&& 0x00FFFF00 = 0xC00000#32 ||| (kind <<< 8) :=
    hmask
  rw [setSegmentBase, hhigh]
  show SegDesc.mk ((limit &&& 0x0000FFFF) ||| _) _ = _
  rcases hl with rfl | rfl <;> rcases hk with rfl | rfl <;> interval_cases nr' <;> decide

theorem setSegmentLimit_userSeg {limit kind : U32} (hl : UserLimit limit) (hk : UserKind kind)
    {nr : Nat} (hn : nr < 64) :
    setSegmentLimit (userSeg limit kind nr) 0xFF = userSeg 0xFF kind nr := by
  rcases hl with rfl | rfl <;> rcases hk with rfl | rfl <;> interval_cases nr <;> decide

theorem segmentLimit_userSeg {limit kind : U32} (hl : UserLimit limit) (hk : UserKind kind)
    {nr : Nat} (hn : nr < 64) :
    segmentLimit (userSeg limit kind nr) = if limit = 0xFFF then 0xFFFFFF else 0xFFFFF := by
  rcases hl with rfl | rfl <;> rcases hk with rfl | rfl <;> interval_cases nr <;> decide

end Kernel
end CherryOS
