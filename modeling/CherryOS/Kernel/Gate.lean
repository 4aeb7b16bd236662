import CherryOS.Kernel.Task
import CherryOS.Lib.Machine

/-!
# Gates

`set_gate` of `kernel/traps.c`, and what the processor reads from the two words of a gate
when an interrupt goes through it.
-/

namespace CherryOS
namespace Kernel

open Lib

inductive GateType
  | interruptGate
  | trapGate
deriving DecidableEq, Repr

/-- The numbers of `enum GATE_TYPE`. -/
def GateType.code : GateType → U32
  | interruptGate => 0xE
  | trapGate => 0xF

def KERNEL_CS : BitVec 16 := 0x0008

abbrev Idt := Nat → SegDesc

def setGate (idt : Idt) (index : Nat) (type : GateType) (codeSegSel : BitVec 16)
    (handlerAddr : U32) (dpl : U32) : Idt :=
  let low := (codeSegSel.setWidth 32 <<< 16) ||| (handlerAddr &&& 0x0000FFFF)
  let high := (handlerAddr &&& 0xFFFF0000) ||| (1 <<< 15) ||| (dpl <<< 13) ||| (type.code <<< 8)
  Function.update idt index { low32 := low, high32 := high }

/-! ## The processor's side -/

def gateOffset (d : SegDesc) : U32 := (d.low32 &&& 0xFFFF) ||| (d.high32 &&& 0xFFFF0000)

def gateSelector (d : SegDesc) : BitVec 16 := (d.low32 >>> 16).setWidth 16

/-- The flags a gate clears: the trap flag and others, and `IF` if it is an interrupt gate. -/
def gateMask (d : SegDesc) : U32 :=
  if (d.high32 >>> 8) &&& 0xF = 0xE then 0x00034300 else 0x00034100

/-- An interrupt through a gate, with the stack the task state segment names. -/
def gateEntry (d : SegDesc) (ss0 : BitVec 16) (esp0 : U32) : Cpu.Entry :=
  { cs := gateSelector d, ss := ss0, esp := esp0, handler := gateOffset d, mask := gateMask d }

section
variable (idt : Idt) (index : Nat) (type : GateType) (sel : BitVec 16) (addr dpl : U32)

theorem gateOffset_setGate (hdpl : dpl &&& 3 = dpl) :
    gateOffset (setGate idt index type sel addr dpl index) = addr := by
  rw [setGate, Function.update_self, gateOffset, ← hdpl]
  refine BitVec.eq_of_getLsbD_eq fun i hi => ?_
  have hi : i < 32 := hi
  simp only [BitVec.getLsbD_or, BitVec.getLsbD_shiftLeft, BitVec.getLsbD_and]
  cases type <;> interval_cases i <;> simp [GateType.code]

theorem gateSelector_setGate : gateSelector (setGate idt index type sel addr dpl index) = sel := by
  rw [setGate, Function.update_self, gateSelector]
  refine BitVec.eq_of_getLsbD_eq fun i hi => ?_
  have hi : i < 16 := hi
  simp only [BitVec.getLsbD_setWidth, BitVec.getLsbD_ushiftRight, BitVec.getLsbD_or,
    BitVec.getLsbD_shiftLeft, BitVec.getLsbD_and]
  interval_cases i <;> simp

theorem setGate_of_ne {i : Nat} (h : i ≠ index) : setGate idt index type sel addr dpl i = idt i :=
  Function.update_of_ne h _ _

end

end Kernel
end CherryOS
