import CherryOS.Lib.Machine

/-!
# Calls that leave a return address

`Cpu.exec` takes a function for what it does between its call and its return.  Where the
function reads its arguments from the stack the return addresses below them count: here a
function is what it does between its entry and its `ret`.
-/

namespace CherryOS
namespace Lib

namespace Cpu

def ret (c : Cpu) : Cpu :=
  { c with regs := { c.regs.withEsp (c.regs.esp + 4) with eip := c.top } }

/-- A call from the instruction before the address `back`. -/
def callAt (back : Word) (body : Cpu → Option Cpu) (c : Cpu) : Option Cpu :=
  (body (c.push back)).map ret

/-- The argument `i` of a C function, at its entry. -/
def param (c : Cpu) (i : Nat) : Word :=
  readWord c.mem (c.regs.esp + BitVec.ofNat 32 (4 * (i + 1)))

end Cpu

namespace Stands

variable {base back w : Word} {c c' : Cpu} {r : Regs} {ws : List Word}

theorem param (h : Stands base c r (back :: ws)) {i : Nat} (hi : ws[i]? = some w) :
    c.param i = w := by
  rw [Cpu.param, h.esp]
  exact h.stack.word hi

/-- A function that keeps the frame it is entered with keeps, with its `ret`, the caller's. -/
theorem ret (h : Stands base c r ws) (hroom : ws.length + 1 < 2 ^ 29)
    (hk : (c.push back).KeepsFrame base c') : c.KeepsFrame base c'.ret := by
  have hesp : (c.push back).regs.esp = c.regs.esp - 4 := rfl
  refine ⟨?_, hk.ebx, hk.esi, hk.edi, hk.ebp, hk.cs, hk.ss, hk.gs, fun k hk' => ?_⟩
  · show c'.regs.esp + 4 = c.regs.esp
    rw [hk.esp, hesp, BitVec.sub_add_cancel]
  · rw [h.esp, sub_sub_cancel, BitVec.toNat_ofNat] at hk'
    have hbyte := hk.mem (k + 4) (by
      have hlen : base - (c.regs.esp - 4) = BitVec.ofNat 32 (4 * (ws.length + 1)) := by
        rw [h.esp, Stack.below, sub_sub_cancel]
      rw [hesp, hlen, BitVec.toNat_ofNat]
      omega)
    have haddr : c.regs.esp - 4 + BitVec.ofNat 32 (k + 4) = c.regs.esp + BitVec.ofNat 32 k := by
      rw [Nat.add_comm, BitVec.ofNat_add, ← BitVec.add_assoc]
      exact congrArg (· + BitVec.ofNat 32 k) (BitVec.sub_add_cancel _ _)
    rw [hesp, haddr] at hbyte
    refine hbyte.trans (writeWord_apply _ _ _ _ ?_)
    have hdist : c.regs.esp + BitVec.ofNat 32 k - (c.regs.esp - 4) = BitVec.ofNat 32 (k + 4) := by
      rw [← haddr, add_sub_cancel_left]
    rw [hdist, BitVec.toNat_ofNat]
    omega

end Stands

end Lib
end CherryOS
