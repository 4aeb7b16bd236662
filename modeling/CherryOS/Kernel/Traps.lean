import CherryOS.Kernel.Gate

/-!
# The exception stubs

The entry stubs of `kernel/asm.s`, their two shared tails, and `trap_init`, which puts them
in the interrupt table.  A `jmp` to a tail is the tail put after the stub.
-/

namespace CherryOS
namespace Kernel
namespace Traps

open Lib

/-! ## The tails -/

/-- `no_error_code`, up to its call. -/
def saveNoErrorCode : List Instr :=
  [.push .ebx, .push .ecx, .push .edx, .push .edi, .push .esi, .push .ebp,
   .push .ds, .push .es, .push .fs, .pushImm 0,
   .lea .ebx (4 * 11), .push .ebx,
   .movLow .edx 0x10, .movSeg .ds .edx, .movSeg .es .edx]

def restoreNoErrorCode : List Instr :=
  [.drop 2, .pop .fs, .pop .es, .pop .ds, .pop .ebp, .pop .esi, .pop .edi,
   .pop .edx, .pop .ecx, .pop .ebx, .pop .eax]

def noErrorCode : List Instr := saveNoErrorCode ++ .call .eax :: restoreNoErrorCode

/-- `error_code`, up to its call. -/
def saveErrorCode : List Instr :=
  [.push .ecx, .push .edx, .push .edi, .push .esi, .push .ebp,
   .push .ds, .push .es, .push .fs, .push .eax,
   .lea .eax (4 * 11), .push .eax,
   .movLow .eax 0x10, .movSeg .ds .eax, .movSeg .es .eax]

-- `esi` comes before `ebp`, which was pushed after it.
def restoreErrorCode : List Instr :=
  [.drop 2, .pop .fs, .pop .es, .pop .ds, .pop .esi, .pop .ebp, .pop .edi,
   .pop .edx, .pop .ecx, .pop .ebx, .pop .eax]

def errorCode : List Instr := saveErrorCode ++ .call .ebx :: restoreErrorCode

/-! ## The stubs -/

/-- The functions of `kernel/traps.c` that the stubs call. -/
inductive Handler
  | doDivideError0 | doDebug1 | doNmi2 | doInt3_3 | doOverflow4 | doBounds5 | doInvalidOp6
  | doDeviceNotAvailable7 | doDoubleFault8 | doInvalidTSS10 | doSegmentNotPresent11
  | doStackSegmentError12 | doGeneralProtection13 | doCoprocessorError16
deriving DecidableEq, Repr

inductive Stub
  | divideError0 | debug1 | nmi2 | int3_3 | overflow4 | bounds5 | invalidOp6
  | deviceNotAvailable7 | doubleFault8 | invalidTSS10 | segmentNotPresent11
  | stackSegmentError12 | generalProtection13 | coprocessorError16
deriving DecidableEq, Repr

/-- Where the linker has put things. -/
structure Link where
  handler : Handler → Word
  stub : Stub → Word

def noErrorStub (f : Word) : List Instr := [.push .eax, .mov .eax f] ++ noErrorCode

def errorStub (f : Word) : List Instr := [.xchg .eax, .push .ebx, .mov .ebx f] ++ errorCode

section
variable (link : Link)

def divideError0 : List Instr := noErrorStub (link.handler .doDivideError0)
def debug1 : List Instr := noErrorStub (link.handler .doDebug1)
def nmi2 : List Instr := noErrorStub (link.handler .doNmi2)
def int3_3 : List Instr := noErrorStub (link.handler .doInt3_3)
def overflow4 : List Instr := noErrorStub (link.handler .doOverflow4)
def bounds5 : List Instr := noErrorStub (link.handler .doBounds5)
def invalidOp6 : List Instr := noErrorStub (link.handler .doInvalidOp6)
def deviceNotAvailable7 : List Instr := noErrorStub (link.handler .doDeviceNotAvailable7)
def doubleFault8 : List Instr := noErrorStub (link.handler .doDoubleFault8)
def invalidTSS10 : List Instr := errorStub (link.handler .doInvalidTSS10)
def segmentNotPresent11 : List Instr := errorStub (link.handler .doSegmentNotPresent11)
def stackSegmentError12 : List Instr := errorStub (link.handler .doStackSegmentError12)
def generalProtection13 : List Instr := errorStub (link.handler .doGeneralProtection13)
def coprocessorError16 : List Instr := errorStub (link.handler .doCoprocessorError16)

/-- The code of a stub, up to its `iret`. -/
def Stub.code : Stub → List Instr
  | divideError0 => Traps.divideError0 link
  | debug1 => Traps.debug1 link
  | nmi2 => Traps.nmi2 link
  | int3_3 => Traps.int3_3 link
  | overflow4 => Traps.overflow4 link
  | bounds5 => Traps.bounds5 link
  | invalidOp6 => Traps.invalidOp6 link
  | deviceNotAvailable7 => Traps.deviceNotAvailable7 link
  | doubleFault8 => Traps.doubleFault8 link
  | invalidTSS10 => Traps.invalidTSS10 link
  | segmentNotPresent11 => Traps.segmentNotPresent11 link
  | stackSegmentError12 => Traps.stackSegmentError12 link
  | generalProtection13 => Traps.generalProtection13 link
  | coprocessorError16 => Traps.coprocessorError16 link

end

/-! ## `trap_init` -/

/-- The gates `trap_init` sets: vector, stub and `dpl`. -/
def trapGates : List (Nat × Stub × U32) :=
  [(0, .divideError0, 0), (1, .debug1, 0), (2, .nmi2, 0), (3, .int3_3, 3), (4, .overflow4, 3),
   (5, .bounds5, 3), (6, .invalidOp6, 0), (7, .deviceNotAvailable7, 0), (8, .doubleFault8, 0),
   (10, .invalidTSS10, 0), (11, .segmentNotPresent11, 0), (12, .stackSegmentError12, 0),
   (13, .generalProtection13, 0), (16, .coprocessorError16, 0)]

def setTrap (link : Link) (idt : Idt) (g : Nat × Stub × U32) : Idt :=
  setGate idt g.1 .trapGate KERNEL_CS (link.stub g.2.1) g.2.2

def trapInit (link : Link) (idt : Idt) : Idt := trapGates.foldl (setTrap link) idt

/-- The words the processor pushes below the frame of an exception. -/
def errorWords (v : Nat) (error : Word) : List Word :=
  if v ∈ [8, 10, 11, 12, 13, 14, 17] then [error] else []

/-- At the `iret` that ends in `c'`, after an interrupt of `c`: the stack pointer is where the
frame was put, the frame is there, and all registers come back. -/
structure Transparent (e : Cpu.Entry) (c c' : Cpu) : Prop where
  esp : c'.regs.esp = c.frameStart e
  frame : Stack c'.mem (c.frameStart e) c.frame
  regs : c'.iret.regs = c.regs

/-! ## What the stubs do -/

/-- The registers in the order the tails pop them. -/
def poppedNoErrorCode : List Reg := [.fs, .es, .ds, .ebp, .esi, .edi, .edx, .ecx, .ebx, .eax]

def poppedErrorCode : List Reg := [.fs, .es, .ds, .esi, .ebp, .edi, .edx, .ecx, .ebx, .eax]

/-- The register whose value `error_code` restores into another. -/
def swapped : Reg → Reg
  | .esi => .ebp
  | .ebp => .esi
  | x => x

section
variable {base f : Word} {env : Env} {c c' : Cpu} {r : Regs} {w : Word} {ws : List Word}

theorem noErrorStub_run (h : Stands base c r ws) (hws : ws.length ≤ 6)
    (hkeeps : ∀ a c₁ c₂, env.call a c₁ = some c₂ → c₁.KeepsFrame base c₂)
    (hrun : c.run env (noErrorStub f) = some c') :
    ∃ r', Stands base c' r' ws ∧ r'.SameTask r ∧ ∀ x, r'.get x = r.get x := by
  obtain ⟨c₁, c₂, -, -, -, h₂, hsame, hrest⟩ :=
    call_in_block ([.push .eax, .mov .eax f] ++ saveNoErrorCode) (.call .eax)
      ([_, 0] ++ (poppedNoErrorCode.map r.get ++ ws)) h rfl
      (by show _ + 17 < _; omega) (by show ws.length + 12 < _; omega) (fun c₁ c₂ => hkeeps _ c₁ c₂)
      hrun
  obtain ⟨c₃, r', hc₃, h', hsame', hget⟩ := h₂.dropRestore (fun x => by cases x <;> decide)
    (by show 2 + 20 + ws.length < _; omega) env
  cases hrest.symm.trans hc₃
  exact ⟨r', h', hsame'.trans hsame, fun x => (hget x).trans (r.fit_get x)⟩

/-- `error_code` takes one word off the stack, and `esi` and `ebp` change places. -/
theorem errorStub_run (h : Stands base c r (w :: ws)) (hws : ws.length ≤ 5)
    (hkeeps : ∀ a c₁ c₂, env.call a c₁ = some c₂ → c₁.KeepsFrame base c₂)
    (hrun : c.run env (errorStub f) = some c') :
    ∃ r', Stands base c' r' ws ∧ r'.SameTask r ∧ ∀ x, r'.get x = r.get (swapped x) := by
  obtain ⟨c₁, c₂, -, -, -, h₂, hsame, hrest⟩ :=
    call_in_block ([.xchg .eax, .push .ebx, .mov .ebx f] ++ saveErrorCode) (.call .ebx)
      ([_, w] ++ (poppedErrorCode.map (r.get ∘ swapped) ++ ws)) h rfl
      (by show ws.length + 1 + 17 < _; omega) (by show ws.length + 12 < _; omega)
      (fun c₁ c₂ => hkeeps _ c₁ c₂) hrun
  obtain ⟨c₃, r', hc₃, h', hsame', hget⟩ := h₂.dropRestore (fun x => by cases x <;> decide)
    (by show 2 + 20 + ws.length < _; omega) env
  cases hrest.symm.trans hc₃
  refine ⟨r', h', hsame'.trans hsame, fun x => (hget x).trans ?_⟩
  cases x with
  | esi => exact r.fit_get .ebp
  | ebp => exact r.fit_get .esi
  | _ => exact r.fit_get _

/-- Each gate leads to a stub that starts with one of the two heads. -/
theorem code_of_mem {v : Nat} {s : Stub} {dpl : U32} (link : Link) (h : (v, s, dpl) ∈ trapGates) :
    (v ≤ 8 ∧ ∃ f, s.code link = noErrorStub f) ∨
      ((10 ≤ v ∧ v ≤ 13 ∨ v = 16) ∧ ∃ f, s.code link = errorStub f) := by
  simp only [trapGates, List.mem_cons, List.not_mem_nil, or_false, Prod.mk.injEq] at h
  obtain h | h | h | h | h | h | h | h | h | h | h | h | h | h := h <;> obtain ⟨rfl, rfl, -⟩ := h
  iterate 9 exact Or.inl ⟨by decide, _, rfl⟩
  iterate 5 exact Or.inr ⟨by decide, _, rfl⟩

end

/-! ## The table -/

theorem setTraps_of_notMem (link : Link) (gs : List (Nat × Stub × U32)) (idt : Idt) {v : Nat}
    (h : v ∉ gs.map Prod.fst) : gs.foldl (setTrap link) idt v = idt v := by
  induction gs generalizing idt with
  | nil => rfl
  | cons g gs ih =>
    rw [List.map_cons, List.mem_cons, not_or] at h
    rw [List.foldl_cons, ih _ h.2]
    exact setGate_of_ne _ _ _ _ _ _ h.1

theorem setTraps_of_mem (link : Link) (gs : List (Nat × Stub × U32)) (idt : Idt)
    (hnodup : (gs.map Prod.fst).Nodup) {g : Nat × Stub × U32} (h : g ∈ gs) :
    ∃ idt', gs.foldl (setTrap link) idt g.1 = setTrap link idt' g g.1 := by
  induction gs generalizing idt with
  | nil => cases h
  | cons g' gs ih =>
    rw [List.map_cons, List.nodup_cons] at hnodup
    rw [List.foldl_cons]
    obtain rfl | h := List.mem_cons.mp h
    · exact ⟨idt, setTraps_of_notMem link gs _ hnodup.1⟩
    · exact ih _ hnodup.2 h

/-- An exception at an installed vector goes to its stub in the kernel's code. -/
theorem trapInit_gate (link : Link) (idt : Idt) {v : Nat} {s : Stub} {dpl : U32}
    (h : (v, s, dpl) ∈ trapGates) : gateOffset (trapInit link idt v) = link.stub s ∧
      gateSelector (trapInit link idt v) = KERNEL_CS := by
  have hdpl : dpl &&& 3 = dpl := by
    have hall : ∀ g ∈ trapGates, g.2.2 &&& 3 = g.2.2 := by decide
    exact hall _ h
  obtain ⟨idt', hidt⟩ := setTraps_of_mem link trapGates idt (by decide) h
  have hset : trapInit link idt v =
    setGate idt' v .trapGate KERNEL_CS (link.stub s) dpl v := hidt
  rw [hset]
  exact ⟨gateOffset_setGate _ _ _ _ _ _ hdpl, gateSelector_setGate _ _ _ _ _ _⟩

/-! ## Transparency -/

section
variable {link : Link} {env : Env} {e : Cpu.Entry} {error f : Word} {v : Nat} {c c' : Cpu}

/-- Two stacks that end at one place and start at one place have the same length. -/
theorem length_eq_of_esp {base : Word} {m n : Nat} (hm : m < 2 ^ 29) (hn : n < 2 ^ 29)
    (h : base - BitVec.ofNat 32 (4 * m) = base - BitVec.ofNat 32 (4 * n)) : m = n := by
  have hnat := congrArg BitVec.toNat (sub_right_inj.mp h)
  rw [BitVec.toNat_ofNat, BitVec.toNat_ofNat] at hnat
  omega

theorem length_errorWords (v : Nat) (error : Word) : (errorWords v error).length ≤ 1 := by
  rw [errorWords]
  split
  · exact le_refl 1
  · exact Nat.zero_le 1

theorem noErrorCode_transparent_iff (hcs : Cpu.level e.cs = 0)
    (hkeeps : ∀ a c₁ c₂, env.call a c₁ = some c₂ → c₁.KeepsFrame (c.frameEnd e) c₂)
    (hrun : (c.interrupt e (errorWords v error)).run env (noErrorStub f) = some c') :
    Transparent e c c' ↔ errorWords v error = [] := by
  have hlen := c.length_frame
  have herror := length_errorWords v error
  obtain ⟨r', h', hsame, hget⟩ := noErrorStub_run (c.interrupt_stands e _ herror)
    (by rw [List.length_append]; omega) hkeeps hrun
  refine ⟨fun ht => ?_, fun hnil => ?_⟩
  · have hesp := length_eq_of_esp (by rw [List.length_append]; omega) (by omega)
      (h'.esp.symm.trans ht.esp)
    rw [List.length_append] at hesp
    exact List.eq_nil_of_length_eq_zero (by omega)
  · rw [hnil, List.nil_append] at h'
    have hregs := (Cpu.iret_eq_iff hcs h' hsame ⟨rfl, rfl, rfl⟩ rfl rfl rfl).mpr fun x =>
      (hget x).trans (c.interrupt_get e _ x)
    exact ⟨h'.esp, h'.stack, hregs⟩

theorem errorCode_transparent_iff (hcs : Cpu.level e.cs = 0)
    (hkeeps : ∀ a c₁ c₂, env.call a c₁ = some c₂ → c₁.KeepsFrame (c.frameEnd e) c₂)
    (hrun : (c.interrupt e (errorWords v error)).run env (errorStub f) = some c') :
    Transparent e c c' ↔ errorWords v error ≠ [] ∧ c.regs.esi = c.regs.ebp := by
  have hlen := c.length_frame
  have hstart := c.interrupt_stands e _ (length_errorWords v error)
  cases hw : errorWords v error with
  | nil =>
    -- the word taken off is the `eip` of the frame
    rw [hw] at hstart hrun
    obtain ⟨ws, hframe⟩ : ∃ ws, c.frame = c.regs.eip :: ws := ⟨_, rfl⟩
    rw [List.nil_append, hframe] at hstart
    rw [hframe, List.length_cons] at hlen
    obtain ⟨r', h', -, -⟩ := errorStub_run hstart (by omega) hkeeps hrun
    refine ⟨fun ht => ?_, fun h => absurd rfl h.1⟩
    have hstart' : c'.regs.esp = c.frameEnd e - BitVec.ofNat 32 (4 * (ws.length + 1)) := by
      rw [ht.esp, Cpu.frameStart, hframe, List.length_cons]
    have hesp := length_eq_of_esp (by omega) (by omega) (h'.esp.symm.trans hstart')
    omega
  | cons w us =>
    have hus : us = [] := by
      have hone := length_errorWords v error
      rw [hw, List.length_cons] at hone
      exact List.eq_nil_of_length_eq_zero (by omega)
    rw [hw, hus] at hstart hrun
    obtain ⟨r', h', hsame, hget⟩ := errorStub_run hstart hlen hkeeps hrun
    have hiff := Cpu.iret_eq_iff hcs h' hsame ⟨rfl, rfl, rfl⟩ rfl rfl rfl
    have hval : ∀ x, r'.get x = c.regs.get (swapped x) := fun x =>
      (hget x).trans (c.interrupt_get e _ _)
    refine ⟨fun ht => ⟨List.cons_ne_nil w us, ?_⟩, fun ⟨_, heq⟩ => ⟨h'.esp, h'.stack, ?_⟩⟩
    · exact (hiff.mp ht.regs .esi).symm.trans (hval .esi)
    · refine hiff.mpr fun x => (hval x).trans ?_
      cases x with
      | esi => exact heq.symm
      | ebp => exact heq
      | _ => rfl

end

/-- The entry through an exception's gate. -/
def trapEntry (link : Link) (idt : Idt) (ss0 : BitVec 16) (esp0 : Word) (v : Nat) : Cpu.Entry :=
  gateEntry (trapInit link idt v) ss0 esp0

/-- Which exceptions leave no trace in the interrupted code, when the function that handles
them returns. -/
theorem trap_transparent_iff (link : Link) (env : Env) (idt : Idt) (ss0 : BitVec 16) (esp0 : Word)
    {v : Nat} {s : Stub} {dpl : U32} (hv : (v, s, dpl) ∈ trapGates) (error : Word) {c c' : Cpu}
    (hkeeps : ∀ a c₁ c₂, env.call a c₁ = some c₂ →
      c₁.KeepsFrame (c.frameEnd (trapEntry link idt ss0 esp0 v)) c₂)
    (hrun : (c.interrupt (trapEntry link idt ss0 esp0 v) (errorWords v error)).run env
      (s.code link) = some c') :
    Transparent (trapEntry link idt ss0 esp0 v) c c' ↔
      v ≤ 7 ∨ 10 ≤ v ∧ v ≤ 13 ∧ c.regs.esi = c.regs.ebp := by
  have hcs : Cpu.level (trapEntry link idt ss0 esp0 v).cs = 0 := by
    show Cpu.level (gateSelector _) = 0
    rw [(trapInit_gate link idt hv).2]
    decide
  have hpushes : errorWords v error = [] ↔ v ∉ [8, 10, 11, 12, 13, 14, 17] := by
    rw [errorWords]
    split <;> simp_all
  obtain ⟨hv', f, hf⟩ | ⟨hv', f, hf⟩ := code_of_mem link hv <;> rw [hf] at hrun
  · rw [noErrorCode_transparent_iff hcs hkeeps hrun, hpushes]
    have hlow : ¬ 10 ≤ v := by omega
    simp only [List.mem_cons, List.not_mem_nil, or_false, hlow, false_and]
    omega
  · rw [errorCode_transparent_iff hcs hkeeps hrun, Ne, hpushes, ← and_assoc]
    have hlow : ¬ v ≤ 7 := by omega
    simp only [List.mem_cons, List.not_mem_nil, or_false, hlow, false_or]
    refine and_congr_left fun _ => ?_
    omega

/-- A task at level 3. -/
def userCpu (esi ebp : Word) : Cpu :=
  { regs := { eax := 1, ecx := 2, edx := 3, ebx := 4, esi := esi, edi := 5, ebp := ebp,
              esp := 0x8000, eip := 0x100, eflags := 0x202,
              cs := 0x0F, ss := 0x17, ds := 0x17, es := 0x17, fs := 0x17, gs := 0 },
    mem := fun _ => 0 }

def someLink : Link := { handler := fun _ => 0x20000, stub := fun _ => 0x10000 }

/-- Handlers that return at once. -/
def returnsAtOnce : Env := { call := fun _ c => some c, data := fun _ => 0 }

theorem trap_transparent_iff_breakpoint :
    ∃ c', ((userCpu 6 7).interrupt (trapEntry someLink (fun _ => ⟨0, 0⟩) 0x10 0x9000 3)
        (errorWords 3 0)).run returnsAtOnce (Stub.int3_3.code someLink) = some c' ∧
      Transparent (trapEntry someLink (fun _ => ⟨0, 0⟩) 0x10 0x9000 3) (userCpu 6 7) c' := by
  have hsome : (((userCpu 6 7).interrupt (trapEntry someLink (fun _ => ⟨0, 0⟩) 0x10 0x9000 3)
      (errorWords 3 0)).run returnsAtOnce (Stub.int3_3.code someLink)).isSome := by
    decide +kernel
  obtain ⟨c', hrun⟩ := Option.isSome_iff_exists.mp hsome
  refine ⟨c', hrun, (trap_transparent_iff someLink returnsAtOnce (fun _ => ⟨0, 0⟩) 0x10 0x9000
    (show (3, Stub.int3_3, 3) ∈ trapGates by decide) 0 (fun a c₁ c₂ h => ?_) hrun).mpr
      (Or.inl (by decide))⟩
  cases h
  exact Cpu.KeepsFrame.refl _ c₁

/-- A general protection fault returns to the task with `esi` and `ebp` exchanged. -/
theorem general_protection_swaps :
    ∃ c', ((userCpu 6 7).interrupt (trapEntry someLink (fun _ => ⟨0, 0⟩) 0x10 0x9000 13)
        (errorWords 13 0)).run returnsAtOnce (Stub.generalProtection13.code someLink) = some c' ∧
      c'.iret.regs = { (userCpu 6 7).regs with esi := 7, ebp := 6 } ∧
      ¬ Transparent (trapEntry someLink (fun _ => ⟨0, 0⟩) 0x10 0x9000 13) (userCpu 6 7) c' := by
  have hregs : (((userCpu 6 7).interrupt (trapEntry someLink (fun _ => ⟨0, 0⟩) 0x10 0x9000 13)
      (errorWords 13 0)).run returnsAtOnce (Stub.generalProtection13.code someLink)).map
        (fun c' => c'.iret.regs) = some { (userCpu 6 7).regs with esi := 7, ebp := 6 } := by
    decide +kernel
  obtain ⟨c', hrun, hc'⟩ := Option.map_eq_some_iff.mp hregs
  refine ⟨c', hrun, hc', fun ht => ?_⟩
  have hesi := congrArg Regs.esi (hc'.symm.trans ht.regs)
  exact absurd hesi (by decide)

end Traps
end Kernel
end CherryOS
