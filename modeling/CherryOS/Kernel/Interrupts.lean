import CherryOS.Kernel.SystemCall
import CherryOS.Kernel.Traps
import CherryOS.Lib.Run
import CherryOS.Lib.Saved

/-!
# Device interrupts and the page fault

`timer_interrupt` and `hd_interrupt` of `kernel/system_call.s` and `page_fault` of `mm/page.s`.
No gate leads to the stub of the keyboard yet.

A program goes on after a device interrupt as if there had been none, whatever the functions
do that the stub calls, as long as they leave its memory and the stack of their caller alone.
For a run of the program this says that its results do not depend on when the devices
interrupt it.

`page_fault` does not take its two arguments off the stack, so every register it pops is two
places off.  It never comes to that: the functions it calls do not return.
-/

namespace CherryOS
namespace Kernel
namespace Interrupts

open Lib

/-- The processor, the variable `do_hd` and what was written to the ports, oldest first. -/
structure Board where
  cpu : Cpu
  doHd : Word
  out : List (BitVec 8 × BitVec 8)

/-- The functions of the kernel by their addresses, `none` from one that does not return. -/
abbrev Calls := Word → Board → Option Board

/-- Where the linker has put things. -/
structure Link where
  doTimerInterrupt : Word
  doSignal : Word
  unexpectedHdInterrupt : Word
  doNoPage : Word
  doWpPage : Word
  timerInterrupt : Word
  hdInterrupt : Word
  pageFault : Word

namespace Board

def onCpu (b : Board) (c : Cpu) : Board := { b with cpu := c }

/-- Instructions that call nothing. -/
def block (is : List Instr) (b : Board) : Option Board :=
  (b.cpu.run { call := fun _ _ => none, data := fun _ => 0 } is).map b.onCpu

def set (r : Reg) (v : Word) (b : Board) : Board := b.onCpu { b.cpu with regs := b.cpu.regs.set v r }

def al (b : Board) : BitVec 8 := b.cpu.regs.eax.setWidth 8

def movAl (v : BitVec 8) (b : Board) : Board :=
  b.set .eax ((b.cpu.regs.eax &&& 0xFFFFFF00) ||| v.setWidth 32)

/-- `out port, al` -/
def outAl (port : BitVec 8) (b : Board) : Board := { b with out := b.out ++ [(port, b.al)] }

end Board

/-! ## The stubs -/

def saveTimer : List Instr :=
  [.push .fs, .push .es, .push .ds, .push .ebp, .push .esi, .push .edi, .push .edx, .push .ecx,
   .push .ebx, .push .eax,
   .movLow .eax 0x10, .movSeg .ds .eax, .movSeg .es .eax,
   .movLow .eax 0x17, .movSeg .fs .eax]

/-- What `ret_from_system_call` pops. -/
def poppedTimer : List Reg := .eax :: SystemCall.savedRegisters

/-- `timer_interrupt` up to the `iret` in `ret_from_system_call`. -/
def timerInterrupt (link : Link) (call : Calls) (b : Board) : Option Board := do
  let b ← b.block saveTimer
  let b := (b.movAl 0x20).outAl 0x20
  let b ← call link.doTimerInterrupt b
  let b ← call link.doSignal b
  b.block (poppedTimer.map .pop)

def saveHd : List Instr :=
  [.push .eax, .push .ecx, .push .edx, .push .ds, .push .es, .push .fs,
   .mov .eax 0x10, .movSeg .ds .eax, .movSeg .es .eax,
   .mov .eax 0x17, .movSeg .fs .eax,
   .mov .edx 0]

def poppedHd : List Reg := [.fs, .es, .ds, .edx, .ecx, .eax]

/-- `xchg [do_hd], edx` -/
def xchgDoHd (b : Board) : Board := { b.set .edx b.doHd with doHd := b.cpu.regs.edx }

def hdInterrupt (link : Link) (call : Calls) (b : Board) : Option Board := do
  let b ← b.block saveHd
  let b := xchgDoHd b
  let b := if b.cpu.regs.edx = 0 then b.set .edx link.unexpectedHdInterrupt else b
  let b ← call b.cpu.regs.edx b
  let b := ((b.movAl 0x20).outAl 0xA0).outAl 0x20
  b.block (poppedHd.map .pop)

/-- `page_fault` up to its call. -/
def savePageFault (cr2 : Word) : List Instr :=
  [.xchg .eax, .push .ebx, .push .ecx, .push .edx, .push .ds, .push .es, .push .fs,
   .movLow .ebx 0x10, .movSeg .ds .ebx, .movSeg .es .ebx,
   .mov .ebx cr2, .push .ebx, .push .eax]

def poppedPageFault : List Reg := [.fs, .es, .ds, .edx, .ecx, .ebx, .eax]

def retPf : List Instr := poppedPageFault.map .pop

def pageFault (link : Link) (call : Calls) (cr2 : Word) (b : Board) : Option Board := do
  let b ← b.block (savePageFault cr2)
  let b ← call (if b.cpu.regs.eax &&& 1 = 0 then link.doNoPage else link.doWpPage) b
  b.block retPf

/-! ## A stub leaves no trace -/

/-- What the functions leave alone that a stub calls. -/
def Leaving (base : Word) (own : Set Word) (call : Calls) : Prop :=
  ∀ f b b', call f b = some b' → Leaves base own b.cpu b'.cpu

/-- The stub is at its `iret`, with everything as it was at its entry with `c₀`. -/
structure Restored (base : Word) (ws : List Word) (own : Set Word) (c₀ c : Cpu) : Prop where
  stands : Stands base c c.regs ws
  same : c.regs.SameTask c₀.regs
  get : ∀ x, c.regs.get x = c₀.regs.get x
  mem : ∀ a ∈ own, c.mem a = c₀.mem a

section
variable {base : Word} {ws : List Word} {own : Set Word} {xs : List Reg} {c₀ : Cpu} {b b' : Board}
  {link : Link} {call : Calls}

theorem Board.block_eq_some {is : List Instr} (h : b.block is = some b') :
    ∃ c, b.cpu.run { call := fun _ _ => none, data := fun _ => 0 } is = some c ∧ b' = b.onCpu c := by
  obtain ⟨c, hc, hb'⟩ := Option.map_eq_some_iff.mp h
  exact ⟨c, hc, hb'.symm⟩

theorem saved_movAl (h : Saved base ws own xs c₀ b.cpu) (hx : .eax ∈ xs) (v : BitVec 8) :
    Saved base ws own xs c₀ (b.movAl v).cpu :=
  h.set hx _

theorem saved_outAl (h : Saved base ws own xs c₀ b.cpu) (port : BitVec 8) :
    Saved base ws own xs c₀ (b.outAl port).cpu :=
  h

theorem saved_of_block {is : List Instr} {r : Regs} (h : Stands base b.cpu b.cpu.regs ws)
    (hblock : Block.run base is (b.cpu.regs, ws) = some (r, xs.map b.cpu.regs.get ++ ws))
    (hkept : ∀ x ∉ xs, r.get x = b.cpu.regs.get x) (hroom : ws.length + is.length ≤ 32)
    (hclear : Clear own base 128) (hrun : b.block is = some b') :
    Saved base ws own xs b.cpu b'.cpu := by
  obtain ⟨c, hc, rfl⟩ := Board.block_eq_some hrun
  have hclear' : Clear own base (4 * (ws.length + is.length)) :=
    fun a ha hnear => hclear a ha (near_mono hnear (by omega))
  obtain ⟨c', hc', hsaved, -⟩ := Saved.of_block h hblock hkept (by omega) hclear' _
  cases hc.symm.trans hc'
  exact hsaved

theorem restored_of_pops (h : Saved base ws own xs c₀ b.cpu)
    (hroom : 2 * xs.length + ws.length ≤ 32) (hclear : Clear own base 128)
    (hrun : b.block (xs.map .pop) = some b') : Restored base ws own c₀ b'.cpu := by
  obtain ⟨c, hc, rfl⟩ := Board.block_eq_some hrun
  have hclear' : Clear own base (4 * (2 * xs.length + ws.length)) :=
    fun a ha hnear => hclear a ha (near_mono hnear (by omega))
  obtain ⟨c', r, hc', hstands, hsame, hget, hmem⟩ := h.restore (by omega) hclear' _
  cases hc.symm.trans hc'
  exact ⟨hstands.self, hstands.sameTask.trans hsame, fun x => (hstands.get x).trans (hget x), hmem⟩

theorem timerInterrupt_restored (hstart : Stands base b.cpu b.cpu.regs ws) (hws : ws.length ≤ 5)
    (hclear : Clear own base 128) (hcall : Leaving base own call)
    (hrun : timerInterrupt link call b = some b') : Restored base ws own b.cpu b'.cpu := by
  simp only [timerInterrupt, Option.bind_eq_bind] at hrun
  obtain ⟨b₁, h₁, hrun⟩ := Option.bind_eq_some_iff.mp hrun
  obtain ⟨b₂, h₂, hrun⟩ := Option.bind_eq_some_iff.mp hrun
  obtain ⟨b₃, h₃, hrun⟩ := Option.bind_eq_some_iff.mp hrun
  have hall : ∀ x : Reg, x ∈ poppedTimer := fun x => by cases x <;> decide
  have hroom : poppedTimer.length + ws.length < 2 ^ 29 := by
    show 10 + ws.length < _
    omega
  have hsaved : Saved base ws own poppedTimer b.cpu b₁.cpu :=
    saved_of_block hstart rfl (fun x hx => absurd (hall x) hx)
      (by show ws.length + 15 ≤ _; omega) hclear h₁
  have heoi := saved_outAl (saved_movAl hsaved (hall .eax) 0x20) 0x20
  have hto := heoi.call (hcall _ _ _ h₂) hroom fun x hx => absurd (hall x) hx
  have hback := hto.call (hcall _ _ _ h₃) hroom fun x hx => absurd (hall x) hx
  exact restored_of_pops hback (by show 20 + ws.length ≤ _; omega) hclear hrun

/-- `ebx`, `esi`, `edi` and `ebp` are left to the function that is called. -/
theorem notMem_poppedHd {x : Reg} (hx : x ∉ poppedHd) :
    x = .ebx ∨ x = .esi ∨ x = .edi ∨ x = .ebp := by
  cases x with
  | ebx | esi | edi | ebp => simp
  | _ => exact absurd (by decide) hx

theorem hdInterrupt_restored (hstart : Stands base b.cpu b.cpu.regs ws) (hws : ws.length ≤ 5)
    (hclear : Clear own base 128) (hcall : Leaving base own call)
    (hrun : hdInterrupt link call b = some b') : Restored base ws own b.cpu b'.cpu := by
  simp only [hdInterrupt, Option.bind_eq_bind] at hrun
  obtain ⟨b₁, h₁, hrun⟩ := Option.bind_eq_some_iff.mp hrun
  obtain ⟨b₂, h₂, hrun⟩ := Option.bind_eq_some_iff.mp hrun
  have hsaved : Saved base ws own poppedHd b.cpu b₁.cpu :=
    saved_of_block hstart rfl
      (fun x hx => by obtain rfl | rfl | rfl | rfl := notMem_poppedHd hx <;> rfl)
      (by show ws.length + 12 ≤ _; omega) hclear h₁
  have hxchg : Saved base ws own poppedHd b.cpu (xchgDoHd b₁).cpu := hsaved.set (by decide) _
  have hto : Saved base ws own poppedHd b.cpu b₂.cpu := by
    split at h₂
    · exact (hxchg.set (by decide) _).call (hcall _ _ _ h₂) (by show 6 + ws.length < _; omega)
        fun x => notMem_poppedHd
    · exact hxchg.call (hcall _ _ _ h₂) (by show 6 + ws.length < _; omega)
        fun x => notMem_poppedHd
  have heoi := saved_outAl (saved_outAl (saved_movAl hto (by decide) 0x20) 0xA0) 0x20
  exact restored_of_pops heoi (by show 12 + ws.length ≤ _; omega) hclear hrun

end

/-! ## A program and the devices -/

inductive Device
  | timer
  | hd
deriving DecidableEq, Repr

namespace Device

def vector : Device → Nat
  | timer => 0x20
  | hd => 0x2E

def handlerAddr (link : Link) : Device → Word
  | timer => link.timerInterrupt
  | hd => link.hdInterrupt

def stub (link : Link) (call : Calls) : Device → Board → Option Board
  | timer => timerInterrupt link call
  | hd => hdInterrupt link call

end Device

def setDevice (link : Link) (idt : Idt) (d : Device) : Idt :=
  setGate idt d.vector .interruptGate KERNEL_CS (d.handlerAddr link) 0

/-- The gates of `sched_init` and `hd_init`. -/
def deviceGates (link : Link) (idt : Idt) : Idt := setDevice link (setDevice link idt .timer) .hd

/-- The program cannot tell the two states apart. -/
structure Same (own : Set Word) (c c' : Cpu) : Prop where
  regs : c.regs = c'.regs
  mem : ∀ a ∈ own, c.mem a = c'.mem a

theorem Same.trans {own : Set Word} {c c' c'' : Cpu} (h : Same own c c') (h' : Same own c' c'') :
    Same own c c'' :=
  ⟨h.regs.trans h'.regs, fun a ha => (h.mem a ha).trans (h'.mem a ha)⟩

/-- Code that sees the registers and the bytes of `own`. -/
structure Program (own : Set Word) where
  step : Cpu → Option Cpu
  sees : ∀ {c d c' : Cpu}, Same own c d → step c = some c' → ∃ d', step d = some d' ∧ Same own c' d'

/-- The program alone, for `n` steps. -/
def Program.run {own : Set Word} (p : Program own) : Nat → Cpu → Option Cpu
  | 0, c => some c
  | n + 1, c => (p.run n c).bind p.step

/-- The program takes a step, or a device interrupts it and the functions of the kernel do what
they do this time. -/
inductive Event
  | step
  | interrupt (d : Device) (call : Calls)

def Event.isStep : Event → Bool
  | .step => true
  | .interrupt _ _ => false

/-- What the table and the task state segment have. -/
structure Setting where
  link : Link
  idt : Idt
  ss0 : BitVec 16
  esp0 : Word

def Setting.entry (k : Setting) (d : Device) : Cpu.Entry :=
  gateEntry (deviceGates k.link k.idt d.vector) k.ss0 k.esp0

section
variable {own : Set Word} (k : Setting) (p : Program own)

inductive Step : Board → Event → Board → Prop
  | step {b : Board} {c : Cpu} (h : p.step b.cpu = some c) : Step b .step (b.onCpu c)
  | interrupt {b b' : Board} {d : Device} {call : Calls}
      (h : d.stub k.link call (b.onCpu (b.cpu.interrupt (k.entry d) [])) = some b') :
      Step b (.interrupt d call) (b'.onCpu b'.cpu.iret)

/-- The functions leave the stack of the stub and the program's bytes alone, and these are not
where the stub's stack is. -/
def Quiet (own : Set Word) (b : Board) : Event → Prop
  | .step => True
  | .interrupt d call => Leaving (b.cpu.frameEnd (k.entry d)) own call ∧
      Clear own (b.cpu.frameEnd (k.entry d)) 128

end

theorem deviceGates_selector (link : Link) (idt : Idt) (d : Device) :
    gateSelector (deviceGates link idt d.vector) = KERNEL_CS := by
  cases d with
  | timer =>
    rw [deviceGates, setDevice, setGate_of_ne _ _ _ _ _ _ (by decide)]
    exact gateSelector_setGate _ _ _ _ _ _
  | hd => exact gateSelector_setGate _ _ _ _ _ _

section
variable {own : Set Word} {k : Setting} {p : Program own} {b b' : Board} {d : Device} {call : Calls}

theorem stub_restored {base : Word} {ws : List Word} (hstart : Stands base b.cpu b.cpu.regs ws)
    (hws : ws.length ≤ 5) (hclear : Clear own base 128) (hcall : Leaving base own call)
    (hrun : d.stub k.link call b = some b') : Restored base ws own b.cpu b'.cpu := by
  cases d with
  | timer => exact timerInterrupt_restored hstart hws hclear hcall hrun
  | hd => exact hdInterrupt_restored hstart hws hclear hcall hrun

/-- At the `iret` of a stub that has restored everything. -/
theorem same_of_restored {e : Cpu.Entry} (hcs : Cpu.level e.cs = 0)
    (hclear : Clear own (b.cpu.frameEnd e) 128)
    (h : Restored (b.cpu.frameEnd e) b.cpu.frame own (b.cpu.interrupt e []) b'.cpu) :
    Traps.Transparent e b.cpu b'.cpu ∧ Same own b.cpu b'.cpu.iret := by
  have hregs := (Cpu.iret_eq_iff hcs h.stands h.same ⟨rfl, rfl, rfl⟩ rfl rfl rfl).mpr
    fun x => (h.get x).trans (b.cpu.interrupt_get e [] x)
  have hstack := h.stands.stack
  have hiret : b'.cpu.iret.mem = b'.cpu.mem := by
    rw [Cpu.iret]
    split <;> rfl
  refine ⟨⟨h.stands.esp, hstack, hregs⟩, hregs.symm, fun a ha => ?_⟩
  have hpushed := hclear.mem (b.cpu.interrupt_away e [] (by decide)) (by decide) a ha
  rw [hiret, h.mem a ha]
  exact hpushed.symm

/-- An interrupt, its stub and its `iret`. -/
theorem same_of_interrupt (hquiet : Quiet k own b (.interrupt d call))
    (hrun : d.stub k.link call (b.onCpu (b.cpu.interrupt (k.entry d) [])) = some b') :
    Traps.Transparent (k.entry d) b.cpu b'.cpu ∧ Same own b.cpu b'.cpu.iret := by
  have hcs : Cpu.level (k.entry d).cs = 0 := by
    show Cpu.level (gateSelector (deviceGates k.link k.idt d.vector)) = 0
    rw [deviceGates_selector]
    decide
  have hstart := b.cpu.interrupt_stands (k.entry d) [] (by decide)
  exact same_of_restored hcs hquiet.2
    (stub_restored (b := b.onCpu _) hstart b.cpu.length_frame hquiet.2 hquiet.1 hrun)

/-- A program goes on with its own steps, whatever interrupts come between them. -/
theorem interrupts_invisible {es : List Event}
    (h : Run (Guarded (Quiet k own) (Step k p)) b es b') :
    ∃ c, p.run (es.countP Event.isStep) b.cpu = some c ∧ Same own c b'.cpu := by
  induction h with
  | nil => exact ⟨b.cpu, rfl, rfl, fun _ _ => rfl⟩
  | @snoc es b₁ b₂ e _ hlast ih =>
    obtain ⟨c, hc, hsame⟩ := ih
    obtain ⟨hquiet, hstep⟩ := hlast
    rw [List.countP_append, List.countP_singleton]
    cases hstep with
    | step hp =>
      obtain ⟨c', hc', hsame'⟩ := p.sees ⟨hsame.regs.symm, fun a ha => (hsame.mem a ha).symm⟩ hp
      refine ⟨c', ?_, hsame'.regs.symm, fun a ha => (hsame'.mem a ha).symm⟩
      show (p.run _ b.cpu).bind p.step = _
      rw [hc]
      exact hc'
    | interrupt hrun => exact ⟨c, hc, hsame.trans (same_of_interrupt hquiet hrun).2⟩

end

/-- A program that counts in `eax` and stores the count. -/
def count : Set Word := fun a => a = 0x1000

def counter : Program count where
  step c := some
    { regs := { c.regs with eax := c.regs.eax + 1 }
      mem := Function.update c.mem 0x1000 (c.regs.eax.setWidth 8) }
  sees := by
    intro c d c' h hc
    cases hc
    refine ⟨_, rfl, ?_, fun a ha => ?_⟩
    · rw [h.regs]
    · show Function.update c.mem 0x1000 (c.regs.eax.setWidth 8) a =
        Function.update d.mem 0x1000 (d.regs.eax.setWidth 8) a
      rw [show a = 0x1000 from ha, h.regs, Function.update_self, Function.update_self]

def someSetting : Setting where
  link := ⟨0x20000, 0x20100, 0x20200, 0x20300, 0x20400, 0x10000, 0x10100, 0x10200⟩
  idt := fun _ => ⟨0, 0⟩
  ss0 := 0x10
  esp0 := 0x9000

def returning : Calls := fun _ b => some b

def start : Board := ⟨Traps.userCpu 6 7, 0, []⟩

def counted : Board :=
  start.onCpu
    { regs := { start.cpu.regs with eax := 2 }, mem := Function.update start.cpu.mem 0x1000 1 }

theorem interrupts_invisible_counter :
    ∃ b, Run (Guarded (Quiet someSetting count) (Step someSetting counter)) start
        [.step, .interrupt .timer returning, .step] b ∧
      ∃ c, counter.run 2 start.cpu = some c ∧ Same count c b.cpu := by
  have hsome : (Device.timer.stub someSetting.link returning
      (counted.onCpu (counted.cpu.interrupt (someSetting.entry .timer) []))).isSome := by
    decide +kernel
  have hend : counted.cpu.frameEnd (someSetting.entry .timer) = 0x9000 := by decide +kernel
  obtain ⟨b, hb⟩ := Option.isSome_iff_exists.mp hsome
  have hleaving : Leaving (counted.cpu.frameEnd (someSetting.entry .timer)) count returning := by
    intro f b b' h
    cases h
    exact Leaves.refl _ _ _
  have hclear : Clear count (counted.cpu.frameEnd (someSetting.entry .timer)) 128 := by
    intro a ha hnear
    rw [hend, show a = 0x1000 from ha] at hnear
    exact absurd hnear.2 (by decide)
  have hquiet : Quiet someSetting count counted (.interrupt .timer returning) := ⟨hleaving, hclear⟩
  have hfirst : Run (Guarded (Quiet someSetting count) (Step someSetting counter)) start [.step]
      counted := Run.single ⟨trivial, .step rfl⟩
  have hsecond := hfirst.snoc ⟨hquiet, .interrupt hb⟩
  have hlast : Guarded (Quiet someSetting count) (Step someSetting counter)
      (b.onCpu b.cpu.iret) .step _ := ⟨trivial, .step rfl⟩
  exact ⟨_, hsecond.snoc hlast, interrupts_invisible (hsecond.snoc hlast)⟩

/-! ## The page fault -/

/-- The entry through the gate `mem_init` sets. -/
def faultEntry (link : Link) (idt : Idt) (ss0 : BitVec 16) (esp0 : Word) : Cpu.Entry :=
  gateEntry (setGate idt 14 .trapGate KERNEL_CS link.pageFault 0 14) ss0 esp0

def faultHandler (link : Link) (error : Word) : Word :=
  if error &&& 1 = 0 then link.doNoPage else link.doWpPage

/-- `page_fault` at its `iret`: each register has the word two places below its own. -/
structure Displaced (e : Cpu.Entry) (error cr2 : Word) (c c' : Cpu) : Prop where
  esp : c'.regs.esp = c.frameStart e - 8
  fs : c'.regs.fs = error.setWidth 16
  es : c'.regs.es = cr2.setWidth 16
  ds : c'.regs.ds = c.regs.fs
  edx : c'.regs.edx = c.regs.es.setWidth 32
  ecx : c'.regs.ecx = c.regs.ds.setWidth 32
  ebx : c'.regs.ebx = c.regs.edx
  eax : c'.regs.eax = c.regs.ecx
  eip : c'.iret.regs.eip = c.regs.ebx
  cs : c'.iret.regs.cs = c.regs.eax.setWidth 16
  eflags : c'.iret.regs.eflags = c.regs.eip

section
variable {base error cr2 : Word} {ws : List Word} {b : Board} {r : Regs}

theorem savePageFault_block (base error cr2 : Word) (r : Regs) (ws : List Word) :
    ∃ r₁, Block.run base (savePageFault cr2) (r, error :: ws) =
        some (r₁, error :: cr2 :: (poppedPageFault.map r.get ++ ws)) ∧ r₁.eax = error :=
  ⟨_, rfl, rfl⟩

/-- The state at the call. -/
theorem pageFault_call (link : Link) (call : Calls) (cr2 : Word) (hws : ws.length ≤ 5)
    (h : Stands base b.cpu b.cpu.regs (error :: ws)) :
    ∃ b₁, Stands base b₁.cpu b₁.cpu.regs
        (error :: cr2 :: (poppedPageFault.map b.cpu.regs.get ++ ws)) ∧
      pageFault link call cr2 b = (call (faultHandler link error) b₁).bind (Board.block retPf) := by
  obtain ⟨r₁, hblock, heax⟩ := savePageFault_block base error cr2 b.cpu.regs ws
  obtain ⟨c, hc, h₁⟩ := run_of_block h (by show ws.length + 1 + 13 < _; omega) hblock
    { call := fun _ _ => none, data := fun _ => 0 }
  have hsave : b.block (savePageFault cr2) = some (b.onCpu c) := by
    rw [Board.block, hc]
    rfl
  have herror : c.regs.eax = error := (h₁.get .eax).trans heax
  refine ⟨b.onCpu c, h₁.self, ?_⟩
  rw [pageFault, hsave, ← herror]
  rfl

theorem iret_words {c : Cpu} {w₀ w₁ w₂ : Word} (h : Stands base c r (w₀ :: w₁ :: w₂ :: ws)) :
    c.iret.regs.eip = w₀ ∧ c.iret.regs.cs = w₁.setWidth 16 ∧ c.iret.regs.eflags = w₂ := by
  have hst := h.stack
  rw [← h.esp] at hst
  have h₀ := hst.word (i := 0) (w := w₀) rfl
  have h₁ := hst.word (i := 1) (w := w₁) rfl
  have h₂ := hst.word (i := 2) (w := w₂) rfl
  rw [Cpu.iret]
  simp only [h₀, h₁, h₂]
  split <;> exact ⟨rfl, rfl, rfl⟩

/-- What the pops of `page_fault` leave when its arguments are still on the stack. -/
theorem retPf_displaced {e : Cpu.Entry} {c : Cpu} (h : Stands (c.frameEnd e) b.cpu b.cpu.regs
      (error :: cr2 :: (poppedPageFault.map c.regs.get ++ c.frame))) :
    ∃ b', b.block retPf = some b' ∧ Displaced e error cr2 c b'.cpu := by
  have hlen := c.length_frame
  obtain ⟨ws, hframe⟩ : ∃ ws, c.frame = c.regs.eip :: ws := ⟨_, rfl⟩
  have hwords : Stands (c.frameEnd e) b.cpu b.cpu.regs
      ([error, cr2, c.regs.get .fs, c.regs.get .es, c.regs.get .ds, c.regs.get .edx,
        c.regs.get .ecx] ++ (c.regs.ebx :: c.regs.eax :: c.frame)) := h
  obtain ⟨c', hc', h'⟩ := run_of_block hwords (by show c.frame.length + 9 + 7 < _; omega)
    (show Block.run _ retPf _ = some (_, c.regs.ebx :: c.regs.eax :: c.frame) from rfl)
    { call := fun _ _ => none, data := fun _ => 0 }
  have hpops : b.block retPf = some (b.onCpu c') := by
    rw [Board.block, hc']
    rfl
  have hesp : c'.regs.esp = c.frameStart e - 8 := by
    rw [h'.esp, List.length_cons, List.length_cons, ← Stack.below, ← Stack.below]
    show c.frameStart e - 4 - 4 = _
    ring
  have hret : c'.iret.regs.eip = c.regs.ebx ∧ c'.iret.regs.cs = c.regs.eax.setWidth 16 ∧
      c'.iret.regs.eflags = c.regs.eip := by
    rw [hframe] at h'
    exact iret_words h'
  refine ⟨_, hpops, hesp, ?_, ?_, ?_, ?_, ?_, ?_, ?_, hret.1, hret.2.1, hret.2.2⟩
  · show c'.regs.fs = _
    rw [h'.regs]
    rfl
  · show c'.regs.es = _
    rw [h'.regs]
    rfl
  · show c'.regs.ds = _
    rw [h'.regs]
    exact setWidth_selector _
  · exact h'.get .edx
  · exact h'.get .ecx
  · exact h'.get .ebx
  · exact h'.get .eax

end

/-- What `page_fault` calls, and what would come of it if the function returned. -/
theorem pageFault_displaced (link : Link) (call : Calls) (idt : Idt) (ss0 : BitVec 16)
    (esp0 cr2 error : Word) (b : Board) :
    ∃ b₁ : Board, Stands (b.cpu.frameEnd (faultEntry link idt ss0 esp0)) b₁.cpu b₁.cpu.regs
        (error :: cr2 :: (poppedPageFault.map b.cpu.regs.get ++ b.cpu.frame)) ∧
      pageFault link call cr2
          (b.onCpu (b.cpu.interrupt (faultEntry link idt ss0 esp0) [error])) =
        (call (faultHandler link error) b₁).bind (Board.block retPf) ∧
      ∀ b₂, call (faultHandler link error) b₁ = some b₂ →
        b₁.cpu.KeepsFrame (b.cpu.frameEnd (faultEntry link idt ss0 esp0)) b₂.cpu →
        ∃ b', pageFault link call cr2
            (b.onCpu (b.cpu.interrupt (faultEntry link idt ss0 esp0) [error])) = some b' ∧
          Displaced (faultEntry link idt ss0 esp0) error cr2 b.cpu b'.cpu ∧
          ¬ Traps.Transparent (faultEntry link idt ss0 esp0) b.cpu b'.cpu := by
  generalize faultEntry link idt ss0 esp0 = e
  have hlen := b.cpu.length_frame
  have hget : (b.cpu.interrupt e [error]).regs.get = b.cpu.regs.get :=
    funext (b.cpu.interrupt_get e _)
  obtain ⟨b₁, h₁, hcall⟩ := pageFault_call (b := b.onCpu (b.cpu.interrupt e [error])) link call cr2
    hlen (b.cpu.interrupt_stands e [error] (le_refl 1))
  have hparams : Stands (b.cpu.frameEnd e) b₁.cpu b₁.cpu.regs
      (error :: cr2 :: (poppedPageFault.map b.cpu.regs.get ++ b.cpu.frame)) := by
    rw [← hget]
    exact h₁
  refine ⟨b₁, hparams, hcall, fun b₂ hb₂ hk => ?_⟩
  have hback := hparams.call hk (by show b.cpu.frame.length + 9 < _; omega)
  obtain ⟨b', hb', hdisplaced⟩ := retPf_displaced hback
  refine ⟨b', ?_, hdisplaced, fun ht => ?_⟩
  · rw [hcall, hb₂]
    exact hb'
  · have hesp : b.cpu.frameStart e - 8 = b.cpu.frameStart e := hdisplaced.esp.symm.trans ht.esp
    exact absurd (sub_eq_self.mp hesp) (by decide)

end Interrupts
end Kernel
end CherryOS
