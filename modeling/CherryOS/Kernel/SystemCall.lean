import CherryOS.Kernel.Gate

/-!
# The system-call gate

`system_call` of `kernel/system_call.s` and the table that `system_call_init` of
`kernel/sys.c` fills.  The flags that `cmp` sets are lost at the `iret`, so the jump is taken
here on the comparison itself.
-/

namespace CherryOS
namespace Kernel
namespace SystemCall

open Lib

/-- The functions that `system_call_init` installs. -/
inductive Syscall
  | sysExit | sysFork | sysBreak | sysGetpid | sysGetuid | sysPtrace | sysAlarm | sysPause
  | sysStty | sysGtty | sysNice | sysFtime | sysKill | sysRename | sysProf | sysGetgid
  | sysSignal | sysGeteuid | sysGetegid | sysAcct | sysPhys | sysLock | sysMpx | sysUlimit
  | sysGetppid | sysSigaction | sysSgetmask | sysSsetmask
deriving DecidableEq, Repr

def NUMBER_OF_SYSCALLS : Word := 72

/-- The assignments of `system_call_init`. -/
def systemCallInit : List (Nat × Syscall) :=
  [(1, .sysExit), (2, .sysFork), (17, .sysBreak), (20, .sysGetpid), (24, .sysGetuid),
   (26, .sysPtrace), (27, .sysAlarm), (29, .sysPause), (31, .sysStty), (32, .sysGtty),
   (34, .sysNice), (35, .sysFtime), (37, .sysKill), (38, .sysRename), (44, .sysProf),
   (47, .sysGetgid), (48, .sysSignal), (49, .sysGeteuid), (50, .sysGetegid), (51, .sysAcct),
   (52, .sysPhys), (53, .sysLock), (56, .sysMpx), (58, .sysUlimit), (64, .sysGetppid),
   (67, .sysSigaction), (68, .sysSgetmask), (69, .sysSsetmask)]

/-- The table after `system_call_init`: a slot that is not assigned keeps its zero. -/
def systemCallTable (nr : Nat) : Option Syscall := systemCallInit.lookup nr

/-- Where the linker has put things. -/
structure Link where
  handler : Syscall → Word
  doSignal : Word
  systemCallTable : Word

/-- The word in a slot of the table. -/
def slotWord (link : Link) (nr : Nat) : Word := (systemCallTable nr).elim 0 link.handler

/-- The kernel with its functions and its table. -/
def kernel (link : Link) (call : Word → Cpu → Option Cpu) : Env :=
  { call := call, data := fun a => slotWord link ((a - link.systemCallTable).toNat / 4) }

/-! ## The code -/

def badSystemCall : List Instr := [.mov .eax (-1)]

def retFromSystemCall (link : Link) : List Instr :=
  [.callImm link.doSignal, .pop .eax, .pop .ebx, .pop .ecx, .pop .edx, .pop .edi, .pop .esi,
   .pop .ebp, .pop .ds, .pop .es, .pop .fs]

/-- The part of `system_call` between its jump and its call. -/
def saveRegisters (link : Link) : List Instr :=
  [.push .fs, .push .es, .push .ds, .push .ebp, .push .esi, .push .edi, .push .edx, .push .ecx,
   .push .ebx,
   .movLow .ebx 0x10, .movSeg .ds .ebx, .movSeg .es .ebx,
   .movLow .ebx 0x17, .movSeg .fs .ebx,
   .mov .ebx link.systemCallTable]

/-- `system_call` up to its `iret`, entered with `eax`. -/
def systemCall (link : Link) (eax : Word) : List Instr :=
  if NUMBER_OF_SYSCALLS - 1 < eax then badSystemCall
  else saveRegisters link ++ .callTable .ebx .eax :: .push .eax :: retFromSystemCall link

/-- `int 0x80` in the code of `c`, whose `eip` is after the instruction. -/
def int80 (idt : Idt) (ss0 : BitVec 16) (esp0 : Word) (c : Cpu) : Cpu :=
  c.interrupt (gateEntry (idt 0x80) ss0 esp0) []

/-- The gate of `system_call_init`. -/
def setSystemGate (idt : Idt) (systemCallAddr : Word) : Idt :=
  setGate idt 0x80 .interruptGate KERNEL_CS systemCallAddr 3

section
variable (link : Link) (call : Word → Cpu → Option Cpu) (e : Cpu.Entry) (c : Cpu)

/-- What is wanted of an entry through `e` from the code of `c`: it calls nothing and comes
back with a negative result, or it calls a function that is installed and comes back with its
result, if that function returns and `do_signal` finds no signal. -/
def Answered : Prop :=
  let start := c.interrupt e []
  let code := systemCall link c.regs.eax
  let env := kernel link call
  (start.calls env code = [] ∧ ∃ c' v, start.run env code = some c' ∧ v.toInt < 0 ∧
    c'.iret.regs = { c.regs with eax := v }) ∨
  ∃ nr f later c₁, systemCallTable nr = some f ∧
    start.calls env code = link.handler f :: later ∧ (∀ a ∈ later, a = link.doSignal) ∧
    start.run env (saveRegisters link) = some c₁ ∧
    ∀ c₂ c₃, call (link.handler f) c₁ = some c₂ →
      call link.doSignal (c₂.push c₂.regs.eax) = some c₃ →
      (c₂.push c₂.regs.eax).KeepsFrame (c.frameEnd e) c₃ →
      ∃ c', start.run env code = some c' ∧ c'.iret.regs = { c.regs with eax := c₂.regs.eax }

end

/-- The registers in the order `ret_from_system_call` pops them after `eax`. -/
def savedRegisters : List Reg := [.ebx, .ecx, .edx, .edi, .esi, .ebp, .ds, .es, .fs]

section
variable {link : Link} {call : Word → Cpu → Option Cpu} {e : Cpu.Entry} {c : Cpu}

theorem kernel_data (link : Link) (call : Word → Cpu → Option Cpu) (nr : Word)
    (h : ¬ NUMBER_OF_SYSCALLS - 1 < nr) :
    (kernel link call).data (link.systemCallTable + 4 * nr) = slotWord link nr.toNat := by
  have hnr : nr.toNat ≤ 71 := not_lt.mp h
  show slotWord link ((link.systemCallTable + 4 * nr - link.systemCallTable).toNat / 4) = _
  rw [add_sub_cancel_left, BitVec.toNat_mul]
  congr 1
  show 4 * nr.toNat % 2 ^ 32 / 4 = _
  omega

theorem saveRegisters_block (link : Link) (base : Word) (r : Regs) (ws : List Word) :
    ∃ r₁, Block.run base (saveRegisters link) (r, ws) =
        some (r₁, savedRegisters.map r.get ++ ws) ∧
      r₁.get .ebx = link.systemCallTable ∧ r₁.get .eax = r.get .eax :=
  ⟨_, rfl, rfl, rfl⟩

/-- The state at the call through the table. -/
theorem saveRegisters_run (link : Link) (call : Word → Cpu → Option Cpu) (e : Cpu.Entry)
    (h : ¬ NUMBER_OF_SYSCALLS - 1 < c.regs.eax) :
    ∃ c₁ r₁, (c.interrupt e []).run (kernel link call) (saveRegisters link) = some c₁ ∧
      (c.interrupt e []).calls (kernel link call) (saveRegisters link) = [] ∧
      Stands (c.frameEnd e) c₁ r₁ (savedRegisters.map c.regs.get ++ c.frame) ∧
      r₁.SameTask (c.interrupt e []).regs ∧
      c₁.target (kernel link call) (.callTable .ebx .eax) =
        some (slotWord link c.regs.eax.toNat) ∧
      c₁.exec (kernel link call) (.callTable .ebx .eax) =
        call (slotWord link c.regs.eax.toNat) c₁ := by
  have hlen := c.length_frame
  have hstart := c.interrupt_stands e [] (by decide)
  have hget : (c.interrupt e []).regs.get = c.regs.get := funext (c.interrupt_get e [])
  obtain ⟨r₁, hblock, hebx, heax⟩ :=
    saveRegisters_block link (c.frameEnd e) (c.interrupt e []).regs c.frame
  rw [hget] at hblock heax
  obtain ⟨c₁, hc₁, h₁⟩ := run_of_block hstart (by show c.frame.length + 15 < _; omega) hblock
    (kernel link call)
  have haddr : (kernel link call).data (c₁.regs.get .ebx + 4 * c₁.regs.get .eax) =
      slotWord link c.regs.eax.toNat := by
    rw [h₁.get, h₁.get, hebx, heax]
    exact kernel_data link call c.regs.eax h
  refine ⟨c₁, r₁, hc₁, Cpu.calls_eq_nil _ rfl _, h₁,
    Block.run_sameTask hblock, congrArg some haddr, ?_⟩
  show call ((kernel link call).data _) c₁ = _
  rw [haddr]

/-- The bound check turns the call down. -/
theorem answered_of_bad (hcs : Cpu.level e.cs = 0) (h : NUMBER_OF_SYSCALLS - 1 < c.regs.eax) :
    Answered link call e c := by
  have hlen := c.length_frame
  have hstart := c.interrupt_stands e [] (by decide)
  have hcode : systemCall link c.regs.eax = badSystemCall := if_pos h
  have hblock : Block.run (c.frameEnd e) badSystemCall ((c.interrupt e []).regs, c.frame) =
      some ((c.interrupt e []).regs.set (-1) .eax, c.frame) := rfl
  have hroom : c.frame.length + badSystemCall.length < 2 ^ 29 := by
    show c.frame.length + 1 < _
    omega
  obtain ⟨c', hc', h'⟩ := run_of_block hstart hroom hblock (kernel link call)
  refine Or.inl ⟨?_, c', -1, ?_, by decide, ?_⟩
  · rw [hcode]
    exact Cpu.calls_eq_nil _ rfl _
  · rw [hcode]
    exact hc'
  · have hsame : ({ c.regs with eax := -1 } : Regs).SameTask c.regs := ⟨rfl, rfl, rfl⟩
    refine (Cpu.iret_eq_iff hcs h' (Block.run_sameTask hblock) hsame rfl rfl rfl).mpr fun x => ?_
    rw [Regs.get_set, c.interrupt_get]
    cases x <;> rfl

/-- After the call through the table only `do_signal` is called. -/
theorem target_doSignal {env : Env} {i : Instr} (hi : i ∈ .push .eax :: retFromSystemCall link)
    {c' : Cpu} {a : Word} (ha : c'.target env i = some a) : a = link.doSignal := by
  have hcall := Cpu.isCall_of_target ha
  have hmem : ∀ i ∈ .push .eax :: retFromSystemCall link, Cpu.isCall i = true →
      i = .callImm link.doSignal := by
    simp [retFromSystemCall, Cpu.isCall]
  rw [hmem i hi hcall] at ha
  exact (Option.some.inj ha).symm

/-- A call within the bound is made through the slot. -/
theorem calls_of_slot (link : Link) (call : Word → Cpu → Option Cpu) (e : Cpu.Entry)
    (h : ¬ NUMBER_OF_SYSCALLS - 1 < c.regs.eax) :
    ∃ later, (c.interrupt e []).calls (kernel link call) (systemCall link c.regs.eax) =
      slotWord link c.regs.eax.toNat :: later ∧ ∀ a ∈ later, a = link.doSignal := by
  obtain ⟨c₁, r₁, hc₁, hnone, -, -, htarget, -⟩ :=
    saveRegisters_run link call e h
  have hcode : systemCall link c.regs.eax = saveRegisters link ++ .callTable .ebx .eax ::
      .push .eax :: retFromSystemCall link := if_neg h
  rw [hcode, Cpu.calls_append, hnone, List.nil_append, hc₁, Option.elim_some, Cpu.calls, htarget]
  refine ⟨_, rfl, fun a ha => ?_⟩
  cases hc₂ : c₁.exec (kernel link call) (.callTable .ebx .eax) with
  | none =>
    rw [hc₂] at ha
    cases ha
  | some c₂ =>
    rw [hc₂, Option.elim_some] at ha
    obtain ⟨i, hi, c', hc'⟩ := Cpu.mem_calls ha
    exact target_doSignal hi hc'

/-- An installed function that keeps the frame, and no signal: back in the caller. -/
theorem returned_of_slot (hcs : Cpu.level e.cs = 0) (h : ¬ NUMBER_OF_SYSCALLS - 1 < c.regs.eax)
    {f : Syscall} (hf : systemCallTable c.regs.eax.toNat = some f) {c₁ c₂ c₃ : Cpu}
    (hc₁ : (c.interrupt e []).run (kernel link call) (saveRegisters link) = some c₁)
    (hc₂ : call (link.handler f) c₁ = some c₂) (hk : c₁.KeepsFrame (c.frameEnd e) c₂)
    (hc₃ : call link.doSignal (c₂.push c₂.regs.eax) = some c₃)
    (hsignal : (c₂.push c₂.regs.eax).KeepsFrame (c.frameEnd e) c₃) :
    ∃ c', (c.interrupt e []).run (kernel link call) (systemCall link c.regs.eax) = some c' ∧
      c'.iret.regs = { c.regs with eax := c₂.regs.eax } := by
  have hlen := c.length_frame
  obtain ⟨c₁', r₁, hc₁', -, h₁, hsame₁, -, hexec⟩ := saveRegisters_run link call e h
  cases hc₁.symm.trans hc₁'
  have hslot : slotWord link c.regs.eax.toNat = link.handler f := by
    rw [slotWord, hf]
    rfl
  rw [hslot] at hexec
  have h₂ := (h₁.call hk (by show c.frame.length + 9 < _; omega)).push
    (by show c.frame.length + 9 < _; omega) c₂.regs.eax
  have h₃ := h₂.call hsignal (by show c.frame.length + 10 < _; omega)
  -- what is popped is what the caller is to see
  obtain ⟨c', r', hc', h', hsame, hget⟩ := Stands.restore (.eax :: savedRegisters)
    ({ c.regs with eax := c₂.regs.eax } : Regs).get h₃
    (fun x => by cases x <;> decide) (by show 20 + c.frame.length < _; omega) (kernel link call)
  refine ⟨c', ?_, ?_⟩
  · have hcode : systemCall link c.regs.eax = saveRegisters link ++ .callTable .ebx .eax ::
        .push .eax :: retFromSystemCall link := if_neg h
    have hpush : c₂.exec (kernel link call) (.push .eax) = some (c₂.push c₂.regs.eax) := rfl
    have hret : (c₂.push c₂.regs.eax).exec (kernel link call) (.callImm link.doSignal) = some c₃ :=
      hc₃
    rw [hcode, Cpu.run_append, hc₁, Option.bind_some, Cpu.run, hexec, hc₂, Option.bind_some,
      Cpu.run, hpush, Option.bind_some, retFromSystemCall, Cpu.run, hret, Option.bind_some]
    exact hc'
  · have hback : ({ c.regs with eax := c₂.regs.eax } : Regs).SameTask c.regs := ⟨rfl, rfl, rfl⟩
    have hall := (hsame.trans (hsignal.sameTask.trans h₂.sameTask)).trans
      ((hk.sameTask.trans h₁.sameTask).trans hsame₁)
    exact (Cpu.iret_eq_iff hcs h' hall hback rfl rfl rfl).mpr fun x =>
      (hget x).trans (Regs.fit_get _ x)

/-- A call through an installed slot. -/
theorem answered_of_slot (hcs : Cpu.level e.cs = 0) (h : ¬ NUMBER_OF_SYSCALLS - 1 < c.regs.eax)
    {f : Syscall} (hf : systemCallTable c.regs.eax.toNat = some f)
    (hkeeps : ∀ c₁ c₂, call (link.handler f) c₁ = some c₂ → c₁.KeepsFrame (c.frameEnd e) c₂) :
    Answered link call e c := by
  obtain ⟨later, hcalls, hlater⟩ := calls_of_slot link call e h
  obtain ⟨c₁, r₁, hc₁, -⟩ := saveRegisters_run link call e h
  have hslot : slotWord link c.regs.eax.toNat = link.handler f := by
    rw [slotWord, hf]
    rfl
  rw [hslot] at hcalls
  exact Or.inr ⟨_, f, later, c₁, hf, hcalls, hlater, hc₁, fun c₂ c₃ hc₂ hc₃ hsignal =>
    returned_of_slot hcs h hf hc₁ hc₂ (hkeeps c₁ c₂ hc₂) hc₃ hsignal⟩

end

theorem systemGate_selector (idt : Idt) (systemCallAddr : Word) :
    gateSelector (setSystemGate idt systemCallAddr 0x80) = KERNEL_CS :=
  gateSelector_setGate _ _ _ _ _ _

/-- The entry through the system gate. -/
def systemEntry (idt : Idt) (systemCallAddr : Word) (ss0 : BitVec 16) (esp0 : Word) : Cpu.Entry :=
  gateEntry (setSystemGate idt systemCallAddr 0x80) ss0 esp0

/-- Which numbers in `eax` the gate answers as wanted. -/
theorem answered_iff (link : Link) (call : Word → Cpu → Option Cpu) (idt : Idt)
    (systemCallAddr : Word) (ss0 : BitVec 16) (esp0 : Word) (c : Cpu)
    (hnull : ∀ f, link.handler f ≠ 0)
    (hkeeps : ∀ f c₁ c₂, call (link.handler f) c₁ = some c₂ →
      c₁.KeepsFrame (c.frameEnd (systemEntry idt systemCallAddr ss0 esp0)) c₂) :
    Answered link call (systemEntry idt systemCallAddr ss0 esp0) c ↔
      NUMBER_OF_SYSCALLS ≤ c.regs.eax ∨ systemCallTable c.regs.eax.toNat ≠ none := by
  have hcs : Cpu.level (systemEntry idt systemCallAddr ss0 esp0).cs = 0 := by
    show Cpu.level (gateSelector _) = 0
    rw [systemGate_selector]
    decide
  have hbound : NUMBER_OF_SYSCALLS ≤ c.regs.eax ↔ NUMBER_OF_SYSCALLS - 1 < c.regs.eax := by
    rw [BitVec.le_def, BitVec.lt_def]
    exact Nat.succ_le_iff
  by_cases h : NUMBER_OF_SYSCALLS - 1 < c.regs.eax
  · exact ⟨fun _ => Or.inl (hbound.mpr h), fun _ => answered_of_bad hcs h⟩
  · rw [hbound, or_iff_right h]
    cases hslot : systemCallTable c.regs.eax.toNat with
    | some f => exact ⟨fun _ => Option.some_ne_none f, fun _ => answered_of_slot hcs h hslot (hkeeps f)⟩
    | none =>
      -- the call goes through the zero of an empty slot
      obtain ⟨later, hcalls, -⟩ :=
        calls_of_slot link call (systemEntry idt systemCallAddr ss0 esp0) h
      have hzero : slotWord link c.regs.eax.toNat = 0 := by
        rw [slotWord, hslot]
        rfl
      rw [hzero] at hcalls
      refine ⟨fun hanswer => ?_, fun hne => absurd rfl hne⟩
      obtain ⟨hnil, -⟩ | ⟨nr, f, later', c₁, -, hcalls', -⟩ := hanswer
      · rw [hcalls] at hnil
        cases hnil
      · rw [hcalls] at hcalls'
        exact absurd (List.cons.inj hcalls').1.symm (hnull f)

/-- A task at level 3 that calls the number `eax`. -/
def userCall (eax : Word) : Cpu :=
  { regs := { eax := eax, ecx := 2, edx := 3, ebx := 4, esi := 6, edi := 5, ebp := 7,
              esp := 0x8000, eip := 0x100, eflags := 0x202,
              cs := 0x0F, ss := 0x17, ds := 0x17, es := 0x17, fs := 0x17, gs := 0 },
    mem := fun _ => 0 }

def callLink : Link :=
  { handler := fun _ => 0x20000, doSignal := 0x30000, systemCallTable := 0x40000 }

def returns (_ : Word) (c : Cpu) : Option Cpu := some c

theorem answered_iff_getpid :
    Answered callLink returns (systemEntry (fun _ => ⟨0, 0⟩) 0x10000 0x10 0x9000) (userCall 20) := by
  refine (answered_iff callLink returns (fun _ => ⟨0, 0⟩) 0x10000 0x10 0x9000 (userCall 20)
    (fun f => show (0x20000 : Word) ≠ 0 by decide) (fun f c₁ c₂ h => ?_)).mpr (Or.inr (by decide))
  cases h
  exact Cpu.KeepsFrame.refl _ c₁

/-- The number of the missing `read` makes the kernel call address 0. -/
theorem read_calls_zero :
    ((userCall 3).interrupt (systemEntry (fun _ => ⟨0, 0⟩) 0x10000 0x10 0x9000) []).calls
        (kernel callLink returns) (systemCall callLink 3) = [0, 0x30000] ∧
      ¬ Answered callLink returns (systemEntry (fun _ => ⟨0, 0⟩) 0x10000 0x10 0x9000)
        (userCall 3) := by
  have hcalls : ((userCall 3).interrupt (systemEntry (fun _ => ⟨0, 0⟩) 0x10000 0x10 0x9000) []).calls
      (kernel callLink returns) (systemCall callLink 3) = [0, 0x30000] := by
    decide +kernel
  refine ⟨hcalls, ?_⟩
  rintro (⟨hnil, -⟩ | ⟨nr, f, later, c₁, -, hcalls', -⟩)
  · cases hcalls.symm.trans hnil
  · have hzero : (0 : Word) = 0x20000 := (List.cons.inj (hcalls.symm.trans hcalls')).1
    exact absurd hzero (by decide)

end SystemCall
end Kernel
end CherryOS
