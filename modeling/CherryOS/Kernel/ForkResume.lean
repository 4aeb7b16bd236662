import CherryOS.Kernel.ForkShape
import CherryOS.Kernel.Frames
import CherryOS.Kernel.SystemCall
import CherryOS.Lib.CallFrame

/-!
# The child resumes as its parent

The arguments of `copy_process` are what the processor and `system_call` have pushed before
the two calls that lead to it, and `unused` is the address the first of these returns to.
What a task switch loads from the TSS of the child is what its parent goes on with, but for
`eax`, and for `gs`, which the child starts without.
-/

namespace CherryOS
namespace Kernel

open Mm Lib SystemCall

/-! ## The arguments -/

/-- The parameters of `copy_process` after `unused`, at its entry. -/
def ForkRegs.ofParams (c : Cpu) : ForkRegs where
  ebx := c.param 1
  ecx := c.param 2
  edx := c.param 3
  edi := c.param 4
  esi := c.param 5
  ebp := c.param 6
  ds := c.param 7
  es := c.param 8
  fs := c.param 9
  eip := c.param 10
  cs := c.param 11
  eflags := c.param 12
  esp := c.param 13
  ss := c.param 14

/-- The arguments that a fork by the code of `r` should have. -/
def ForkRegs.ofRegs (r : Regs) : ForkRegs where
  ebx := r.ebx
  ecx := r.ecx
  edx := r.edx
  edi := r.edi
  esi := r.esi
  ebp := r.ebp
  ds := r.ds.setWidth 32
  es := r.es.setWidth 32
  fs := r.fs.setWidth 32
  eip := r.eip
  cs := r.cs.setWidth 32
  eflags := r.eflags
  esp := r.esp
  ss := r.ss.setWidth 32

/-- The code a fork runs.  `afterCall` and `afterCopy` are the return addresses of the call in
`system_call` and of that in `sys_fork`, which consists of it and a `ret`. -/
structure ForkCode where
  link : Link
  call : Word → Cpu → Option Cpu
  copyProcess : Cpu → Option Cpu
  afterCall : Word
  afterCopy : Word
  sysFork : call (link.handler .sysFork) = Cpu.callAt afterCall (Cpu.callAt afterCopy copyProcess)

namespace ForkCode

variable (k : ForkCode) (e : Cpu.Entry) (c : Cpu)

/-- The state at the call through the table. -/
def atCall : Option Cpu := (c.interrupt e []).run (kernel k.link k.call) (saveRegisters k.link)

/-- The state in which `copy_process` is entered. -/
def entry (c₁ : Cpu) : Cpu := (c₁.push k.afterCall).push k.afterCopy

end ForkCode

variable {k : ForkCode} {e : Cpu.Entry} {c c₁ c₂ c₃ : Cpu} {s s' : State} {ret : Int32}

/-- The frame of an interrupt at user level has the user's stack in it. -/
theorem frame_of_user (h : Cpu.level c.regs.cs = 3) :
    c.frame = [c.regs.eip, c.regs.cs.setWidth 32, c.regs.eflags, c.regs.esp,
      c.regs.ss.setWidth 32] := by
  rw [Cpu.frame, if_neg]
  · rfl
  · rw [h]
    decide

theorem not_bad_of_fork (hnr : c.regs.eax = 2) : ¬ NUMBER_OF_SYSCALLS - 1 < c.regs.eax := by
  rw [hnr]
  decide

theorem stands_atCall (hnr : c.regs.eax = 2) (hc₁ : k.atCall e c = some c₁) :
    ∃ r₁, Stands (c.frameEnd e) c₁ r₁ (savedRegisters.map c.regs.get ++ c.frame) := by
  obtain ⟨c₁', r₁, hc₁', -, h₁, -⟩ := saveRegisters_run k.link k.call e (not_bad_of_fork hnr)
  cases hc₁.symm.trans hc₁'
  exact ⟨r₁, h₁⟩

/-- Word for word the two layouts agree. -/
theorem ofParams_entry (huser : Cpu.level c.regs.cs = 3) (hnr : c.regs.eax = 2)
    (hc₁ : k.atCall e c = some c₁) : ForkRegs.ofParams (k.entry c₁) = ForkRegs.ofRegs c.regs := by
  have hframe := frame_of_user huser
  obtain ⟨r₁, h₁⟩ := stands_atCall hnr hc₁
  have hlen : (savedRegisters.map c.regs.get ++ c.frame).length = 14 := by
    rw [hframe]
    rfl
  have hentry : Stands (c.frameEnd e) (k.entry c₁) r₁
      (k.afterCopy :: k.afterCall :: (savedRegisters.map c.regs.get ++ c.frame)) :=
    (h₁.push (by omega) k.afterCall).push (by rw [List.length_cons]; omega) k.afterCopy
  rw [hframe] at hentry
  simp only [ForkRegs.ofParams, ForkRegs.ofRegs, ForkRegs.mk.injEq]
  exact ⟨hentry.param rfl, hentry.param rfl, hentry.param rfl, hentry.param rfl,
    hentry.param rfl, hentry.param rfl, hentry.param rfl, hentry.param rfl, hentry.param rfl,
    hentry.param rfl, hentry.param rfl, hentry.param rfl, hentry.param rfl, hentry.param rfl⟩

/-! ## The child -/

/-- What a switch to the task loads. -/
def TssData.regs (t : TssData) : Regs where
  eax := t.eax
  ecx := t.ecx
  edx := t.edx
  ebx := t.ebx
  esi := t.esi
  edi := t.edi
  ebp := t.ebp
  esp := t.esp
  eip := t.eip
  eflags := t.eflags
  cs := t.cs
  ss := t.ss
  ds := t.ds
  es := t.es
  fs := t.fs
  gs := t.gs

/-- A call of `copy_process` has made the task `pid`, which is to go on with the registers `r`
and has its kernel stack to itself. -/
structure Child (s s' : State) (pid : Int32) (r : Regs) (nr : Fin NUMBER_OF_TASKS) (page : U32) :
    Prop where
  vacant : s.tasksPtr nr = none
  slot : s'.tasksPtr nr = some (.frame page)
  pid : (s'.task (.frame page)).pid = pid
  regs : (s'.task (.frame page)).tss.regs = r
  ss0 : (s'.task (.frame page)).tss.ss0 = KERNEL_SS
  esp0 : (s'.task (.frame page)).tss.esp0 = page + BitVec.ofNat 32 PAGE_SIZE

theorem copyMem_lastPid {nr : Fin NUMBER_OF_TASKS} {p : TaskPtr} {t : State}
    (h : s.copyMem nr p = .ok (t, ret)) : t.lastPid = s.lastPid := by
  unfold State.copyMem at h
  dsimp only at h
  split at h
  · cases h
  · split at h
    · cases h
    · split at h
      · obtain ⟨m, _, hm⟩ := bind_eq_ok h
        cases hm
        rfl
      · obtain ⟨⟨m, r⟩, _, hm⟩ := bind_eq_ok h
        dsimp only at hm
        split at hm
        · obtain ⟨m', _, hm'⟩ := bind_eq_ok hm
          cases hm'
          rfl
        · cases hm
          rfl

/-- The record that `copy_process` has begun, with nothing but its segments and its state
changed. -/
theorem child_of_copyProcess {r : Regs} (hok : ret ≠ -EAGAIN)
    (h : s.copyProcess (ForkRegs.ofRegs r) = .ok (s', ret)) :
    ∃ nr page, Child s s' ret { r with eax := 0, gs := 0 } nr page := by
  cases State.copyProcess_path h with
  | full _ _ _ hret => exact absurd hret hok
  | dropped _ _ _ _ _ _ _ _ _ _ _ hret => exact absurd hret hok
  | child pid nr page mem t hslot hpage hcopy hs hret =>
    have hseg := State.copyMem_shape hcopy
    obtain ⟨ldt, hself⟩ := hseg.self
    rw [State.beginChild_task, if_pos rfl] at hself
    have htask : s'.task (.frame page) = { t.task (.frame page) with state := .running } := by
      rw [hs, State.finishChild_task, if_pos rfl]
    rw [hself] at htask
    have hlast : s'.lastPid = pid := by
      rw [hs]
      exact copyMem_lastPid hcopy
    refine ⟨nr, page, (State.slot_of_findEmptySlot hslot).1, ?_, ?_, ?_, ?_, ?_⟩
    · have hptr : s'.tasksPtr = t.tasksPtr := by
        rw [hs]
        rfl
      rw [hptr, hseg.tasksPtr]
      exact Function.update_self _ _ _
    · rw [htask, hret, hlast]
      rfl
    · rw [htask]
      simp only [TssData.regs, State.childTask, ForkRegs.ofRegs, setWidth_selector]
    · rw [htask]
      rfl
    · rw [htask]
      rfl

/-! ## The fork -/

/-- A fork by the code of `c`: `copy_process` is entered in `k.entry c₁`, does on the state of
the kernel what its source says, and is left in `c₂`; then `do_signal` finds no signal and
returns in `c₃`. -/
structure Forks (k : ForkCode) (e : Cpu.Entry) (c : Cpu) (s s' : State) (ret : Int32)
    (c₁ c₂ c₃ : Cpu) : Prop where
  atCall : k.atCall e c = some c₁
  copies : s.copyProcess (ForkRegs.ofParams (k.entry c₁)) = .ok (s', ret)
  returns : k.copyProcess (k.entry c₁) = some c₂
  result : c₂.regs.eax = ret.toBitVec
  keeps : (k.entry c₁).KeepsFrame (c.frameEnd e) c₂
  signal : k.call k.link.doSignal (c₂.ret.ret.push ret.toBitVec) = some c₃
  noSignal : (c₂.ret.ret.push ret.toBitVec).KeepsFrame (c.frameEnd e) c₃

/-- The parent is back where it was. -/
theorem parent_returns (hcs : Cpu.level e.cs = 0) (hnr : c.regs.eax = 2)
    (h : Forks k e c s s' ret c₁ c₂ c₃) :
    ∃ c', (c.interrupt e []).run (kernel k.link k.call) (systemCall k.link c.regs.eax) = some c' ∧
      c'.iret.regs = { c.regs with eax := ret.toBitVec } := by
  obtain ⟨r₁, h₁⟩ := stands_atCall hnr h.atCall
  have hlen := c.length_frame
  have hroom : (savedRegisters.map c.regs.get ++ c.frame).length ≤ 14 := by
    rw [List.length_append]
    show 9 + c.frame.length ≤ 14
    omega
  have htable : systemCallTable c.regs.eax.toNat = some .sysFork := by
    rw [hnr]
    rfl
  have hcall : k.call (k.link.handler .sysFork) c₁ = some c₂.ret.ret := by
    rw [k.sysFork, Cpu.callAt, Cpu.callAt]
    show ((k.copyProcess (k.entry c₁)).map Cpu.ret).map Cpu.ret = _
    rw [h.returns]
    rfl
  -- the inner call first, then the outer one
  have hinner : (c₁.push k.afterCall).KeepsFrame (c.frameEnd e) c₂.ret :=
    (h₁.push (by omega) k.afterCall).ret (by rw [List.length_cons]; omega) h.keeps
  have houter : c₁.KeepsFrame (c.frameEnd e) c₂.ret.ret := h₁.ret (by omega) hinner
  have heax : c₂.ret.ret.regs.eax = ret.toBitVec := h.result
  obtain ⟨c', hrun, hregs⟩ := returned_of_slot hcs (not_bad_of_fork hnr) htable h.atCall hcall
    houter (by rw [heax]; exact h.signal) (by rw [heax]; exact h.noSignal)
  rw [heax] at hregs
  exact ⟨c', hrun, hregs⟩

/-- After a fork that succeeds the child is to go on as its parent does, but for `eax`, which
is 0 in the child and the child's pid in the parent. -/
theorem fork_resumes (k : ForkCode) (idt : Idt) (systemCallAddr : Word) (ss0 : BitVec 16)
    (esp0 : Word) (huser : Cpu.level c.regs.cs = 3) (hnr : c.regs.eax = 2)
    (h : Forks k (systemEntry idt systemCallAddr ss0 esp0) c s s' ret c₁ c₂ c₃)
    (hok : ret ≠ -EAGAIN) :
    (∃ nr page, Child s s' ret { c.regs with eax := 0, gs := 0 } nr page) ∧
    ∃ c', (c.interrupt (systemEntry idt systemCallAddr ss0 esp0) []).run (kernel k.link k.call)
        (systemCall k.link c.regs.eax) = some c' ∧
      c'.iret.regs = { c.regs with eax := ret.toBitVec } := by
  have hcs : Cpu.level (systemEntry idt systemCallAddr ss0 esp0).cs = 0 := by
    show Cpu.level (gateSelector _) = 0
    rw [systemGate_selector]
    decide
  have hcopies := h.copies
  rw [ofParams_entry huser hnr h.atCall] at hcopies
  exact ⟨child_of_copyProcess hok hcopies, parent_returns hcs hnr h⟩

/-! ## A fork that succeeds -/

def returnsOne (c : Cpu) : Option Cpu := some { c with regs := { c.regs with eax := 1 } }

/-- A kernel whose `copy_process` returns 1 and changes nothing of the stack it is called on. -/
def firstFork : ForkCode where
  link := callLink
  call := fun a =>
    if a = 0x20000 then Cpu.callAt 0x10040 (Cpu.callAt 0x10080 returnsOne) else some
  copyProcess := returnsOne
  afterCall := 0x10040
  afterCopy := 0x10080
  sysFork := if_pos rfl

/-- The first fork of task 0, after the start. -/
theorem fork_resumes_first : ∃ s' c₁ c₂ c₃ c',
    Forks firstFork (systemEntry (fun _ => ⟨0, 0⟩) 0x10000 0x10 0x9000) (userCall 2)
      bootOf16MB.state s' 1 c₁ c₂ c₃ ∧
    (∃ nr page, Child bootOf16MB.state s' 1 { (userCall 2).regs with eax := 0, gs := 0 } nr page) ∧
    ((userCall 2).interrupt (systemEntry (fun _ => ⟨0, 0⟩) 0x10000 0x10 0x9000) []).run
      (kernel firstFork.link firstFork.call) (systemCall firstFork.link 2) = some c' ∧
    c'.iret.regs = { (userCall 2).regs with eax := 1 } := by
  have hcheck : (bootOf16MB.state.copyProcess (ForkRegs.ofRegs (userCall 2).regs)).toOption.any
      (fun r => r.2 = 1) = true := by
    decide +kernel
  obtain ⟨⟨s', ret⟩, hok, hret⟩ := (Option.any_eq_true _ _).mp hcheck
  cases of_decide_eq_true hret
  have hcopies : bootOf16MB.state.copyProcess (ForkRegs.ofRegs (userCall 2).regs) = .ok (s', 1) := by
    cases hres : bootOf16MB.state.copyProcess (ForkRegs.ofRegs (userCall 2).regs) with
    | error f =>
      rw [hres] at hok
      cases hok
    | ok r =>
      rw [hres] at hok
      cases hok
      rfl
  obtain ⟨c₁, r₁, hc₁, -⟩ := saveRegisters_run (c := userCall 2) firstFork.link firstFork.call
    (systemEntry (fun _ => ⟨0, 0⟩) 0x10000 0x10 0x9000) (not_bad_of_fork rfl)
  have hsignal : ∀ c, firstFork.call firstFork.link.doSignal c = some c := fun c => by
    show (if (0x30000 : Word) = 0x20000 then Cpu.callAt 0x10040 (Cpu.callAt 0x10080 returnsOne)
      else some) c = some c
    rw [if_neg (by decide)]
  have hforks : Forks firstFork (systemEntry (fun _ => ⟨0, 0⟩) 0x10000 0x10 0x9000) (userCall 2)
      bootOf16MB.state s' 1 c₁ _ _ :=
    { atCall := hc₁
      copies := by
        rw [ofParams_entry (by decide) rfl hc₁]
        exact hcopies
      returns := rfl
      result := rfl
      keeps := ⟨rfl, rfl, rfl, rfl, rfl, rfl, rfl, rfl, fun _ _ => rfl⟩
      signal := hsignal _
      noSignal := Cpu.KeepsFrame.refl _ _ }
  obtain ⟨hchild, c', hrun, hregs⟩ := fork_resumes firstFork (fun _ => ⟨0, 0⟩) 0x10000 0x10 0x9000
    (by decide) rfl hforks (by decide)
  exact ⟨s', c₁, _, _, c', hforks, hchild, hrun, hregs⟩

end Kernel
end CherryOS
