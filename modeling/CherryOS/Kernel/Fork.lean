import CherryOS.Kernel.Sched
import CherryOS.Mm.Memory

/-!
# fork

`State` is the state of the kernel that `fork` and `exit` work on.  The LDT that is
loaded, which `get_segment_limit` reads, is that of `current`.  The store through a null
pointer in `copy_process`, when no frame is left for the `task_union`, ends in
`Fault.nullStore`.  The calls of `printk` are left out.
-/

namespace CherryOS
namespace Kernel

open Mm

/-- Byte offsets of two fields in a `task_struct`. -/
def LDT_OFFSET : Nat := 592
def TSS_OFFSET : Nat := 616

def DPL_0 : U32 := 0

structure State extends Tasks where
  img : Image
  lastPid : Int32
  mem : Mem
  gdt : Nat → SegDesc

/-- The registers `copy_process` finds on the kernel stack. -/
structure ForkRegs where
  ebx : U32
  ecx : U32
  edx : U32
  edi : U32
  esi : U32
  ebp : U32
  ds : U32
  es : U32
  fs : U32
  eip : U32
  cs : U32
  eflags : U32
  esp : U32
  ss : U32

namespace Tasks

def setSlot (s : Tasks) (nr : Fin NUMBER_OF_TASKS) (p : Option TaskPtr) : Tasks :=
  { s with tasksPtr := Function.update s.tasksPtr nr p }

@[simp] theorem setSlot_task (s : Tasks) (nr : Fin NUMBER_OF_TASKS) (p : Option TaskPtr) :
    (s.setSlot nr p).task = s.task := rfl

@[simp] theorem setSlot_current (s : Tasks) (nr : Fin NUMBER_OF_TASKS) (p : Option TaskPtr) :
    (s.setSlot nr p).current = s.current := rfl

theorem setSlot_tasksPtr (s : Tasks) (nr i : Fin NUMBER_OF_TASKS) (p : Option TaskPtr) :
    (s.setSlot nr p).tasksPtr i = if i = nr then p else s.tasksPtr i := by
  by_cases h : i = nr <;> simp [setSlot, h]

/-- The slots of the loops that start at 1, in their order. -/
@[irreducible] def userSlots : List (Fin NUMBER_OF_TASKS) :=
  (List.finRange NUMBER_OF_TASKS).filter (· ≠ 0)

theorem mem_userSlots {i : Fin NUMBER_OF_TASKS} : i ∈ userSlots ↔ i ≠ 0 := by
  unfold userSlots
  simp

def HasPid (s : Tasks) (pid : Int32) (i : Fin NUMBER_OF_TASKS) : Prop :=
  ∃ p, s.tasksPtr i = some p ∧ (s.task p).pid = pid

instance (s : Tasks) (pid : Int32) (i : Fin NUMBER_OF_TASKS) : Decidable (s.HasPid pid i) :=
  match h : s.tasksPtr i with
  | none => .isFalse fun ⟨p, hp, _⟩ => by rw [h] at hp; cases hp
  | some p => decidable_of_iff ((s.task p).pid = pid)
      ⟨fun hp => ⟨p, h, hp⟩, fun ⟨q, hq, hpid⟩ => by rw [h] at hq; cases hq; exact hpid⟩

def findPidTask (s : Tasks) (pid : Int32) : Option TaskPtr :=
  (userSlots.find? fun i => s.HasPid pid i).bind s.tasksPtr

/-! ## `find_empty_process` -/

def nextPid (lastPid : Int32) : Int32 := if lastPid + 1 < 0 then 1 else lastPid + 1

/-- The `while(1)` loop, which tries one pid in each turn. -/
def findPid (s : Tasks) : Nat → Int32 → Option Int32
  | 0, _ => none
  | fuel + 1, lastPid =>
    if ∃ i, s.HasPid (nextPid lastPid) i then findPid s fuel (nextPid lastPid)
    else some (nextPid lastPid)

/-- `none` is the 0 that is returned when every slot is taken. -/
def findEmptySlot (s : Tasks) : Option (Fin NUMBER_OF_TASKS) :=
  userSlots.find? fun i => s.tasksPtr i = none

end Tasks

namespace State

def setTask (s : State) (p : TaskPtr) (t : TaskStruct) : State :=
  { s with toTasks := s.toTasks.setTask p t }

def setSlot (s : State) (nr : Fin NUMBER_OF_TASKS) (p : Option TaskPtr) : State :=
  { s with toTasks := s.toTasks.setSlot nr p }

/-- `find_empty_process()`.  One more turn than there are tasks is enough. -/
def findEmptyProcess (s : State) : Except Fault (State × Option (Fin NUMBER_OF_TASKS)) :=
  match s.findPid (NUMBER_OF_TASKS + 1) s.lastPid with
  | none => .error .hang
  | some pid => .ok ({ s with lastPid := pid }, s.findEmptySlot)

/-! ## `copy_mem` -/

def copyMem (nr : Fin NUMBER_OF_TASKS) (p : TaskPtr) (s : State) : Except Fault (State × Int32) :=
  let cur := s.task s.current
  let oldCodeBase := getSegmentBase (cur.ldt 1)
  let oldDataBase := getSegmentBase (cur.ldt 2)
  let oldCodeLimit := getSegmentLimit cur.ldt 0x000F
  let oldDataLimit := getSegmentLimit cur.ldt 0x0017
  let newBase := windowBase nr
  if oldCodeBase ≠ oldDataBase then .error (.panic "segment base error\n")
  else if oldDataLimit < oldCodeLimit then .error (.panic "segment limit error\n")
  else
    let code := setSegmentBase ((s.task p).ldt 1) newBase
    let data := setSegmentBase ((s.task p).ldt 2) newBase
    if nr = 1 then do
      let mem ← s.mem.initTask1Paging
      let ldt := ![(s.task p).ldt 0, setSegmentLimit code 0xFF, setSegmentLimit data 0xFF]
      .ok ({ s.setTask p { s.task p with ldt := ldt } with mem := mem }, 0)
    else do
      let s := s.setTask p { s.task p with ldt := ![(s.task p).ldt 0, code, data] }
      let (mem, ret) ← s.mem.copyPageTables oldDataBase newBase oldDataLimit
      if ret ≠ 0 then
        let mem ← mem.freePageTables newBase oldDataLimit
        .ok ({ s with mem := mem }, -ENOMEM)
      else .ok ({ s with mem := mem }, 0)

/-! ## `copy_process` -/

/-- The record of the child before `copy_mem`, in a page at `page`. -/
def childTask (nr : Fin NUMBER_OF_TASKS) (page : U32) (regs : ForkRegs) (lastPid : Int32)
    (cur : TaskStruct) : TaskStruct :=
  { cur with
    state := .uninterruptible
    pid := lastPid
    father := cur.pid
    ts := cur.priority
    signal := 0
    alarm := 0
    leader := 0
    uts := 0
    kts := 0
    cuts := 0
    ckts := 0
    tss :=
      { cur.tss with
        preTaskLink := 0
        esp0 := page + BitVec.ofNat 32 PAGE_SIZE
        ss0 := KERNEL_SS
        eip := regs.eip
        eflags := regs.eflags
        eax := 0
        ecx := regs.ecx
        edx := regs.edx
        ebx := regs.ebx
        esp := regs.esp
        ebp := regs.ebp
        esi := regs.esi
        edi := regs.edi
        es := regs.es.setWidth 16
        cs := regs.cs.setWidth 16
        ss := regs.ss.setWidth 16
        ds := regs.ds.setWidth 16
        fs := regs.fs.setWidth 16
        gs := 0
        ldt := BitVec.ofNat 16 (ldtSelector nr)
        debugTrap := 0
        ioMapBase := 104 } }

/-- The table entry and the record of the child, before `copy_mem`. -/
def beginChild (regs : ForkRegs) (nr : Fin NUMBER_OF_TASKS) (page : U32) (s : State) : State :=
  let s := s.setSlot nr (some (.frame page))
  s.setTask (.frame page) (childTask nr page regs s.lastPid (s.task s.current))

/-- The descriptors of the child are set and it may run. -/
def finishChild (nr : Fin NUMBER_OF_TASKS) (page : U32) (s : State) : State :=
  let gdt := setTssDesc s.gdt (FIRST_TSS_DESC_INDEX + nr * 2)
    (page + BitVec.ofNat 32 TSS_OFFSET) DPL_0
  let gdt := setLdtDesc gdt (FIRST_LDT_DESC_INDEX + nr * 2)
    (page + BitVec.ofNat 32 LDT_OFFSET) DPL_0
  let s := { s with gdt := gdt }
  s.setTask (.frame page) { s.task (.frame page) with state := .running }

/-- What is left of the child is taken back. -/
def dropChild (nr : Fin NUMBER_OF_TASKS) (page : U32) (s : State) : Except Fault State := do
  let s := s.setSlot nr none
  let mem ← s.mem.freePage page
  .ok { s with mem := mem }

def copyProcess (regs : ForkRegs) (s : State) : Except Fault (State × Int32) := do
  let (s, slot) ← s.findEmptyProcess
  match slot with
  | none => .ok (s, -EAGAIN)
  | some nr =>
    match s.mem.getFreePage with
    | none => .error .nullStore
    | some (page, mem) =>
      let (s, ret) ← ({ s with mem := mem }.beginChild regs nr page).copyMem nr (.frame page)
      if ret ≠ 0 then
        let s ← s.dropChild nr page
        .ok (s, -EAGAIN)
      else
        let s := s.finishChild nr page
        .ok (s, s.lastPid)

end State

end Kernel
end CherryOS
