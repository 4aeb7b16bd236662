/-
The task record and its place in memory.

`TaskStruct` is the `task_struct` of `include/linux/sched.h` with every field the
source declares outside its comments, and `TssData` and `SegDesc` are the two x86
records inside it.  An `int32_t` is an `Int32`, an unsigned word or a mask is a
`BitVec 32`, so that each operation wraps where the hardware does.

A task record is either the static `task0` of the kernel image or the first part
of a page obtained from the page allocator, and `TaskPtr` says which: `frame a` is
the record at physical address `a`.
-/
import Mathlib

namespace CherryOS
namespace Kernel

abbrev U32 := BitVec 32

def NUMBER_OF_TASKS : Nat := 64

instance : NeZero NUMBER_OF_TASKS := ⟨by decide⟩

-- The numerals of the small index types (descriptors of an ldt, bytes of a sector, signals)
-- rest on these.
instance neZeroOne : NeZero 1 := ⟨by decide⟩
instance neZeroTwo : NeZero 2 := ⟨by decide⟩
instance neZeroThree : NeZero 3 := ⟨by decide⟩
instance neZeroFour : NeZero 4 := ⟨by decide⟩
instance neZeroThirtyTwo : NeZero 32 := ⟨by decide⟩
instance neZeroSector : NeZero 512 := ⟨by decide⟩

def PAGE_SIZE : Nat := 4096
def NUM_INT_PS : Int32 := 100

def EPERM : Int32 := 1
def EAGAIN : Int32 := 11
def ENOMEM : Int32 := 12
def EINVAL : Int32 := 22

def SIGHUP : Nat := 1
def SIGKILL : Nat := 9
def SIGALRM : Nat := 14
def SIGCHLD : Nat := 17
def SIGSTOP : Nat := 19

/-- `1 << (sig - 1)`, the bit a signal occupies in a signal word. -/
def sigBit (sig : Nat) : U32 := 1#32 <<< (sig - 1)

def SIG_BLOCKABLE : U32 := ~~~(sigBit SIGKILL ||| sigBit SIGSTOP)

def KERNEL_SS : BitVec 16 := 0x10#16

def FIRST_TSS_DESC_INDEX : Nat := 4
def FIRST_LDT_DESC_INDEX : Nat := FIRST_TSS_DESC_INDEX + 1

/-- `_LDT(task_nr)`, the selector of a task's LDT descriptor. -/
def ldtSelector (nr : Nat) : Nat := (nr * 2 + FIRST_LDT_DESC_INDEX) <<< 3

/-- `_TSS(task_nr)`, the selector of a task's TSS descriptor. -/
def tssSelector (nr : Nat) : Nat := (nr * 2 + FIRST_TSS_DESC_INDEX) <<< 3

structure SegDesc where
  low32 : U32
  high32 : U32
deriving DecidableEq, Repr

inductive TaskState
  | running
  | interruptible
  | uninterruptible
  | zombie
  | stopped
deriving DecidableEq, Repr

structure SigAction where
  saHandler : U32
  saMask : U32
  saFlags : U32
  saRestorer : U32
deriving DecidableEq, Repr

/-- The saved context of a task.  The padding halves of the 16-bit fields hold no
state and are left out, and so are the stacks of the rings the kernel never uses. -/
structure TssData where
  preTaskLink : BitVec 16
  esp0 : U32
  ss0 : BitVec 16
  cr3 : U32
  eip : U32
  eflags : U32
  eax : U32
  ecx : U32
  edx : U32
  ebx : U32
  esp : U32
  ebp : U32
  esi : U32
  edi : U32
  es : BitVec 16
  cs : BitVec 16
  ss : BitVec 16
  ds : BitVec 16
  fs : BitVec 16
  gs : BitVec 16
  ldt : BitVec 16
  debugTrap : BitVec 16
  ioMapBase : BitVec 16
deriving DecidableEq, Repr

structure TaskStruct where
  state : TaskState
  exitCode : Int32
  startTime : Int32
  ts : Int32
  priority : Int32
  signal : U32
  sa : Fin 32 → SigAction
  blocked : U32
  alarm : Int32
  pid : Int32
  father : Int32
  pgrp : Int32
  uid : BitVec 16
  euid : BitVec 16
  suid : BitVec 16
  gid : BitVec 16
  egid : BitVec 16
  sgid : BitVec 16
  session : Int32
  leader : Int32
  uts : U32
  kts : U32
  cuts : U32
  ckts : U32
  ldt : Fin 3 → SegDesc
  tss : TssData

/-- Where a task record lies: `task0` in the kernel image, or a page. -/
inductive TaskPtr
  | task0
  | frame (addr : U32)
deriving DecidableEq, Repr

end Kernel
end CherryOS
