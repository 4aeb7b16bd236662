import CherryOS.Kernel.Frames
import CherryOS.Kernel.ForkShape
import CherryOS.Lib.Bytes

/-!
# Signals

The calls that set what a task does on a signal, and `do_signal`, which delivers one on the
way back to user mode.  User memory is a function of addresses in the segment of `fs`; it is
read and written byte by byte, with nothing said about faults.

`do_signal` saves what the handler will return to on the user stack and sends the task into
the handler by changing the `eip` and the `esp` that `iret` will pop.
-/

namespace CherryOS
namespace Kernel

open Lib Mm

def SIG_DFL : U32 := 0
def SIG_IGN : U32 := 1
def SA_NOMASK : U32 := 0x40000000
def SA_ONESHOT : U32 := 0x80000000

abbrev UserMem := U32 → BitVec 8

namespace SigAction

/-- `sizeof(struct sigaction)` -/
def size : Nat := 16

def ofBytes (x : Nat → BitVec 8) : SigAction where
  saHandler := leWord x
  saMask := leWord fun k => x (4 + k)
  saFlags := leWord fun k => x (8 + k)
  saRestorer := leWord fun k => x (12 + k)

def toBytes (a : SigAction) (k : Nat) : BitVec 8 :=
  if k < 4 then leByte a.saHandler k
  else if k < 8 then leByte a.saMask (k - 4)
  else if k < 12 then leByte a.saFlags (k - 8)
  else leByte a.saRestorer (k - 12)

theorem ofBytes_congr {x y : Nat → BitVec 8} (h : ∀ k < size, x k = y k) :
    ofBytes x = ofBytes y := by
  have hsize : size = 16 := rfl
  rw [ofBytes, ofBytes, leWord_congr fun k hk => h k (by omega),
    leWord_congr fun k hk => h (4 + k) (by omega), leWord_congr fun k hk => h (8 + k) (by omega),
    leWord_congr fun k hk => h (12 + k) (by omega)]

theorem ofBytes_toBytes (a : SigAction) : ofBytes a.toBytes = a := by
  have hhandler : leWord a.toBytes = a.saHandler := by
    rw [← leWord_leByte a.saHandler]
    exact leWord_congr fun k hk => if_pos hk
  have hmask : (leWord fun k => a.toBytes (4 + k)) = a.saMask := by
    rw [← leWord_leByte a.saMask]
    refine leWord_congr fun k hk => ?_
    rw [toBytes, if_neg (by omega), if_pos (by omega), Nat.add_sub_cancel_left]
  have hflags : (leWord fun k => a.toBytes (8 + k)) = a.saFlags := by
    rw [← leWord_leByte a.saFlags]
    refine leWord_congr fun k hk => ?_
    rw [toBytes, if_neg (by omega), if_neg (by omega), if_pos (by omega), Nat.add_sub_cancel_left]
  have hrestorer : (leWord fun k => a.toBytes (12 + k)) = a.saRestorer := by
    rw [← leWord_leByte a.saRestorer]
    refine leWord_congr fun k hk => ?_
    rw [toBytes, if_neg (by omega), if_neg (by omega), if_neg (by omega), Nat.add_sub_cancel_left]
  rw [ofBytes, hhandler, hmask, hflags, hrestorer]

end SigAction

namespace UserMem

/-- `read_from_user` with the size of a `struct sigaction`. -/
def readAction (u : UserMem) (a : U32) : SigAction := .ofBytes fun k => u (a + BitVec.ofNat 32 k)

/-- `write_to_user` with the size of a `struct sigaction`. -/
def writeAction (u : UserMem) (a : U32) (act : SigAction) : UserMem :=
  copyIn u a act.toBytes SigAction.size

/-- `write_fs_dword` -/
def writeDword (u : UserMem) (v a : U32) : UserMem := copyIn u a (leByte v) 4

theorem readAction_writeAction (u : UserMem) (a : U32) (act : SigAction) :
    (u.writeAction a act).readAction a = act := by
  rw [readAction, writeAction]
  refine (SigAction.ofBytes_congr fun k hk => ?_).trans act.ofBytes_toBytes
  exact copyIn_read (by decide) hk

end UserMem

/-! ## The calls that set dispositions -/

/-- The test that `sys_signal` and `sys_sigaction` begin with. -/
def BadSignal (signum : U32) : Prop :=
  signum < 1 ∨ 32 < signum ∨ signum = BitVec.ofNat 32 SIGKILL

instance (signum : U32) : Decidable (BadSignal signum) := inferInstanceAs (Decidable (_ ∨ _))

/-- `signum - 1`, the index of a signal in `sa`. -/
def sigIndex (signum : U32) : Fin 32 := Fin.ofNat 32 (signum.toNat - 1)

def TaskStruct.setSa (t : TaskStruct) (i : Fin 32) (a : SigAction) : TaskStruct :=
  { t with sa := Function.update t.sa i a }

def sysSgetmask (t : TaskStruct) : U32 := t.blocked

def sysSsetmask (newmask : U32) (t : TaskStruct) : TaskStruct × U32 :=
  ({ t with blocked := newmask &&& ~~~sigBit SIGKILL }, t.blocked)

/-- The disposition `sys_signal` installs. -/
def oneShotAction (handler restorer : U32) : SigAction :=
  ⟨handler, 0, SA_ONESHOT ||| SA_NOMASK, restorer⟩

-- The value returned is read from the table after the store.
def sysSignal (signum handler restorer : U32) (t : TaskStruct) : TaskStruct × U32 :=
  if BadSignal signum then (t, -1)
  else
    let t := t.setSa (sigIndex signum) (oneShotAction handler restorer)
    (t, (t.sa (sigIndex signum)).saHandler)

/-- What `sys_sigaction` makes of the mask it has read. -/
def settleMask (i : Fin 32) (a : SigAction) : SigAction :=
  if a.saFlags &&& SA_NOMASK ≠ 0 then { a with saMask := 0 }
  else { a with saMask := a.saMask ||| 1#32 <<< i.val }

def sysSigaction (signum action oldaction : U32) (u : UserMem) (t : TaskStruct) :
    UserMem × TaskStruct × U32 :=
  if BadSignal signum then (u, t, -1)
  else
    let i := sigIndex signum
    let tmp := t.sa i
    let t := t.setSa i (u.readAction action)
    let u := if oldaction ≠ 0 then u.writeAction oldaction tmp else u
    (u, t.setSa i (settleMask i (t.sa i)), 0)

/-! ## `do_signal` -/

/-- The registers on the kernel stack that `do_signal` reads or changes. -/
structure SignalRegs where
  eax : U32
  ecx : U32
  edx : U32
  eip : U32
  cs : U32
  eflags : U32
  esp : U32

/-- `bsf`: the index of the lowest bit that is set. -/
def lowestBit (x : U32) : Option (Fin 32) := (List.finRange 32).find? fun i => x.getLsbD i

/-- The signal `do_signal` takes from a task. -/
def pendingSignal (t : TaskStruct) : Option (Fin 32) := lowestBit (t.signal &&& t.blocked)

def clearSignal (i : Fin 32) (t : TaskStruct) : TaskStruct :=
  { t with signal := t.signal &&& ~~~(1#32 <<< i.val) }

/-- What running the handler of signal `i` does to the record of the task. -/
def enterHandler (i : Fin 32) (t : TaskStruct) : TaskStruct :=
  let t := { t with blocked := t.blocked ||| (t.sa i).saMask }
  if (t.sa i).saFlags &&& SA_ONESHOT ≠ 0 then
    t.setSa i { t.sa i with saHandler := SIG_DFL }
  else t

/-- The frame for the handler on the user stack, and the registers it starts with. -/
def handlerFrame (i : Fin 32) (t : TaskStruct) (regs : SignalRegs) (u : UserMem) :
    UserMem × SignalRegs :=
  let u := u.writeDword regs.eip (regs.esp - 4)
  let u := u.writeDword regs.eflags (regs.esp - 8)
  let u := u.writeDword regs.edx (regs.esp - 12)
  let u := u.writeDword regs.ecx (regs.esp - 16)
  let u := u.writeDword regs.eax (regs.esp - 20)
  let sigNumber := BitVec.ofNat 32 (i.val + 1)
  if (t.sa i).saFlags &&& SA_NOMASK ≠ 0 then
    let u := u.writeDword sigNumber (regs.esp - 24)
    let u := u.writeDword (t.sa i).saRestorer (regs.esp - 28)
    (u, { regs with eip := (t.sa i).saHandler, esp := regs.esp - 28 })
  else
    let u := u.writeDword t.blocked (regs.esp - 24)
    let u := u.writeDword sigNumber (regs.esp - 28)
    let u := u.writeDword (t.sa i).saRestorer (regs.esp - 32)
    (u, { regs with eip := (t.sa i).saHandler, esp := regs.esp - 32 })

/-- The kernel and the memory of the task that is current. -/
structure SigState extends State where
  user : UserMem

namespace SigState

def cur (s : SigState) : TaskStruct := s.task s.current

def setCur (s : SigState) (t : TaskStruct) : SigState :=
  { s with toState := s.toState.setTask s.current t }

/-- The end of `do_signal`, which sends the task into the handler of signal `i`. -/
def runHandler (i : Fin 32) (regs : SignalRegs) (s : SigState) : SigState × SignalRegs :=
  let (u, regs) := handlerFrame i s.cur regs s.user
  ({ s with user := u }.setCur (enterHandler i s.cur), regs)

-- A `do_exit` that returns goes on to the handler, like any other case.
def doSignal (regs : SignalRegs) (s : SigState) : Except Fault (SigState × SignalRegs) :=
  if s.tasksPtr 0 = some s.current then .ok (s, regs)
  else if regs.cs &&& 3 = 0 then .ok (s, regs)
  else match pendingSignal s.cur with
    | none => .ok (s, regs)
    | some i =>
      let s := s.setCur (clearSignal i s.cur)
      if (s.cur.sa i).saHandler = SIG_IGN then .ok (s, regs)
      else if (s.cur.sa i).saHandler = SIG_DFL then
        if i.val + 1 = SIGCHLD then .ok (s, regs)
        else do
          let (t, tr) ← s.toState.doExit (1 <<< Int32.ofNat (i.val + 1))
          match tr with
          | .switchTo _ => .ok ({ s with toState := t }, regs)
          | .back => .ok ({ s with toState := t }.runHandler i regs)
      else .ok (s.runHandler i regs)

end SigState

/-! ## The calls as a system -/

/-- A call that a task makes, or the delivery of a signal to it. -/
inductive SigCall
  | ssetmask (newmask : U32)
  | signal (signum handler restorer : U32)
  | sigaction (signum action oldaction : U32)
  | deliver (regs : SignalRegs)

/-- Any task may make a call or fork; signals are posted to tasks and user memory changes at
any time. -/
inductive SigLabel
  | call (nr : Fin NUMBER_OF_TASKS) (c : SigCall)
  | fork (nr : Fin NUMBER_OF_TASKS) (regs : ForkRegs)
  | post (nr : Fin NUMBER_OF_TASKS) (signals : U32)
  | user (u : UserMem)

namespace SigState

/-- The task of a slot gets the CPU. -/
def enter (s : SigState) (nr : Fin NUMBER_OF_TASKS) : Option SigState :=
  (s.tasksPtr nr).map fun p => { s with current := p }

/-- A call by the current task and the value it returns. -/
def perform (s : SigState) : SigCall → Except Fault (SigState × U32)
  | .ssetmask newmask =>
    let (t, ret) := sysSsetmask newmask s.cur
    .ok (s.setCur t, ret)
  | .signal signum handler restorer =>
    let (t, ret) := sysSignal signum handler restorer s.cur
    .ok (s.setCur t, ret)
  | .sigaction signum action oldaction =>
    let (u, t, ret) := sysSigaction signum action oldaction s.user s.cur
    .ok ({ s with user := u }.setCur t, ret)
  | .deliver regs => do
    let (s, _) ← s.doSignal regs
    .ok (s, 0)

def next (s : SigState) : SigLabel → Option SigState
  | .call nr c => (s.enter nr).bind fun s => ((s.perform c).toOption).map Prod.fst
  | .fork nr regs => (s.enter nr).bind fun s =>
      (State.result (s.toState.copyProcess regs)).map fun t => { s with toState := t }
  | .post nr signals => (s.enter nr).map fun t =>
      { s with toState := s.toState.setTask t.current
                  { t.cur with signal := t.cur.signal ||| signals } }
  | .user u => some { s with user := u }

end SigState

/-- The kernel at boot, with user memory `u`. -/
def Boot.sigState (b : Boot) (u : UserMem) : SigState := { b.state with user := u }

end Kernel
end CherryOS
