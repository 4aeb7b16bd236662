import CherryOS.Kernel.Alarm
import CherryOS.Kernel.Kill
import CherryOS.Kernel.Nice
import CherryOS.Kernel.ProcessTree
import CherryOS.Kernel.Resume
import CherryOS.Kernel.SignalChoice
import CherryOS.Kernel.SystemCall
import CherryOS.Kernel.Timer

/-!
# Every call

The functions behind the system-call table, the timer interrupt, the delivery of signals,
sleeping and waking, as one system: any task that is no zombie may do any of them at any
time, with anything in its registers.  Tasks 0 and 1 do not exit and take no signals.

Only fork and exit change frames, slots, pids and fathers: after any other call each task is
the same as before, `Each SameSelf`.  All but `sys_ssetmask` and the delivery of a signal also
leave alone what is blocked, and lose no signal: `Each Unheard`.
-/

namespace CherryOS
namespace Kernel

open Lib Mm SystemCall

def ENOSYS : Int32 := 38

namespace Tasks

def sysPause (s : Tasks) : Tasks × Int32 :=
  let s := s.setTask s.current { s.task s.current with state := .interruptible }
  (s.schedule.1, 0)

end Tasks

namespace SigState

/-- The status `sys_exit` makes of its argument. -/
def exitStatus (errorCode : Int32) : Int32 := (errorCode &&& 0xFF) <<< 8

def withTasks (s : SigState) (r : Tasks × Int32) : SigState × U32 :=
  ({ s with toState := { s.toState with toTasks := r.1 } }, r.2.toBitVec)

/-- A call by the current task and the value it returns.  Its arguments are in `ebx`, `ecx`
and `edx`. -/
def serve (f : Syscall) (regs : ForkRegs) (s : SigState) : Except Fault (SigState × U32) :=
  match f with
  | .sysExit => do
    let (t, _) ← s.toState.doExit (exitStatus (.ofBitVec regs.ebx))
    .ok ({ s with toState := t }, 0)
  | .sysFork => do
    let (t, ret) ← s.toState.copyProcess regs
    .ok ({ s with toState := t }, ret.toBitVec)
  | .sysGetpid => .ok (s, s.cur.pid.toBitVec)
  | .sysGetppid => .ok (s, s.cur.father.toBitVec)
  | .sysGetuid => .ok (s, s.cur.uid.setWidth 32)
  | .sysGeteuid => .ok (s, s.cur.euid.setWidth 32)
  | .sysGetgid => .ok (s, s.cur.gid.setWidth 32)
  | .sysGetegid => .ok (s, s.cur.egid.setWidth 32)
  | .sysAlarm => .ok (s.withTasks (s.sysAlarm regs.ebx))
  | .sysPause => .ok (s.withTasks s.sysPause)
  | .sysNice => .ok (s.withTasks (s.sysNice (.ofBitVec regs.ebx)))
  | .sysKill => .ok (s.withTasks (s.sysKill (.ofBitVec regs.ebx) (.ofBitVec regs.ecx)))
  | .sysSignal => s.perform (.signal regs.ebx regs.ecx regs.edx)
  | .sysSigaction => s.perform (.sigaction regs.ebx regs.ecx regs.edx)
  | .sysSgetmask => .ok (s, sysSgetmask s.cur)
  | .sysSsetmask => s.perform (.ssetmask regs.ebx)
  | .sysBreak | .sysPtrace | .sysStty | .sysGtty | .sysFtime | .sysRename | .sysProf | .sysAcct
  | .sysPhys | .sysLock | .sysMpx | .sysUlimit => .ok (s, (-ENOSYS).toBitVec)

end SigState

/-! ## The system -/

inductive KernelEvent
  /-- `int 0x80` with a number in `eax`. -/
  | call (nr : Fin NUMBER_OF_TASKS) (eax : U32) (regs : ForkRegs)
  /-- `do_signal` on the way back to the task. -/
  | deliver (nr : Fin NUMBER_OF_TASKS) (regs : SignalRegs)
  | tick (nr : Fin NUMBER_OF_TASKS) (cs : U32)
  /-- `sleep_on` up to its return from `schedule()`, on a queue with this head. -/
  | sleep (nr : Fin NUMBER_OF_TASKS) (head : Option TaskPtr)
  /-- `interruptible_sleep_on` up to a return from `schedule()`. -/
  | sleepInterruptible (nr : Fin NUMBER_OF_TASKS)
  /-- The stores of `TASK_RUNNING` in the sleeping calls and `wake_up`. -/
  | wake (nr : Fin NUMBER_OF_TASKS)
  /-- A store of a task or the kernel into memory that is no page table. -/
  | store (w : Nat) (v : U32)
  | user (u : UserMem)

/-- The task of slot `i` makes the call `f`. -/
def KernelEvent.Asks (i : Fin NUMBER_OF_TASKS) (f : Syscall) : KernelEvent → Prop
  | .call nr eax _ =>
    nr = i ∧ ¬ NUMBER_OF_SYSCALLS - 1 < eax ∧ systemCallTable eax.toNat = some f
  | _ => False

instance (i : Fin NUMBER_OF_TASKS) (f : Syscall) : DecidablePred (KernelEvent.Asks i f)
  | .call _ _ _ => inferInstanceAs (Decidable (_ ∧ _ ∧ _))
  | .deliver _ _ => inferInstanceAs (Decidable False)
  | .tick _ _ => inferInstanceAs (Decidable False)
  | .sleep _ _ => inferInstanceAs (Decidable False)
  | .sleepInterruptible _ => inferInstanceAs (Decidable False)
  | .wake _ => inferInstanceAs (Decidable False)
  | .store _ _ => inferInstanceAs (Decidable False)
  | .user _ => inferInstanceAs (Decidable False)

/-- Neither a call nor a delivery, nor a store to memory. -/
def KernelEvent.Aside : KernelEvent → Prop
  | .call .. | .deliver .. | .store .. => False
  | _ => True

theorem KernelEvent.Aside.not_asks {e : KernelEvent} (h : e.Aside) (i : Fin NUMBER_OF_TASKS)
    (f : Syscall) : ¬ e.Asks i f := by
  intro ha
  cases e with
  | call nr eax regs => exact h
  | _ => exact ha

namespace SigState

def onCpu (s : SigState) (nr : Fin NUMBER_OF_TASKS) : Option SigState :=
  (s.toState.onCpu nr).map fun t => { s with toState := t }

/-- The effect of a call or a delivery that does not end in a fault. -/
def effect {α : Type} (r : Except Fault (SigState × α)) : Option SigState :=
  r.toOption.map Prod.fst

theorem effect_eq_some {α : Type} {r : Except Fault (SigState × α)} {s : SigState}
    (h : effect r = some s) : ∃ a, r = .ok (s, a) := by
  cases r with
  | error e => cases h
  | ok r =>
    obtain ⟨s', a⟩ := r
    cases h
    exact ⟨a, rfl⟩

/-- A number without a function makes the kernel call address 0, and one beyond the table
comes back at once. -/
def callBy (s : SigState) (nr : Fin NUMBER_OF_TASKS) (eax : U32) (regs : ForkRegs) :
    Option SigState :=
  if NUMBER_OF_SYSCALLS - 1 < eax then some s
  else (systemCallTable eax.toNat).bind fun f =>
    if f = .sysExit ∧ nr.val < 2 then none else effect (s.serve f regs)

def after (s : SigState) : KernelEvent → Option SigState
  | .call nr eax regs => (s.onCpu nr).bind fun s => s.callBy nr eax regs
  | .deliver nr regs =>
    if 2 ≤ nr.val then (s.onCpu nr).bind fun s => effect (s.doSignal regs) else none
  | .tick nr cs => (s.onCpu nr).map fun s =>
      { s with toState := s.toState.onTasks fun t => (t.doTimerInterrupt cs).1 }
  | .sleep nr head => (s.onCpu nr).bind fun s =>
      (s.toTasks.sleepOn head).toOption.map fun r =>
        { s with toState := s.toState.onTasks fun _ => r.tasks }
  | .sleepInterruptible nr => (s.onCpu nr).map fun s =>
      { s with toState := s.toState.onTasks fun t => t.sysPause.1 }
  | .wake nr => (s.onCpu nr).map fun t =>
      { s with toState := s.toState.setTask t.current { t.cur with state := .running } }
  | .store w v => (s.toState.next (.store w v)).map fun t => { s with toState := t }
  | .user u => some { s with user := u }

end SigState

/-! ## What the calls leave alone -/

/-- Who a task is: its pid, its father and its segments, and whether it is a zombie. -/
structure SameSelf (t t' : TaskStruct) : Prop where
  pid : t'.pid = t.pid
  father : t'.father = t.father
  ldt : t'.ldt = t.ldt
  zombie : t'.state = .zombie ↔ t.state = .zombie

/-- Signals may be raised. -/
structure Unheard (t t' : TaskStruct) : Prop extends SameSelf t t' where
  signal : ∃ sig, t'.signal = t.signal ||| sig
  blocked : t'.blocked = t.blocked

theorem SameSelf.trans {t u v : TaskStruct} (h : SameSelf t u) (h' : SameSelf u v) :
    SameSelf t v :=
  ⟨h'.pid.trans h.pid, h'.father.trans h.father, h'.ldt.trans h.ldt, h'.zombie.trans h.zombie⟩

/-- A task that is no zombie gets a state that is not that. -/
theorem SameSelf.awake {t t' : TaskStruct} (hlive : t.state ≠ .zombie) (hlive' : t'.state ≠ .zombie)
    (hpid : t'.pid = t.pid) (hfather : t'.father = t.father) (hldt : t'.ldt = t.ldt) :
    SameSelf t t' :=
  ⟨hpid, hfather, hldt, fun h => absurd h hlive', fun h => absurd h hlive⟩

namespace Unheard

theorem of_rest {t t' : TaskStruct} (h : SameSelf t t') (hsignal : t'.signal = t.signal)
    (hblocked : t'.blocked = t.blocked) : Unheard t t' :=
  ⟨h, ⟨0, hsignal.trans BitVec.or_zero.symm⟩, hblocked⟩

theorem refl (t : TaskStruct) : Unheard t t := of_rest ⟨rfl, rfl, rfl, Iff.rfl⟩ rfl rfl

theorem trans {t u v : TaskStruct} (h : Unheard t u) (h' : Unheard u v) : Unheard t v := by
  obtain ⟨a, ha⟩ := h.signal
  obtain ⟨b, hb⟩ := h'.signal
  exact ⟨h.toSameSelf.trans h'.toSameSelf, ⟨a ||| b, by rw [hb, ha, BitVec.or_assoc]⟩,
    h'.blocked.trans h.blocked⟩

theorem hasSignal {t t' : TaskStruct} (h : Unheard t t') {sig : Nat} (hs : Tasks.HasSignal t sig) :
    Tasks.HasSignal t' sig := hs.keeps ⟨h.pid, h.ldt, h.signal⟩

end Unheard

namespace Tasks

/-- The slots stay as they are, and each record is related to what it was. -/
structure Each (R : TaskStruct → TaskStruct → Prop) (s s' : Tasks) : Prop where
  tasksPtr : s'.tasksPtr = s.tasksPtr
  task : ∀ p, R (s.task p) (s'.task p)

namespace Each

variable {R : TaskStruct → TaskStruct → Prop} {s s' s'' : Tasks}

theorem mono {R' : TaskStruct → TaskStruct → Prop} (h : Each R s s')
    (hR : ∀ t t', R t t' → R' t t') : Each R' s s' := ⟨h.tasksPtr, fun p => hR _ _ (h.task p)⟩

theorem self (h : Each Unheard s s') : Each SameSelf s s' := h.mono fun _ _ => Unheard.toSameSelf

theorem refl (s : Tasks) : Each Unheard s s := ⟨rfl, fun _ => .refl _⟩

theorem trans (h : Each Unheard s s') (h' : Each Unheard s' s'') : Each Unheard s s'' :=
  ⟨h'.tasksPtr.trans h.tasksPtr, fun p => (h.task p).trans (h'.task p)⟩

theorem setTask {p : TaskPtr} {t : TaskStruct} (h : Unheard (s.task p) t) :
    Each Unheard s (s.setTask p t) := ⟨rfl, setTask_related Unheard.refl h⟩

theorem schedule (s : Tasks) : Each Unheard s s.schedule.1 where
  tasksPtr := schedule_tasksPtr s
  task p := by
    obtain ⟨hkeeps, hfather, hzombie⟩ := schedule_task s p
    exact ⟨⟨hkeeps.pid, hfather, hkeeps.ldt, hzombie⟩, hkeeps.signal,
      (SameSignals.schedule s p).blocked⟩

theorem raised {sig : Nat} {P : TaskPtr → Prop} (h : RaisedIn sig P s s') : Each Unheard s s' where
  tasksPtr := h.rest.tasksPtr
  task p := by
    have hself : SameSelf (s.task p) (s'.task p) := by
      rw [h.rest.task p]
      exact ⟨rfl, rfl, rfl, Iff.rfl⟩
    have hblocked : (s'.task p).blocked = (s.task p).blocked := by rw [h.rest.task p]
    by_cases hp : P p
    · exact ⟨hself, ⟨sigBit sig, h.hit p hp⟩, hblocked⟩
    · exact .of_rest hself (h.miss p hp) hblocked

theorem sysKill (s : Tasks) (pid sig : Int32) : Each Unheard s (s.sysKill pid sig).1 := by
  by_cases h : ValidSig (sigNr sig)
  · exact raised (sysKill_raised s pid h)
  · rw [sysKill_invalid s pid h]
    exact refl s

theorem sysNice (increment : Int32) (s : Tasks) : Each Unheard s (s.sysNice increment).1 := by
  have hset : Each Unheard s (s.setTask s.current { s.task s.current with
      priority := (s.task s.current).priority - increment }) :=
    setTask (.of_rest ⟨rfl, rfl, rfl, Iff.rfl⟩ rfl rfl)
  obtain ⟨-, h⟩ | ⟨-, h⟩ | ⟨-, h⟩ := sysNice_cases increment s
  · rw [h]
    exact hset
  · rw [h]
    exact hset
  · rw [h]
    exact refl s

theorem sysAlarm (seconds : U32) (s : Tasks) : Each Unheard s (s.sysAlarm seconds).1 :=
  setTask (.of_rest ⟨rfl, rfl, rfl, Iff.rfl⟩ rfl rfl)

theorem sysPause (hlive : (s.task s.current).state ≠ .zombie) : Each Unheard s s.sysPause.1 := by
  have hstate : TaskState.interruptible ≠ .zombie := by decide
  have hsleep : Each Unheard s (s.setTask s.current
      { s.task s.current with state := .interruptible }) :=
    setTask (.of_rest (.awake hlive hstate rfl rfl rfl) rfl rfl)
  exact hsleep.trans (schedule _)

theorem doTimerInterrupt (cs : U32) (s : Tasks) : Each Unheard s (s.doTimerInterrupt cs).1 := by
  have hcharge : Each Unheard s (s.chargeTick cs) := by
    rw [chargeTick]
    split
    · exact ⟨rfl, setTask_related Unheard.refl (.of_rest ⟨rfl, rfl, rfl, Iff.rfl⟩ rfl rfl)⟩
    · exact ⟨rfl, setTask_related Unheard.refl (.of_rest ⟨rfl, rfl, rfl, Iff.rfl⟩ rfl rfl)⟩
  rw [Tasks.doTimerInterrupt]
  split
  · exact hcharge.trans (schedule _)
  · exact hcharge

theorem sleepOn {head : Option TaskPtr} {r : Suspended}
    (hlive : (s.task s.current).state ≠ .zombie) (h : s.sleepOn head = .ok r) :
    Each Unheard s r.tasks := by
  have hstate : TaskState.uninterruptible ≠ .zombie := by decide
  have hsleep : Each Unheard s (s.asleep head) := by
    refine ⟨rfl, fun p => ?_⟩
    rw [asleep_task]
    split
    · rename_i hp
      rw [hp]
      exact .of_rest (.awake hlive hstate rfl rfl rfl) rfl rfl
    · exact .refl _
  rw [Tasks.sleepOn] at h
  split at h
  · cases h
  · cases h
    exact hsleep.trans (schedule _)

/-- A task that is no zombie is made to run. -/
theorem wake {p : TaskPtr} (hlive : (s.task p).state ≠ .zombie) :
    Each Unheard s (s.setTask p { s.task p with state := .running }) := by
  have hstate : TaskState.running ≠ .zombie := by decide
  exact setTask (.of_rest (.awake hlive hstate rfl rfl rfl) rfl rfl)

end Each

end Tasks

/-- The state changes in its task table alone. -/
structure State.Calm (R : TaskStruct → TaskStruct → Prop) (s s' : State) : Prop where
  tasks : s.toTasks.Each R s'.toTasks
  mem : s'.mem = s.mem
  lastPid : s'.lastPid = s.lastPid

namespace State.Calm

variable {s s' : State}

theorem of_tasks {R : TaskStruct → TaskStruct → Prop} {t : Tasks} (h : s.toTasks.Each R t) :
    s.Calm R { s with toTasks := t } := ⟨h, rfl, rfl⟩

theorem refl (s : State) : s.Calm Unheard s := of_tasks (.refl _)

theorem trans {t : State} (h : s.Calm Unheard t) (h' : t.Calm Unheard s') : s.Calm Unheard s' :=
  ⟨h.tasks.trans h'.tasks, h'.mem.trans h.mem, h'.lastPid.trans h.lastPid⟩

theorem self (h : s.Calm Unheard s') : s.Calm SameSelf s' := ⟨h.tasks.self, h.mem, h.lastPid⟩

end State.Calm

/-- The CPU is with the task of slot `i`, which is no zombie. -/
structure State.Runs (s : State) (i : Fin NUMBER_OF_TASKS) : Prop where
  slot : s.tasksPtr i = some s.current
  live : (s.task s.current).state ≠ .zombie

theorem State.Runs.onCpu {s : State} {i : Fin NUMBER_OF_TASKS} (h : s.Runs i) :
    s.onCpu i = some s :=
  State.onCpu_of h.slot h.live

namespace SigState

variable {s : SigState}

/-- The caller changes its record, but not who it is. -/
theorem setCur_calm (s : SigState) {t : TaskStruct} (h : SameSelf s.cur t) :
    s.toState.Calm SameSelf (s.setCur t).toState :=
  .of_tasks ⟨rfl, Tasks.setTask_related (fun _ => (Unheard.refl _).toSameSelf) h⟩

theorem setCur_unheard (s : SigState) {t : TaskStruct} (h : Unheard s.cur t) :
    s.toState.Calm Unheard (s.setCur t).toState := .of_tasks (.setTask h)

theorem sysSignal_unheard (signum handler restorer : U32) :
    s.toState.Calm Unheard (s.setCur (sysSignal signum handler restorer s.cur).1).toState := by
  rw [sysSignal]
  split
  · exact setCur_unheard s (.refl _)
  · exact setCur_unheard s (.of_rest ⟨rfl, rfl, rfl, Iff.rfl⟩ rfl rfl)

theorem sysSigaction_unheard (signum action oldaction : U32) :
    s.toState.Calm Unheard
      (s.setCur (sysSigaction signum action oldaction s.user s.cur).2.1).toState := by
  rw [sysSigaction]
  split
  · exact setCur_unheard s (.refl _)
  · exact setCur_unheard s (.of_rest ⟨rfl, rfl, rfl, Iff.rfl⟩ rfl rfl)

/-- Every call but these three returns, and no signal is lost by it. -/
theorem serve_unheard (s : SigState) (hlive : s.cur.state ≠ .zombie) {f : Syscall}
    (hfork : f ≠ .sysFork) (hexit : f ≠ .sysExit) (hmask : f ≠ .sysSsetmask) (regs : ForkRegs) :
    ∃ s' v, s.serve f regs = .ok (s', v) ∧ s.toState.Calm Unheard s'.toState := by
  cases f with
  | sysFork => exact absurd rfl hfork
  | sysExit => exact absurd rfl hexit
  | sysSsetmask => exact absurd rfl hmask
  | sysAlarm => exact ⟨_, _, rfl, .of_tasks (.sysAlarm _ _)⟩
  | sysPause => exact ⟨_, _, rfl, .of_tasks (.sysPause hlive)⟩
  | sysNice => exact ⟨_, _, rfl, .of_tasks (.sysNice _ _)⟩
  | sysKill => exact ⟨_, _, rfl, .of_tasks (.sysKill _ _ _)⟩
  | sysSignal => exact ⟨_, _, rfl, sysSignal_unheard _ _ _⟩
  | sysSigaction => exact ⟨_, _, rfl, sysSigaction_unheard _ _ _⟩
  | _ => exact ⟨_, _, rfl, .refl _⟩

theorem serve_fork {s s' : SigState} {regs : ForkRegs} {v : U32}
    (h : s.serve .sysFork regs = .ok (s', v)) :
    ∃ t ret, s.toState.copyProcess regs = .ok (t, ret) ∧ s' = { s with toState := t } ∧
      v = ret.toBitVec := by
  rw [serve] at h
  obtain ⟨⟨t, ret⟩, hcopy, hret⟩ := bind_eq_ok h
  cases hret
  exact ⟨t, ret, hcopy, rfl, rfl⟩

theorem serve_calm (s : SigState) (hlive : s.cur.state ≠ .zombie) {f : Syscall}
    (hfork : f ≠ .sysFork) (hexit : f ≠ .sysExit) (regs : ForkRegs) :
    ∃ s' v, s.serve f regs = .ok (s', v) ∧ s.toState.Calm SameSelf s'.toState := by
  by_cases hmask : f = .sysSsetmask
  · rw [hmask]
    exact ⟨_, _, rfl, setCur_calm s ⟨rfl, rfl, rfl, Iff.rfl⟩⟩
  · obtain ⟨s', v, hok, h⟩ := s.serve_unheard hlive hfork hexit hmask regs
    exact ⟨s', v, hok, h.self⟩

theorem runHandler_calm (s : SigState) (i : Fin 32) (regs : SignalRegs) :
    s.toState.Calm SameSelf (s.runHandler i regs).1.toState := by
  have hcur : s.toState.Calm SameSelf (s.setCur (enterHandler i s.cur)).toState := by
    rw [enterHandler]
    dsimp only
    split
    · exact setCur_calm s ⟨rfl, rfl, rfl, Iff.rfl⟩
    · exact setCur_calm s ⟨rfl, rfl, rfl, Iff.rfl⟩
  exact hcur

theorem onCpu_spec {s s' : SigState} {i : Fin NUMBER_OF_TASKS} (h : s.onCpu i = some s') :
    s.toState.Calm Unheard s'.toState ∧ s'.Runs i := by
  obtain ⟨t, ht, rfl⟩ := Option.map_eq_some_iff.mp h
  obtain ⟨p, hp, hz, rfl⟩ := State.onCpu_spec ht
  exact ⟨.of_tasks ⟨rfl, fun _ => .refl _⟩, hp, hz⟩

/-- What is no call, no delivery and no store. -/
theorem after_unheard {s s' : SigState} {e : KernelEvent} (he : e.Aside)
    (h : s.after e = some s') : s.toState.Calm Unheard s'.toState := by
  cases e with
  | call nr eax regs => exact absurd he id
  | deliver nr regs => exact absurd he id
  | store w v => exact absurd he id
  | tick nr cs =>
    obtain ⟨t, ht, rfl⟩ := Option.map_eq_some_iff.mp h
    exact (onCpu_spec ht).1.trans (.of_tasks (.doTimerInterrupt _ _))
  | sleep nr head =>
    obtain ⟨t, ht, h⟩ := Option.bind_eq_some_iff.mp h
    obtain ⟨hcalm, hruns⟩ := onCpu_spec ht
    obtain ⟨r, hsleep, rfl⟩ := Option.map_eq_some_iff.mp h
    cases hok : t.toTasks.sleepOn head with
    | error e =>
      rw [hok] at hsleep
      cases hsleep
    | ok r' =>
      rw [hok] at hsleep
      cases hsleep
      exact hcalm.trans (.of_tasks (.sleepOn hruns.live hok))
  | sleepInterruptible nr =>
    obtain ⟨t, ht, rfl⟩ := Option.map_eq_some_iff.mp h
    obtain ⟨hcalm, hruns⟩ := onCpu_spec ht
    exact hcalm.trans (.of_tasks (.sysPause hruns.live))
  | wake nr =>
    obtain ⟨t, ht, rfl⟩ := Option.map_eq_some_iff.mp h
    obtain ⟨t', ht', rfl⟩ := Option.map_eq_some_iff.mp ht
    obtain ⟨p, -, hz, rfl⟩ := State.onCpu_spec ht'
    exact .of_tasks (.wake hz)
  | user u =>
    cases h
    exact .refl _

end SigState

end Kernel
end CherryOS
