import CherryOS.Kernel.Timer
import CherryOS.Kernel.ForkShape
import CherryOS.Kernel.Frames

/-!
# Priorities

A refill gives each running task its priority as its time slice, so a task with a priority
of 0 or below is never selected again.  A child inherits the priority of its parent, the
timer and `schedule()` leave priorities alone, and `sys_nice` keeps them positive for all but
root, whose priority it lowers without a bound.
-/

namespace CherryOS
namespace Kernel

open Mm Lib

namespace Tasks

/-- Both branches subtract, the second one for root only. -/
def sysNice (increment : Int32) (s : Tasks) : Tasks × Int32 :=
  let t := s.task s.current
  if 0 < t.priority - increment then
    (s.setTask s.current { t with priority := t.priority - increment }, 0)
  else if t.euid = 0 then
    (s.setTask s.current { t with priority := t.priority - increment }, 0)
  else (s, 0)

/-- Root asks for a priority that is not positive. -/
def RootDrops (increment : Int32) (s : Tasks) : Prop :=
  (s.task s.current).euid = 0 ∧ (s.task s.current).priority - increment ≤ 0

instance (increment : Int32) (s : Tasks) : Decidable (RootDrops increment s) :=
  inferInstanceAs (Decidable (_ ∧ _))

/-- Every task in the table has a positive priority. -/
def AllPositive (s : Tasks) : Prop := ∀ p, s.InTable p → 0 < (s.task p).priority

/-- A call of `schedule()` that finds no slice left gives each running task a new one. -/
def RefillsAll (s : Tasks) : Prop :=
  s.checkAll.select = none → ∀ p, s.schedule.1.InTable p →
    (s.schedule.1.task p).state = .running → 0 < (s.schedule.1.task p).ts

/-! ## What the calls do to priorities -/

variable {s s' : Tasks} {p : TaskPtr}

theorem raiseAlarm_priority (j : Int32) (t : TaskStruct) :
    (raiseAlarm j t).priority = t.priority := by
  rw [raiseAlarm]
  split
  · rfl
  · rfl

theorem checkSignals_priority (j : Int32) (t : TaskStruct) :
    (checkSignals j t).priority = t.priority := by
  rw [checkSignals, wakeForSignal]
  split
  · exact raiseAlarm_priority j t
  · exact raiseAlarm_priority j t

theorem checkAll_priority (s : Tasks) (p : TaskPtr) :
    (s.checkAll.task p).priority = (s.task p).priority := by
  rw [checkAll_task]
  split
  · exact checkSignals_priority _ _
  · rfl

theorem schedule_of_none (h : s.checkAll.select = none) :
    s.schedule = (s.checkAll.refill, .back) := by
  rw [schedule]
  simp only [h]

theorem schedule_priority (s : Tasks) (p : TaskPtr) :
    (s.schedule.1.task p).priority = (s.task p).priority := by
  have hcheck := checkAll_priority s p
  unfold schedule
  dsimp only
  split
  · obtain ⟨ts, hts⟩ := refill_task s.checkAll p
    rw [hts]
    exact hcheck
  · split
    · split
      · exact hcheck
      · exact hcheck
    · exact hcheck

/-- The CPU goes to tasks in the table only. -/
theorem schedule_current (h : s.InTable s.current) : s.InTable s.schedule.1.current := by
  unfold schedule
  dsimp only
  split
  · rw [refill_current, checkAll_current]
    exact h
  · split
    · rename_i p hp
      split
      · rw [checkAll_tasksPtr] at hp
        exact ⟨_, hp⟩
      · rw [checkAll_current]
        exact h
    · rw [checkAll_current]
      exact h

theorem chargeTick_priority (cs : U32) (s : Tasks) (p : TaskPtr) :
    ((s.chargeTick cs).task p).priority = (s.task p).priority := by
  rw [chargeTick]
  dsimp only
  split <;> exact setTask_same (·.priority) (by rfl) p

theorem doTimerInterrupt_priority (cs : U32) (s : Tasks) (p : TaskPtr) :
    ((s.doTimerInterrupt cs).1.task p).priority = (s.task p).priority := by
  rw [doTimerInterrupt]
  split
  · rw [schedule_priority, chargeTick_priority]
  · exact chargeTick_priority cs s p

theorem doTimerInterrupt_current (cs : U32) (h : s.InTable s.current) :
    s.InTable (s.doTimerInterrupt cs).1.current := by
  have htab := chargeTick_tasksPtr cs s
  have hcur : (s.chargeTick cs).InTable (s.chargeTick cs).current := by
    rw [chargeTick_current, InTable, htab]
    exact h
  rw [doTimerInterrupt]
  split
  · have hnext := schedule_current hcur
    rwa [InTable, htab] at hnext
  · rwa [InTable, htab] at hcur

theorem doTimerInterrupt_tasksPtr (cs : U32) (s : Tasks) :
    (s.doTimerInterrupt cs).1.tasksPtr = s.tasksPtr := by
  rw [doTimerInterrupt]
  split
  · rw [schedule_tasksPtr, chargeTick_tasksPtr]
  · exact chargeTick_tasksPtr cs s

/-- What `sys_nice` does where root does not drop its priority. -/
theorem sysNice_cases (increment : Int32) (s : Tasks) :
    0 < (s.task s.current).priority - increment ∧ (s.sysNice increment).1 =
        s.setTask s.current { s.task s.current with
          priority := (s.task s.current).priority - increment } ∨
      RootDrops increment s ∧ (s.sysNice increment).1 =
        s.setTask s.current { s.task s.current with
          priority := (s.task s.current).priority - increment } ∨
      ¬ RootDrops increment s ∧ (s.sysNice increment).1 = s := by
  rw [sysNice]
  dsimp only
  split
  · rename_i hpos
    exact Or.inl ⟨hpos, rfl⟩
  · rename_i hpos
    split
    · rename_i hroot
      exact Or.inr (Or.inl ⟨⟨hroot, Int32.not_lt.mp hpos⟩, rfl⟩)
    · rename_i hroot
      exact Or.inr (Or.inr ⟨fun h => hroot h.1, rfl⟩)

theorem inTable_congr (h : s'.tasksPtr = s.tasksPtr) : s'.InTable p ↔ s.InTable p := by
  rw [InTable, InTable, h]

/-- A refill hands out what is positive. -/
theorem AllPositive.refillsAll (h : s.AllPositive) : s.RefillsAll := by
  intro hnone p hp hrun
  rw [schedule_of_none hnone] at hp hrun ⊢
  have hin : s.checkAll.InTable p := (inTable_congr (refill_tasksPtr _)).mp hp
  obtain ⟨ts, hts⟩ := refill_task s.checkAll p
  have hstate : (s.checkAll.task p).state = .running := by
    rwa [hts] at hrun
  show 0 < (s.checkAll.refill.task p).ts
  rw [refill_task_eq, if_pos ⟨hin, hstate⟩]
  show 0 < (s.checkAll.task p).priority
  rw [checkAll_priority]
  exact h p ((inTable_congr (checkAll_tasksPtr s)).mp hin)

theorem AllPositive.of_same (h : s.AllPositive) (hptr : s'.tasksPtr = s.tasksPtr)
    (htask : ∀ p, (s'.task p).priority = (s.task p).priority) : s'.AllPositive := by
  intro p hp
  rw [htask]
  exact h p ((inTable_congr hptr).mp hp)

theorem AllPositive.sysNice (h : s.AllPositive) {increment : Int32}
    (hroot : ¬ RootDrops increment s) : (s.sysNice increment).1.AllPositive := by
  obtain ⟨hpos, hs⟩ | ⟨hdrops, -⟩ | ⟨-, hs⟩ := sysNice_cases increment s
  · rw [hs]
    intro p hp
    rw [setTask_task]
    split
    · exact hpos
    · exact h p hp
  · exact absurd hdrops hroot
  · rw [hs]
    exact h

theorem not_allPositive_of_rootDrops {increment : Int32} (hcur : s.InTable s.current)
    (hroot : RootDrops increment s) : ¬ (s.sysNice increment).1.AllPositive := by
  intro hall
  obtain ⟨hpos, -⟩ | ⟨-, hs⟩ | ⟨hno, -⟩ := sysNice_cases increment s
  · exact absurd hpos (Int32.not_lt.mpr hroot.2)
  · rw [hs] at hall
    have hpos := hall s.current hcur
    rw [setTask_task, if_pos rfl] at hpos
    exact absurd hpos (Int32.not_lt.mpr hroot.2)
  · exact hno hroot

end Tasks

namespace State

/-- Once `copy_mem` is over the record of the child has the priority of its parent. -/
theorem copyMem_priority {regs : ForkRegs} {nr : Fin NUMBER_OF_TASKS} {page : U32} {s t : State}
    (h : SegmentsOnly (.frame page) (beginChild regs nr page s) t) :
    (t.task (.frame page)).priority = (s.task s.current).priority := by
  obtain ⟨ldt, hldt⟩ := h.self
  rw [hldt, beginChild_task, if_pos rfl]
  rfl

/-- The tasks in the table after a fork are those of before and a child that has the priority
of its parent. -/
theorem copyProcess_priority {regs : ForkRegs} {s s' : State} {ret : Int32}
    (h : s.copyProcess regs = .ok (s', ret)) {p : TaskPtr} (hp : s'.InTable p) :
    s.InTable p ∧ (s'.task p).priority = (s.task p).priority ∨
      (s'.task p).priority = (s.task s.current).priority := by
  cases copyProcess_path h with
  | full pid hslot hs _ =>
    rw [hs] at hp ⊢
    exact Or.inl ⟨hp, rfl⟩
  | dropped pid nr page mem t r hslot hpage hcopy hr hdrop _ =>
    have hseg := copyMem_shape hcopy
    obtain ⟨m, -, hs, hptr⟩ := dropChild_spec (slot_of_findEmptySlot hslot).1 hseg.tasksPtr hdrop
    have htask : s'.task = t.task := by rw [hs]; rfl
    have hchild := copyMem_priority hseg
    rw [htask]
    by_cases hpage' : p = .frame page
    · rw [hpage']
      exact Or.inr hchild
    · rw [(inherits_of_copyMem hseg).1 p hpage']
      exact Or.inl ⟨(Tasks.inTable_congr hptr).mp hp, rfl⟩
  | child pid nr page mem t hslot hpage hcopy hs _ =>
    have hseg := copyMem_shape hcopy
    have hchild := copyMem_priority hseg
    have hptr : t.tasksPtr = Function.update s.tasksPtr nr (some (.frame page)) := hseg.tasksPtr
    rw [hs] at hp ⊢
    rw [finishChild_task]
    by_cases hpage' : p = .frame page
    · rw [if_pos hpage']
      exact Or.inr hchild
    · rw [if_neg hpage', (inherits_of_copyMem hseg).1 p hpage']
      refine Or.inl ⟨?_, rfl⟩
      obtain ⟨i, hi⟩ := hp
      have hi : t.tasksPtr i = some p := hi
      rw [hptr] at hi
      by_cases hin : i = nr
      · rw [hin, Function.update_self] at hi
        exact absurd (Option.some.inj hi).symm hpage'
      · rw [Function.update_of_ne hin] at hi
        exact ⟨i, hi⟩

/-- No task leaves the table. -/
theorem copyProcess_inTable {regs : ForkRegs} {s s' : State} {ret : Int32}
    (h : s.copyProcess regs = .ok (s', ret)) {p : TaskPtr} (hp : s.InTable p) : s'.InTable p := by
  cases (copyProcess_shape h).1 with
  | refused _ hptr _ _ => exact (Tasks.inTable_congr hptr).mpr hp
  | dropped _ _ _ hptr _ _ => exact (Tasks.inTable_congr hptr).mpr hp
  | child nr page hnr _ _ _ hptr _ _ =>
    obtain ⟨i, hi⟩ := hp
    refine ⟨i, ?_⟩
    rw [hptr, Function.update_of_ne, hi]
    rintro rfl
    rw [hnr] at hi
    cases hi

end State

/-! ## Runs -/

/-- What happens to the tasks.  No call of the kernel sets the effective user id of the
current task yet. -/
inductive Event
  | nice (increment : Int32)
  | euid (v : BitVec 16)
  | fork (regs : ForkRegs)
  | tick (cs : U32)
  | schedule

namespace State

def onTasks (f : Tasks → Tasks) (s : State) : State := { s with toTasks := f s.toTasks }

def after (s : State) : Event → Option State
  | .nice increment => some (s.onTasks fun s => (s.sysNice increment).1)
  | .euid v => some (s.setTask s.current { s.task s.current with euid := v })
  | .fork regs => result (s.copyProcess regs)
  | .tick cs => some (s.onTasks fun s => (s.doTimerInterrupt cs).1)
  | .schedule => some (s.onTasks fun s => s.schedule.1)

/-- The current task is in the table. -/
def CurrentInTable (s : State) : Prop := s.InTable s.current

theorem copyProcess_current {regs : ForkRegs} {s s' : State} {ret : Int32}
    (h : s.copyProcess regs = .ok (s', ret)) : s'.current = s.current := by
  cases copyProcess_path h with
  | full pid hslot hs _ => rw [hs]
  | dropped pid nr page mem t r hslot hpage hcopy hr hdrop _ =>
    obtain ⟨m, -, hm⟩ := bind_eq_ok hdrop
    cases hm
    exact (copyMem_shape hcopy).current
  | child pid nr page mem t hslot hpage hcopy hs _ =>
    rw [hs]
    exact (copyMem_shape hcopy).current

theorem CurrentInTable.after {s s' : State} {e : Event} (h : s.CurrentInTable)
    (he : s.after e = some s') : s'.CurrentInTable := by
  cases e with
  | nice increment =>
    cases he
    show (s.sysNice increment).1.InTable (s.sysNice increment).1.current
    obtain ⟨-, hs⟩ | ⟨-, hs⟩ | ⟨-, hs⟩ := Tasks.sysNice_cases increment s.toTasks
    · rw [hs]
      exact h
    · rw [hs]
      exact h
    · rw [hs]
      exact h
  | euid v =>
    cases he
    exact h
  | fork regs =>
    obtain ⟨ret, hok⟩ := result_eq_some he
    rw [CurrentInTable, copyProcess_current hok]
    exact copyProcess_inTable hok h
  | tick cs =>
    cases he
    exact (Tasks.inTable_congr (Tasks.doTimerInterrupt_tasksPtr _ _)).mpr
      (Tasks.doTimerInterrupt_current _ h)
  | schedule =>
    cases he
    exact (Tasks.inTable_congr (Tasks.schedule_tasksPtr _)).mpr (Tasks.schedule_current h)

theorem allPositive_after {s s' : State} {e : Event} (h : s.AllPositive) (hcur : s.CurrentInTable)
    (he : s.after e = some s')
    (hroot : ∀ increment, e = .nice increment → ¬ s.RootDrops increment) : s'.AllPositive := by
  cases e with
  | nice increment =>
    cases he
    exact h.sysNice (hroot increment rfl)
  | euid v =>
    cases he
    refine h.of_same rfl fun p => ?_
    exact Tasks.setTask_same (·.priority) (by rfl) p
  | fork regs =>
    obtain ⟨ret, hok⟩ := result_eq_some he
    intro p hp
    obtain ⟨hold, hprio⟩ | hprio := copyProcess_priority hok hp
    · rw [hprio]
      exact h p hold
    · rw [hprio]
      exact h s.current hcur
  | tick cs =>
    cases he
    exact h.of_same (Tasks.doTimerInterrupt_tasksPtr _ _) (Tasks.doTimerInterrupt_priority _ _)
  | schedule =>
    cases he
    exact h.of_same (Tasks.schedule_tasksPtr _) (Tasks.schedule_priority _)

end State

theorem Boot.currentInTable (b : Boot) : b.state.CurrentInTable := ⟨0, rfl⟩

theorem Boot.allPositive (b : Boot) : b.state.AllPositive := by
  rintro p ⟨i, hi⟩
  have hp : p = .task0 := by
    have hi : (if i = 0 then some TaskPtr.task0 else none) = some p := hi
    split at hi
    · exact (Option.some.inj hi).symm
    · cases hi
  rw [hp]
  show 0 < (Function.update b.task .task0 (initTask0 b.img) .task0).priority
  rw [Function.update_self]
  show (0 : Int32) < 10
  decide

/-- Priorities are positive and refills give slices in all states of a run exactly if root
never drops a priority in it. -/
theorem priorities_positive_iff (b : Boot) (events : List Event) :
    (∀ before s, before <+: events → Run (Steps State.after) b.state before s →
        s.AllPositive ∧ s.RefillsAll) ↔
      ∀ before increment s, before ++ [.nice increment] <+: events →
        Run (Steps State.after) b.state before s → ¬ s.RootDrops increment := by
  have hcur : ∀ {before s}, Run (Steps State.after) b.state before s → s.CurrentInTable :=
    fun h => h.invariant b.currentInTable fun _ _ _ ha hl => ha.after hl
  constructor
  · intro hall before increment s hb hrun hroot
    have hnext : Run (Steps State.after) b.state (before ++ [.nice increment])
      (s.onTasks fun s => (s.sysNice increment).1) := hrun.snoc rfl
    exact Tasks.not_allPositive_of_rootDrops (hcur hrun) hroot (hall _ _ hb hnext).1
  · intro hno before s hb hrun
    have hpos : s.AllPositive := by
      induction hrun with
      | nil => exact b.allPositive
      | @snoc before t u e hrun hl ih =>
        refine State.allPositive_after (ih ((List.prefix_append _ _).trans hb)) (hcur hrun) hl ?_
        rintro increment rfl
        exact hno before increment t hb hrun
    exact ⟨hpos, hpos.refillsAll⟩

/-- `task0` asks for ten less than its ten. -/
theorem nice_of_root :
    ∃ s, Run (Steps State.after) bootOf16MB.state [.nice 10] s ∧ ¬ s.AllPositive := by
  refine ⟨_, .single rfl, ?_⟩
  exact Tasks.not_allPositive_of_rootDrops bootOf16MB.currentInTable ⟨by decide, by decide⟩

end Kernel
end CherryOS
