import CherryOS.Kernel.Exit

/-!
# Who continues after `schedule()`

`sleep_on`, `do_exit` and the rest of the kernel call `schedule()` and rely on it not to
come back to a task that may not run.  It does come back when no task it may select has
time left: it refills the slices and returns to its caller, whatever state that is in.
-/

namespace CherryOS
namespace Kernel

open Mm

namespace Tasks

/-- The part of the task table that the wait queues work on. -/
def wait (s : Tasks) (head : Option TaskPtr) : Wait TaskPtr where
  current := s.current
  state := fun p => (s.task p).state
  head := head

def withStates (s : Tasks) (state : TaskPtr → TaskState) : Tasks :=
  { s with task := fun p => { s.task p with state := state p } }

/-- A call of `sleep_on` when its `schedule()` is over. -/
structure Suspended where
  tasks : Tasks
  head : Option TaskPtr
  tmp : Option TaskPtr
  transfer : Transfer

/-- The task table in which `sleep_on` calls `schedule()`. -/
def asleep (s : Tasks) (head : Option TaskPtr) : Tasks :=
  s.withStates ((s.wait head).sleepOnEnter.1.state)

/-- `sleep_on(p)` up to the end of its `schedule()`, with `head` for `*p`. -/
def sleepOn (head : Option TaskPtr) (s : Tasks) : Except Fault Suspended :=
  if s.current = .task0 then .error (.panic "task[0] trying to sleep")
  else
    let (w, tmp) := (s.wait head).sleepOnEnter
    let (tasks, transfer) := (s.asleep head).schedule
    .ok ⟨tasks, w.head, tmp, transfer⟩

/-- Some task of the table but `self` may be selected and has time left. -/
def OtherReady (s : Tasks) (self : TaskPtr) : Prop :=
  ∃ i p, p ≠ self ∧ s.tasksPtr i = some p ∧ Ready s.jiffies (s.task p) ∧ 0 < (s.task p).ts

theorem asleep_task (s : Tasks) (head : Option TaskPtr) (p : TaskPtr) :
    (s.asleep head).task p =
      if p = s.current then { s.task p with state := .uninterruptible } else s.task p := by
  have hstate : (s.wait head).sleepOnEnter.1.state p =
      if p = s.current then .uninterruptible else (s.task p).state := Wait.setState_state _ _ _ _
  show { s.task p with state := (s.wait head).sleepOnEnter.1.state p } = _
  rw [hstate]
  split <;> rfl

/-- A caller that is not ready gets the CPU back at once exactly when nobody else may be
selected. -/
theorem schedule_back_iff {s : Tasks} (hself : ¬ Ready s.jiffies (s.task s.current)) :
    s.schedule.2 = .back ↔ ¬ s.OtherReady s.current := by
  constructor
  · intro hback ⟨i, p, _, hp, hready, hts⟩
    obtain ⟨q, hq, hcur, htab, hrun⟩ := schedule_select ⟨i, eligible_checkAll.mpr ⟨p, hp, hready, hts⟩⟩
    rw [resumed, hback] at hq
    cases hq
    have hrun' : s.ResumesRunning := ⟨s.current, by rw [resumed, hback], hcur, htab, hrun⟩
    -- the selected task is the caller, and a task that was selected is ready
    cases hsel : s.checkAll.select with
    | none => exact select_eq_none.mp hsel i (eligible_checkAll.mpr ⟨p, hp, hready, hts⟩)
    | some nr =>
      obtain ⟨r, hr, hrr, _⟩ := eligible_of_select hsel
      by_cases hc : s.checkAll.current = r
      · rw [checkAll_current] at hc
        subst hc
        rw [checkAll_tasksPtr] at hr
        rw [checkAll_task, if_pos ⟨nr, hr⟩] at hrr
        exact hself ((checkSignals_running _ _).mp hrr)
      · have hs : s.schedule.2 = .switchTo nr := by
          simp only [schedule, hsel, hr, ne_eq, hc, not_false_eq_true, if_true]
        rw [hs] at hback
        cases hback
  · intro hno
    have hnone : ∀ i, ¬ s.checkAll.Eligible i := by
      intro i hi
      obtain ⟨p, hp, hready, hts⟩ := eligible_checkAll.mp hi
      refine hno ⟨i, p, fun hc => ?_, hp, hready, hts⟩
      exact hself (hc ▸ hready)
    rw [schedule_refill hnone]

theorem schedule_back_current {s : Tasks} (h : s.schedule.2 = .back) :
    s.schedule.1.current = s.current := by
  unfold schedule at h ⊢
  dsimp only at h ⊢
  split at h
  · rw [refill_current, checkAll_current]
  · split at h
    · split at h
      · cases h
      · rename_i hc
        rw [if_neg hc, checkAll_current]
    · exact checkAll_current s

/-- When a call hands the CPU to a task, that task is running. -/
theorem switchTo_running {s : Tasks} {nr : Fin NUMBER_OF_TASKS} (h : s.schedule.2 = .switchTo nr) :
    ∃ p, s.tasksPtr nr = some p ∧ s.schedule.1.current = p ∧
      (s.schedule.1.task p).state = .running := by
  by_cases hall : ∀ i, ¬ s.checkAll.Eligible i
  · rw [schedule_refill hall] at h
    cases h
  · obtain ⟨p, hp, hcur, _, hrun⟩ := schedule_select (not_forall_not.mp hall)
    rw [resumed, h] at hp
    exact ⟨p, hp, hcur, hrun⟩

/-- `sleep_on` comes back at once, with the sleeper still asleep, exactly when no other
task may be selected. -/
theorem sleepOn_back_iff {s : Tasks} (head : Option TaskPtr) (hcur : s.current ≠ .task0) :
    ∃ r, s.sleepOn head = .ok r ∧ (r.tasks.task s.current).state = .uninterruptible ∧
      (r.transfer = .back ↔ ¬ s.OtherReady s.current) := by
  have hstate : ((s.asleep head).task s.current).state = .uninterruptible := by
    rw [asleep_task, if_pos rfl]
  have hself : ¬ Ready (s.asleep head).jiffies ((s.asleep head).task (s.asleep head).current) := by
    intro hr
    have hr : Ready s.jiffies ((s.asleep head).task s.current) := hr
    rcases hr with hr | ⟨hr, _⟩ <;> rw [hstate] at hr <;> cases hr
  have hother : (s.asleep head).OtherReady s.current ↔ s.OtherReady s.current := by
    refine exists_congr fun i => exists_congr fun p => and_congr_right fun hp => ?_
    rw [asleep_task, if_neg hp]
    rfl
  refine ⟨_, if_neg hcur, ?_, (schedule_back_iff hself).trans (not_congr hother)⟩
  show ((s.asleep head).schedule.1.task s.current).state = _
  rw [schedule_state (by rw [hstate]; exact fun hc => by cases hc), hstate]

end Tasks

/-- `tell_father`, if it comes back, leaves the exiting task on the CPU and a zombie. -/
theorem tellFather_back {s s' : State} {father : Int32}
    (hz : (s.task s.current).state = .zombie) (h : s.tellFather father = .ok (s', .back)) :
    s'.current = s.current ∧ (s'.task s.current).state = .zombie := by
  have hz' : (s.task s.current).state ≠ .interruptible := by
    rw [hz]
    exact fun hc => by cases hc
  unfold State.tellFather at h
  split at h
  · cases h
    exact ⟨rfl, hz⟩
  · split at h
    · rename_i p _
      cases h
      refine ⟨rfl, ?_⟩
      exact (Tasks.setTask_same (·.state) (by rfl) s.current).trans hz
    · unfold State.release at h
      split at h
      · cases h
      · rename_i i _
        cases hfree : s.mem.freePage (s.taskAddr s.current) with
        | error e =>
          rw [hfree, error_bind] at h
          cases h
        | ok m =>
          rw [hfree, ok_bind] at h
          obtain ⟨h₁, h₂⟩ := Prod.mk.inj (Except.ok.inj h)
          rw [← h₁]
          refine ⟨Tasks.schedule_back_current h₂, ?_⟩
          exact (Tasks.schedule_state (s := s.toTasks.setSlot i none) hz').trans hz

/-- `do_exit` returns exactly when nobody else may be selected in the table in which it
calls `schedule()`: the one `tell_father` leaves. -/
theorem doExit_back_iff {s s₁ s₂ : State} {code : Int32} (hbegin : s.beginExit code = .ok s₁)
    (htell : s₁.tellFather (s₁.task s₁.current).father = .ok (s₂, .back)) :
    ∃ s' tr, s.doExit code = .ok (s', tr) ∧ (s'.task s.current).state = .zombie ∧
      (tr = .back ↔ ¬ s₂.OtherReady s.current) := by
  have hfirst : s₁.current = s.current ∧ (s₁.task s.current).state = .zombie := by
    unfold State.beginExit at hbegin
    cases hmem : s.freeWindows with
    | error e =>
      rw [hmem, error_bind] at hbegin
      cases hbegin
    | ok m =>
      rw [hmem, ok_bind] at hbegin
      cases hbegin
      have hex := Tasks.becomeZombie_spec code s.toTasks
      exact ⟨hex.current, hex.self⟩
  obtain ⟨hcur, hz⟩ := hfirst
  rw [← hcur] at hz ⊢
  obtain ⟨hcur₂, hz₂⟩ := tellFather_back hz htell
  rw [← hcur₂] at hz₂ ⊢
  have hself : ¬ Tasks.Ready s₂.jiffies (s₂.task s₂.current) := by
    intro hr
    rcases hr with hr | ⟨hr, _⟩ <;> rw [hz₂] at hr <;> cases hr
  refine ⟨s₂.schedule.1, s₂.schedule.2, ?_, ?_, Tasks.schedule_back_iff hself⟩
  · rw [State.doExit, hbegin, ok_bind, htell]
    rfl
  · show (s₂.toTasks.schedule.1.task s₂.current).state = _
    rw [Tasks.schedule_state (by rw [hz₂]; exact fun hc => by cases hc), hz₂]

/-- Exactly when a call of `schedule()` ends in a running task, and what that means for a
sleeper and for a task that exits. -/
theorem schedule_resumes_running_iff (s : Tasks) :
    (s.ResumesRunning ↔
      (∃ i p, s.tasksPtr i = some p ∧ Tasks.Ready s.jiffies (s.task p) ∧ 0 < (s.task p).ts) ∨
        (s.InTable s.current ∧ Tasks.Ready s.jiffies (s.task s.current))) ∧
    (∀ head, s.current ≠ .task0 →
      ∃ r, s.sleepOn head = .ok r ∧ (r.tasks.task s.current).state = .uninterruptible ∧
        (r.transfer = .back ↔ ¬ s.OtherReady s.current)) ∧
    ∀ (k k₁ k₂ : State) code, k.beginExit code = .ok k₁ →
      k₁.tellFather (k₁.task k₁.current).father = .ok (k₂, .back) →
      ∃ k' tr, k.doExit code = .ok (k', tr) ∧ (k'.task k.current).state = .zombie ∧
        (tr = .back ↔ ¬ k₂.OtherReady k.current) :=
  ⟨s.resumesRunning_iff, fun head hcur => Tasks.sleepOn_back_iff head hcur,
    fun _ _ _ _ hbegin htell => doExit_back_iff hbegin htell⟩

/-- `task0` has used its slice up and task 1 goes to sleep. -/
def sleepyTable : Tasks where
  jiffies := 0
  current := .frame 0x400000
  tasksPtr := fun i => if i = 0 then some .task0 else if i = 1 then some (.frame 0x400000) else none
  task
    | .task0 => { initTask0 ⟨0, 0, 0⟩ with ts := 0 }
    | .frame _ => { initTask0 ⟨0, 0, 0⟩ with state := .uninterruptible, pid := 1, father := 0 }

theorem schedule_returns_to_a_sleeper :
    (∃ i p, sleepyTable.tasksPtr i = some p ∧ (sleepyTable.task p).state = .running ∧
      0 < (sleepyTable.task p).priority) ∧ ¬ sleepyTable.ResumesRunning := by
  refine ⟨⟨0, .task0, rfl, rfl, by decide⟩, fun h => ?_⟩
  rcases (Tasks.resumesRunning_iff sleepyTable).mp h with ⟨i, p, _, hready, hts⟩ | ⟨_, hready⟩
  · cases p with
    | task0 => exact absurd hts (by decide)
    | frame a =>
      rcases hready with hr | ⟨hr, _⟩ <;> cases hr
  · rcases hready with hr | ⟨hr, _⟩ <;> cases hr

end Kernel
end CherryOS
