import Mathlib
import CherryOS.Kernel.WaitQueue

/-!
# The scheduler

`Tasks` is the part of the kernel state that `schedule()` works on.  A call of
`schedule()` ends in one of two ways, which `Transfer` records: it returns to its caller,
or it jumps to the TSS of another task, which then continues inside its own call of
`schedule()` or starts for the first time.

`schedule` scans the table three times, from slot 63 down: it raises due alarms and
wakes interruptible tasks that have a signal to take, it selects the running task with
the most time left, and if there is none it refills the slices of the running tasks.
After a refill it returns to its caller without selecting again.
-/

namespace CherryOS
namespace Kernel

/-- Addresses the linker chooses: the static `task0`, its entry and its user stack. -/
structure Image where
  task0 : U32
  task0Entry : U32
  task0UserStack : U32

/-- The static initialiser of `task0`. -/
def initTask0 (img : Image) : TaskStruct where
  state := .running
  exitCode := 0
  startTime := 0
  ts := 10
  priority := 10
  signal := 0
  sa := fun _ => ⟨0, 0, 0, 0⟩
  blocked := 0
  alarm := 0
  pid := 0
  father := -1
  pgrp := 0
  uid := 0
  euid := 0
  suid := 0
  gid := 0
  egid := 0
  sgid := 0
  session := 0
  leader := 0
  uts := 0
  kts := 0
  cuts := 0
  ckts := 0
  ldt := ![⟨0, 0⟩, ⟨0xFFF, 0xC0FA00⟩, ⟨0xFFF, 0xC0F200⟩]
  tss :=
    { preTaskLink := 0, esp0 := img.task0 + 4096 - 1, ss0 := 0x10, cr3 := 0,
      eip := img.task0Entry, eflags := 0x3202, eax := 0, ecx := 0, edx := 0, ebx := 0,
      esp := img.task0UserStack + 4096 - 1, ebp := 0, esi := 0, edi := 0, es := 0x17,
      cs := 0x0F, ss := 0x17, ds := 0x17, fs := 0x17, gs := 0, ldt := .ofNat 16 (ldtSelector 0),
      debugTrap := 0, ioMapBase := 104 }

/-- The task keeps its pid and its segments and loses no signal. -/
structure Keeps (t t' : TaskStruct) : Prop where
  pid : t'.pid = t.pid
  ldt : t'.ldt = t.ldt
  signal : ∃ sig, t'.signal = t.signal ||| sig

namespace Keeps

theorem refl (t : TaskStruct) : Keeps t t := ⟨rfl, rfl, 0, (BitVec.or_zero).symm⟩

theorem trans {t u v : TaskStruct} (h : Keeps t u) (h' : Keeps u v) : Keeps t v := by
  obtain ⟨a, ha⟩ := h.signal
  obtain ⟨b, hb⟩ := h'.signal
  exact ⟨h'.pid.trans h.pid, h'.ldt.trans h.ldt, a ||| b, by rw [hb, ha, BitVec.or_assoc]⟩

end Keeps

structure Tasks where
  jiffies : Int32
  current : TaskPtr
  tasksPtr : Fin NUMBER_OF_TASKS → Option TaskPtr
  task : TaskPtr → TaskStruct

namespace Tasks

def setTask (s : Tasks) (p : TaskPtr) (t : TaskStruct) : Tasks :=
  { s with task := Function.update s.task p t }

@[simp] theorem setTask_jiffies (s : Tasks) (p : TaskPtr) (t : TaskStruct) :
    (s.setTask p t).jiffies = s.jiffies := rfl

@[simp] theorem setTask_current (s : Tasks) (p : TaskPtr) (t : TaskStruct) :
    (s.setTask p t).current = s.current := rfl

@[simp] theorem setTask_tasksPtr (s : Tasks) (p : TaskPtr) (t : TaskStruct) :
    (s.setTask p t).tasksPtr = s.tasksPtr := rfl

theorem setTask_task (s : Tasks) (p q : TaskPtr) (t : TaskStruct) :
    (s.setTask p t).task q = if q = p then t else s.task q := by
  by_cases h : q = p <;> simp [setTask, h]

/-- Every record is as it was, or is to what it was as the stored one is. -/
theorem setTask_related {R : TaskStruct → TaskStruct → Prop} {s : Tasks} {p : TaskPtr}
    {t : TaskStruct} (hrefl : ∀ t, R t t) (h : R (s.task p) t) (q : TaskPtr) :
    R (s.task q) ((s.setTask p t).task q) := by
  rw [setTask_task]
  split
  · rename_i hq
    rw [hq]
    exact h
  · exact hrefl _

/-- What the store does not change of one record it changes of none. -/
theorem setTask_same {α : Type} (g : TaskStruct → α) {s : Tasks} {p : TaskPtr} {t : TaskStruct}
    (h : g t = g (s.task p)) (q : TaskPtr) : g ((s.setTask p t).task q) = g (s.task q) :=
  setTask_related (R := fun t t' => g t' = g t) (fun _ => rfl) h q

/-- The record is in the table. -/
def InTable (s : Tasks) (p : TaskPtr) : Prop := ∃ i, s.tasksPtr i = some p

instance (s : Tasks) (p : TaskPtr) : Decidable (s.InTable p) :=
  inferInstanceAs (Decidable (∃ i, s.tasksPtr i = some p))

/-- The slots in the order every loop of `schedule` visits them. -/
@[irreducible] def slotsDown : List (Fin NUMBER_OF_TASKS) := (List.finRange NUMBER_OF_TASKS).reverse

theorem mem_slotsDown (i : Fin NUMBER_OF_TASKS) : i ∈ slotsDown := by
  rw [slotsDown, List.mem_reverse]
  exact List.mem_finRange i

/-! ## Alarms and signals -/

def AlarmDue (jiffies : Int32) (t : TaskStruct) : Prop := t.alarm ≠ 0 ∧ t.alarm < jiffies

instance (jiffies : Int32) (t : TaskStruct) : Decidable (AlarmDue jiffies t) :=
  inferInstanceAs (Decidable (_ ∧ _))

/-- `(signal & ~(blocked & SIG_BLOCKABLE)) != 0` -/
def TakesSignal (signal blocked : U32) : Prop := signal &&& ~~~(blocked &&& SIG_BLOCKABLE) ≠ 0

instance (signal blocked : U32) : Decidable (TakesSignal signal blocked) :=
  inferInstanceAs (Decidable (_ ≠ _))

def raiseAlarm (jiffies : Int32) (t : TaskStruct) : TaskStruct :=
  if AlarmDue jiffies t then { t with signal := t.signal ||| sigBit SIGALRM, alarm := 0 } else t

def wakeForSignal (t : TaskStruct) : TaskStruct :=
  if TakesSignal t.signal t.blocked ∧ t.state = .interruptible then
    { t with state := .running }
  else t

/-- The body of the first loop on one task. -/
def checkSignals (jiffies : Int32) (t : TaskStruct) : TaskStruct :=
  wakeForSignal (raiseAlarm jiffies t)

/-- A task that the first loop leaves running: it is, or it sleeps interruptibly and has
a signal to take, a due alarm counted. -/
def Ready (jiffies : Int32) (t : TaskStruct) : Prop :=
  t.state = .running ∨ (t.state = .interruptible ∧
    TakesSignal (if AlarmDue jiffies t then t.signal ||| sigBit SIGALRM else t.signal) t.blocked)

instance (jiffies : Int32) (t : TaskStruct) : Decidable (Ready jiffies t) :=
  inferInstanceAs (Decidable (_ ∨ _))

theorem raiseAlarm_state (j : Int32) (t : TaskStruct) : (raiseAlarm j t).state = t.state := by
  unfold raiseAlarm
  split <;> rfl

theorem raiseAlarm_ts (j : Int32) (t : TaskStruct) : (raiseAlarm j t).ts = t.ts := by
  unfold raiseAlarm
  split <;> rfl

theorem checkSignals_ts (j : Int32) (t : TaskStruct) : (checkSignals j t).ts = t.ts := by
  rw [← raiseAlarm_ts j t]
  unfold checkSignals wakeForSignal
  split <;> rfl

theorem checkSignals_running (j : Int32) (t : TaskStruct) :
    (checkSignals j t).state = .running ↔ Ready j t := by
  by_cases ha : AlarmDue j t <;>
    by_cases hs : TakesSignal (raiseAlarm j t).signal t.blocked <;>
    cases hst : t.state <;>
    simp_all [checkSignals, wakeForSignal, raiseAlarm, Ready]

theorem raiseAlarm_not_due (j : Int32) (t : TaskStruct) : ¬ AlarmDue j (raiseAlarm j t) := by
  by_cases h : AlarmDue j t
  · rw [raiseAlarm, if_pos h]
    exact fun hd => hd.1 rfl
  · rwa [raiseAlarm, if_neg h]

theorem checkSignals_idem (j : Int32) (t : TaskStruct) :
    checkSignals j (checkSignals j t) = checkSignals j t := by
  have hdue : ¬ AlarmDue j (checkSignals j t) := by
    have h := raiseAlarm_not_due j t
    unfold checkSignals wakeForSignal
    split <;> exact h
  have hfix : raiseAlarm j (checkSignals j t) = checkSignals j t := by
    rw [raiseAlarm, if_neg hdue]
  rw [checkSignals, hfix]
  by_cases h : TakesSignal (raiseAlarm j t).signal (raiseAlarm j t).blocked ∧
      (raiseAlarm j t).state = .interruptible
  · simp [checkSignals, wakeForSignal, h]
  · simp [checkSignals, wakeForSignal, h]

def checkSlot (s : Tasks) (i : Fin NUMBER_OF_TASKS) : Tasks :=
  match s.tasksPtr i with
  | none => s
  | some p => s.setTask p (checkSignals s.jiffies (s.task p))

/-- The first loop of `schedule`. -/
def checkAll (s : Tasks) : Tasks := slotsDown.foldl checkSlot s

/-- The loop over the slots `l` checks each task that one of them names, once or more,
and changes nothing else. -/
theorem foldl_checkSlot (l : List (Fin NUMBER_OF_TASKS)) (s : Tasks) :
    (l.foldl checkSlot s).jiffies = s.jiffies ∧
      (l.foldl checkSlot s).current = s.current ∧
      (l.foldl checkSlot s).tasksPtr = s.tasksPtr ∧
      ∀ p, (l.foldl checkSlot s).task p =
        if ∃ i ∈ l, s.tasksPtr i = some p then checkSignals s.jiffies (s.task p)
        else s.task p := by
  induction l generalizing s with
  | nil => simp
  | cons i l ih =>
    obtain ⟨hj, hc, ht, hp⟩ := ih (checkSlot s i)
    rw [List.foldl_cons]
    cases hi : s.tasksPtr i with
    | none =>
      have hs : checkSlot s i = s := by rw [checkSlot, hi]
      rw [hs] at hj hc ht hp ⊢
      refine ⟨hj, hc, ht, fun p => ?_⟩
      rw [hp]
      simp [hi]
    | some q =>
      have hs : checkSlot s i = s.setTask q (checkSignals s.jiffies (s.task q)) := by
        rw [checkSlot, hi]
      rw [hs] at hj hc ht hp ⊢
      refine ⟨hj, hc, ht, fun p => ?_⟩
      rw [hp]
      by_cases hpq : p = q
      · subst hpq
        simp [setTask_task, hi, checkSignals_idem]
      · have hne : q ≠ p := Ne.symm hpq
        simp [setTask_task, hi, hpq, hne]

@[simp] theorem checkAll_jiffies (s : Tasks) : s.checkAll.jiffies = s.jiffies :=
  (foldl_checkSlot slotsDown s).1

@[simp] theorem checkAll_current (s : Tasks) : s.checkAll.current = s.current :=
  (foldl_checkSlot slotsDown s).2.1

@[simp] theorem checkAll_tasksPtr (s : Tasks) : s.checkAll.tasksPtr = s.tasksPtr :=
  (foldl_checkSlot slotsDown s).2.2.1

theorem checkAll_task (s : Tasks) (p : TaskPtr) :
    s.checkAll.task p =
      if s.InTable p then checkSignals s.jiffies (s.task p) else s.task p := by
  rw [checkAll, (foldl_checkSlot slotsDown s).2.2.2 p]
  exact if_congr (by simp [InTable, mem_slotsDown]) rfl rfl

/-! ## Selection -/

/-- The slot may be selected: its task is running and has time left. -/
def Eligible (s : Tasks) (i : Fin NUMBER_OF_TASKS) : Prop :=
  ∃ p, s.tasksPtr i = some p ∧ (s.task p).state = .running ∧ 0 < (s.task p).ts

/-- The body of the second loop on `next_task_nr` and `next_task_ts`. -/
def selectSlot (s : Tasks) (best : Option (Fin NUMBER_OF_TASKS) × Int32)
    (i : Fin NUMBER_OF_TASKS) : Option (Fin NUMBER_OF_TASKS) × Int32 :=
  match s.tasksPtr i with
  | none => best
  | some p =>
    if (s.task p).state = .running ∧ best.2 < (s.task p).ts then (some i, (s.task p).ts)
    else best

/-- The second loop of `schedule`: `none` is a `next_task_nr` of -1. -/
def select (s : Tasks) : Option (Fin NUMBER_OF_TASKS) :=
  (slotsDown.foldl (selectSlot s) (none, 0)).1

/-- Either nothing is selected and no visited slot is eligible, or an eligible slot is
selected and the bound is its slice. -/
theorem foldl_selectSlot (s : Tasks) (l : List (Fin NUMBER_OF_TASKS)) :
    (l.foldl (selectSlot s) (none, 0) = (none, 0) ∧ ∀ i ∈ l, ¬ s.Eligible i) ∨
      ∃ i p, s.tasksPtr i = some p ∧ (s.task p).state = .running ∧ 0 < (s.task p).ts ∧
        l.foldl (selectSlot s) (none, 0) = (some i, (s.task p).ts) := by
  induction l using List.reverseRecOn with
  | nil => left; simp
  | append_singleton l j ih =>
    rw [List.foldl_append, List.foldl_cons, List.foldl_nil]
    rcases ih with ⟨hnone, hall⟩ | ⟨i, p, hi, hrun, hts, hbest⟩
    · rw [hnone]
      by_cases hj : s.Eligible j
      · right
        obtain ⟨p, hp, hrun, hts⟩ := hj
        exact ⟨j, p, hp, hrun, hts, by simp [selectSlot, hp, hrun, hts]⟩
      · left
        refine ⟨?_, fun i hi => ?_⟩
        · cases hp : s.tasksPtr j with
          | none => simp [selectSlot, hp]
          | some p =>
            have hno : ¬ ((s.task p).state = .running ∧ (0 : Int32) < (s.task p).ts) :=
              fun h => hj ⟨p, hp, h⟩
            simp [selectSlot, hp, hno]
        · rw [List.mem_append, List.mem_singleton] at hi
          rcases hi with hi | rfl
          · exact hall i hi
          · exact hj
    · right
      rw [hbest]
      cases hp : s.tasksPtr j with
      | none => exact ⟨i, p, hi, hrun, hts, by simp [selectSlot, hp]⟩
      | some q =>
        by_cases hq : (s.task q).state = .running ∧ (s.task p).ts < (s.task q).ts
        · exact ⟨j, q, hp, hq.1, Int32.lt_trans hts hq.2, by simp [selectSlot, hp, hq]⟩
        · exact ⟨i, p, hi, hrun, hts, by simp [selectSlot, hp, hq]⟩

theorem select_eq_none {s : Tasks} : s.select = none ↔ ∀ i, ¬ s.Eligible i := by
  rcases foldl_selectSlot s slotsDown with ⟨hnone, hall⟩ | ⟨i, p, hi, hrun, hts, hbest⟩
  · simp only [select, hnone, true_iff]
    exact fun i => hall i (mem_slotsDown i)
  · simp only [select, hbest, reduceCtorEq, false_iff, not_forall, not_not]
    exact ⟨i, p, hi, hrun, hts⟩

theorem eligible_of_select {s : Tasks} {i : Fin NUMBER_OF_TASKS} (h : s.select = some i) :
    s.Eligible i := by
  rcases foldl_selectSlot s slotsDown with ⟨hnone, _⟩ | ⟨j, p, hj, hrun, hts, hbest⟩
  · rw [select, hnone] at h
    cases h
  · rw [select, hbest] at h
    cases h
    exact ⟨p, hj, hrun, hts⟩

/-! ## Refill and the whole call -/

def refillSlot (s : Tasks) (i : Fin NUMBER_OF_TASKS) : Tasks :=
  match s.tasksPtr i with
  | none => s
  | some p =>
    if (s.task p).state = .running then s.setTask p { s.task p with ts := (s.task p).priority }
    else s

/-- The third loop of `schedule`. -/
def refill (s : Tasks) : Tasks := slotsDown.foldl refillSlot s

/-- A refill changes no more than the time slices. -/
theorem foldl_refillSlot (l : List (Fin NUMBER_OF_TASKS)) (s : Tasks) :
    (l.foldl refillSlot s).jiffies = s.jiffies ∧
      (l.foldl refillSlot s).current = s.current ∧
      (l.foldl refillSlot s).tasksPtr = s.tasksPtr ∧
      ∀ p, ∃ ts, (l.foldl refillSlot s).task p = { s.task p with ts := ts } := by
  induction l generalizing s with
  | nil => exact ⟨rfl, rfl, rfl, fun p => ⟨(s.task p).ts, rfl⟩⟩
  | cons i l ih =>
    obtain ⟨hj, hc, ht, hp⟩ := ih (refillSlot s i)
    have hs : refillSlot s i = s ∨
        ∃ q, refillSlot s i = s.setTask q { s.task q with ts := (s.task q).priority } := by
      unfold refillSlot
      split
      · exact Or.inl rfl
      · split
        · exact Or.inr ⟨_, rfl⟩
        · exact Or.inl rfl
    rw [List.foldl_cons]
    rcases hs with hs | ⟨q, hs⟩
    · rw [hs] at hj hc ht hp ⊢
      exact ⟨hj, hc, ht, hp⟩
    · rw [hs] at hj hc ht hp ⊢
      refine ⟨hj, hc, ht, fun p => ?_⟩
      obtain ⟨ts, hts⟩ := hp p
      refine ⟨ts, ?_⟩
      rw [hts, setTask_task]
      by_cases hpq : p = q
      · rw [if_pos hpq, hpq]
      · rw [if_neg hpq]

@[simp] theorem refill_current (s : Tasks) : s.refill.current = s.current :=
  (foldl_refillSlot slotsDown s).2.1

@[simp] theorem refill_tasksPtr (s : Tasks) : s.refill.tasksPtr = s.tasksPtr :=
  (foldl_refillSlot slotsDown s).2.2.1

theorem refill_task (s : Tasks) (p : TaskPtr) :
    ∃ ts, s.refill.task p = { s.task p with ts := ts } :=
  (foldl_refillSlot slotsDown s).2.2.2 p

end Tasks

/-- How a call of `schedule()` gives up the CPU: it returns to its caller, or it jumps to
the task in a slot. -/
inductive Transfer
  | back
  | switchTo (nr : Fin NUMBER_OF_TASKS)
deriving DecidableEq

namespace Tasks

def schedule (s : Tasks) : Tasks × Transfer :=
  let s := s.checkAll
  match s.select with
  | none => (s.refill, .back)
  | some nr =>
    match s.tasksPtr nr with
    | some p => if s.current ≠ p then ({ s with current := p }, .switchTo nr) else (s, .back)
    | none => (s, .back)

/-- The task whose code runs when the call of `schedule()` is over. -/
def resumed (s : Tasks) : Option TaskPtr :=
  match s.schedule.2 with
  | .back => some s.current
  | .switchTo nr => s.tasksPtr nr

/-- The call comes back to a task that is `current`, in the table and running. -/
def ResumesRunning (s : Tasks) : Prop :=
  ∃ p, s.resumed = some p ∧ s.schedule.1.current = p ∧ s.schedule.1.InTable p ∧
    (s.schedule.1.task p).state = .running

theorem eligible_checkAll {s : Tasks} {i : Fin NUMBER_OF_TASKS} :
    s.checkAll.Eligible i ↔
      ∃ p, s.tasksPtr i = some p ∧ Ready s.jiffies (s.task p) ∧ 0 < (s.task p).ts := by
  have key : ∀ p, s.tasksPtr i = some p →
      s.checkAll.task p = checkSignals s.jiffies (s.task p) := by
    intro p hp
    rw [checkAll_task, if_pos ⟨i, hp⟩]
  constructor
  · intro ⟨p, hp, hrun, hts⟩
    rw [checkAll_tasksPtr] at hp
    rw [key p hp] at hrun hts
    rw [checkSignals_ts] at hts
    exact ⟨p, hp, (checkSignals_running _ _).mp hrun, hts⟩
  · intro ⟨p, hp, hready, hts⟩
    refine ⟨p, by rw [checkAll_tasksPtr, hp], ?_, ?_⟩ <;> rw [key p hp]
    · exact (checkSignals_running _ _).mpr hready
    · rwa [checkSignals_ts]

/-- With nobody eligible the call refills the slices and returns to its caller. -/
theorem schedule_refill {s : Tasks} (h : ∀ i, ¬ s.checkAll.Eligible i) :
    s.schedule = (s.checkAll.refill, .back) := by
  rw [schedule, select_eq_none.mpr h]

/-- With somebody eligible the task selected is current, in the table and running, and
the call ends in its code. -/
theorem schedule_select {s : Tasks} (h : ∃ i, s.checkAll.Eligible i) : s.ResumesRunning := by
  cases hsel : s.checkAll.select with
  | none =>
    obtain ⟨i, hi⟩ := h
    exact absurd hi (select_eq_none.mp hsel i)
  | some nr =>
    obtain ⟨p, hp, hrun, _⟩ := eligible_of_select hsel
    by_cases hc : s.checkAll.current = p
    · have hs : s.schedule = (s.checkAll, .back) := by
        simp only [schedule, hsel, hp, hc, ne_eq, not_true_eq_false, if_false]
      refine ⟨p, ?_, ?_, ?_, ?_⟩ <;> simp only [resumed, hs]
      · rw [← hc, checkAll_current]
      · exact hc
      · exact ⟨nr, hp⟩
      · exact hrun
    · have hs : s.schedule = ({ s.checkAll with current := p }, .switchTo nr) := by
        simp only [schedule, hsel, hp, ne_eq, hc, not_false_eq_true, if_true]
      refine ⟨p, ?_, ?_, ?_, ?_⟩ <;> simp only [resumed, hs]
      · rw [← checkAll_tasksPtr, hp]
      · exact ⟨nr, hp⟩
      · exact hrun

/-- `schedule()` comes back only to a running task exactly when some task it may select
is ready with time left, or its own caller is in the table and ready. -/
theorem resumesRunning_iff (s : Tasks) :
    s.ResumesRunning ↔
      (∃ i p, s.tasksPtr i = some p ∧ Ready s.jiffies (s.task p) ∧ 0 < (s.task p).ts) ∨
        (s.InTable s.current ∧ Ready s.jiffies (s.task s.current)) := by
  by_cases h : ∃ i, s.checkAll.Eligible i
  · have hleft : ∃ i p, s.tasksPtr i = some p ∧ Ready s.jiffies (s.task p) ∧
        0 < (s.task p).ts := by
      obtain ⟨i, hi⟩ := h
      exact ⟨i, eligible_checkAll.mp hi⟩
    exact ⟨fun _ => Or.inl hleft, fun _ => schedule_select h⟩
  · have hnone : ∀ i, ¬ s.checkAll.Eligible i := not_exists.mp h
    have hleft : ¬ ∃ i p, s.tasksPtr i = some p ∧ Ready s.jiffies (s.task p) ∧
        0 < (s.task p).ts := fun ⟨i, hi⟩ => hnone i (eligible_checkAll.mpr hi)
    have hs := schedule_refill hnone
    rw [or_iff_right hleft]
    have hstate : (s.checkAll.refill.task s.current).state =
        (s.checkAll.task s.current).state := by
      obtain ⟨ts, hts⟩ := refill_task s.checkAll s.current
      rw [hts]
    constructor
    · intro ⟨p, hp, _, htab, hrun⟩
      rw [resumed, hs] at hp
      cases hp
      rw [hs] at htab hrun
      have htab' : s.InTable s.current := by
        obtain ⟨i, hi⟩ := htab
        exact ⟨i, by rwa [refill_tasksPtr, checkAll_tasksPtr] at hi⟩
      refine ⟨htab', ?_⟩
      rw [hstate, checkAll_task, if_pos htab'] at hrun
      exact (checkSignals_running _ _).mp hrun
    · intro ⟨htab, hready⟩
      refine ⟨s.current, ?_, ?_, ?_, ?_⟩
      · rw [resumed, hs]
      · rw [hs, refill_current, checkAll_current]
      · rw [hs]
        obtain ⟨i, hi⟩ := htab
        exact ⟨i, by rw [refill_tasksPtr, checkAll_tasksPtr, hi]⟩
      · rw [hs, hstate, checkAll_task, if_pos htab]
        exact (checkSignals_running _ _).mpr hready

/-! ## What a call leaves alone -/

theorem checkSignals_keeps (j : Int32) (t : TaskStruct) :
    Keeps t (checkSignals j t) ∧ (checkSignals j t).father = t.father ∧
      ((checkSignals j t).state = .zombie ↔ t.state = .zombie) := by
  have hraise : Keeps t (raiseAlarm j t) ∧ (raiseAlarm j t).father = t.father ∧
      (raiseAlarm j t).state = t.state := by
    unfold raiseAlarm
    split
    · exact ⟨⟨rfl, rfl, sigBit SIGALRM, rfl⟩, rfl, rfl⟩
    · exact ⟨Keeps.refl t, rfl, rfl⟩
  obtain ⟨hk, hf, hs⟩ := hraise
  rw [← hs]
  unfold checkSignals wakeForSignal
  split
  · rename_i hc
    exact ⟨hk.trans ⟨rfl, rfl, 0, (BitVec.or_zero).symm⟩, hf, by simp [hc.2]⟩
  · exact ⟨hk, hf, Iff.rfl⟩

theorem checkSignals_state (j : Int32) {t : TaskStruct} (h : t.state ≠ .interruptible) :
    (checkSignals j t).state = t.state := by
  rw [checkSignals, wakeForSignal, raiseAlarm_state, if_neg fun hc => h hc.2, raiseAlarm_state]

theorem schedule_tasksPtr (s : Tasks) : s.schedule.1.tasksPtr = s.tasksPtr := by
  unfold schedule
  dsimp only
  split
  · rw [refill_tasksPtr, checkAll_tasksPtr]
  · split
    · split <;> exact checkAll_tasksPtr s
    · exact checkAll_tasksPtr s

/-- After its first loop `schedule()` changes nothing in a task but the slice. -/
theorem schedule_slice (s : Tasks) (p : TaskPtr) :
    ∃ ts, s.schedule.1.task p = { s.checkAll.task p with ts := ts } := by
  unfold schedule
  dsimp only
  split
  · exact refill_task s.checkAll p
  · refine ⟨(s.checkAll.task p).ts, ?_⟩
    split
    · split <;> rfl
    · rfl

/-- A call of `schedule()` changes time slices, alarms and signals, and wakes sleepers. -/
theorem schedule_task (s : Tasks) (p : TaskPtr) :
    Keeps (s.task p) (s.schedule.1.task p) ∧
      (s.schedule.1.task p).father = (s.task p).father ∧
      ((s.schedule.1.task p).state = .zombie ↔ (s.task p).state = .zombie) := by
  have hcheck : Keeps (s.task p) (s.checkAll.task p) ∧
      (s.checkAll.task p).father = (s.task p).father ∧
      ((s.checkAll.task p).state = .zombie ↔ (s.task p).state = .zombie) := by
    rw [checkAll_task]
    split
    · exact checkSignals_keeps _ _
    · exact ⟨Keeps.refl _, rfl, Iff.rfl⟩
  obtain ⟨ts, hts⟩ := schedule_slice s p
  rw [hts]
  exact ⟨hcheck.1.trans ⟨rfl, rfl, 0, (BitVec.or_zero).symm⟩, hcheck.2⟩

/-- Only an interruptible sleeper is woken. -/
theorem schedule_state {s : Tasks} {p : TaskPtr} (h : (s.task p).state ≠ .interruptible) :
    (s.schedule.1.task p).state = (s.task p).state := by
  obtain ⟨ts, hts⟩ := schedule_slice s p
  rw [hts, checkAll_task]
  split
  · exact checkSignals_state _ h
  · rfl

end Tasks

end Kernel
end CherryOS
