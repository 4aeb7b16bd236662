import CherryOS.Kernel.Sched

/-!
# The timer interrupt

`do_timer_interrupt` takes one tick off the slice of the current task, charges the tick to
its user or kernel time, and in user mode calls `schedule()` once the slice is used up.

A set of running tasks that no other task can join shares the processor by priority.  A
round starts when all their slices are full.  Each tick takes one unit off the slice of the
task it charges, and whoever is current has a unit left, so the units left are the ticks
left (`tick_spec`).  Only the last tick finds every slice empty, and it fills them again.
-/

namespace CherryOS
namespace Kernel

/-- `cs & 3`, the privilege level of the code that was interrupted, is not 0. -/
def UserMode (cs : U32) : Prop := cs &&& 3 ≠ 0

instance (cs : U32) : Decidable (UserMode cs) := inferInstanceAs (Decidable (_ ≠ _))

namespace Tasks

/-- What the interrupt does before it decides whether to schedule. -/
def chargeTick (cs : U32) (s : Tasks) : Tasks :=
  let s := { s with jiffies := s.jiffies + 1 }
  let t := { s.task s.current with ts := (s.task s.current).ts - 1 }
  if UserMode cs then s.setTask s.current { t with uts := t.uts + 1 }
  else s.setTask s.current { t with kts := t.kts + 1 }

def SliceOver (s : Tasks) : Prop := (s.task s.current).ts ≤ 0

instance (s : Tasks) : Decidable s.SliceOver := inferInstanceAs (Decidable (_ ≤ _))

def doTimerInterrupt (cs : U32) (s : Tasks) : Tasks × Transfer :=
  let s := s.chargeTick cs
  if UserMode cs ∧ s.SliceOver then s.schedule else (s, .back)

/-- The tick runs the third loop of `schedule()`. -/
def RefillsAt (cs : U32) (s : Tasks) : Prop :=
  UserMode cs ∧ (s.chargeTick cs).SliceOver ∧ (s.chargeTick cs).checkAll.select = none

/-- The state after `n` ticks, of which tick `k` interrupts code with the selector `cs k`. -/
def ticks (cs : Nat → U32) (s : Tasks) : Nat → Tasks
  | 0 => s
  | n + 1 => ((ticks cs s n).doTimerInterrupt (cs n)).1

theorem ticks_add (cs : Nat → U32) (s : Tasks) (m n : Nat) :
    s.ticks cs (m + n) = (s.ticks cs m).ticks (fun k => cs (m + k)) n := by
  induction n with
  | zero => rfl
  | succ n ih =>
    show ((s.ticks cs (m + n)).doTimerInterrupt (cs (m + n))).1 = _
    rw [ih]
    rfl

/-! ## Refill, exactly -/

theorem foldl_refillSlot_task (l : List (Fin NUMBER_OF_TASKS)) (s : Tasks) (p : TaskPtr) :
    (l.foldl refillSlot s).task p =
      if (∃ i ∈ l, s.tasksPtr i = some p) ∧ (s.task p).state = .running then
        { s.task p with ts := (s.task p).priority }
      else s.task p := by
  induction l generalizing s with
  | nil => simp
  | cons i l ih =>
    rw [List.foldl_cons, ih]
    cases hi : s.tasksPtr i with
    | none =>
      have hs : refillSlot s i = s := by rw [refillSlot, hi]
      rw [hs]
      simp [hi]
    | some q =>
      by_cases hq : (s.task q).state = .running
      · have hs : refillSlot s i = s.setTask q { s.task q with ts := (s.task q).priority } := by
          simp only [refillSlot, hi, hq, if_true]
        rw [hs, setTask_task]
        by_cases hpq : p = q
        · subst hpq
          simp [hi, hq]
        · have hne : q ≠ p := Ne.symm hpq
          simp [hi, hpq, hne]
      · have hs : refillSlot s i = s := by simp only [refillSlot, hi, hq, if_false]
        rw [hs]
        by_cases hpq : p = q
        · subst hpq
          simp [hq]
        · have hne : q ≠ p := Ne.symm hpq
          simp [hi, hne]

theorem refill_task_eq (s : Tasks) (p : TaskPtr) :
    s.refill.task p =
      if s.InTable p ∧ (s.task p).state = .running then
        { s.task p with ts := (s.task p).priority }
      else s.task p := by
  rw [refill, foldl_refillSlot_task]
  exact if_congr (by simp [InTable, mem_slotsDown]) rfl rfl

end Tasks

/-! ## Sharing the processor -/

/-- The task is not running, and no alarm or signal is due that would wake it. -/
def Dormant (t : TaskStruct) : Prop :=
  t.state ≠ .running ∧
    (t.state = .interruptible → t.alarm = 0 ∧ ¬ Tasks.TakesSignal t.signal t.blocked)

instance (t : TaskStruct) : Decidable (Dormant t) := inferInstanceAs (Decidable (_ ∧ _))

/-- The units left in a slice. -/
def TaskStruct.left (t : TaskStruct) : Nat := t.ts.toInt.toNat

/-- The units a refill gives. -/
def TaskStruct.share (t : TaskStruct) : Nat := t.priority.toInt.toNat

theorem checkSignals_dormant {t : TaskStruct} (h : Dormant t) (j : Int32) :
    Dormant (Tasks.checkSignals j t) := by
  by_cases hi : t.state = .interruptible
  · obtain ⟨ha, hs⟩ := h.2 hi
    have hraise : Tasks.raiseAlarm j t = t := by
      rw [Tasks.raiseAlarm, if_neg fun hd => hd.1 ha]
    rw [Tasks.checkSignals, hraise, Tasks.wakeForSignal, if_neg fun hc => hs hc.1]
    exact h
  · have hst := Tasks.checkSignals_state j hi
    refine ⟨by rw [hst]; exact h.1, fun hc => ?_⟩
    rw [hst] at hc
    exact absurd hc hi

/-- What `schedule()` reads and writes of a running task is not changed by its first loop. -/
theorem checkSignals_running_task {t : TaskStruct} (h : t.state = .running) (j : Int32) :
    (Tasks.checkSignals j t).state = .running ∧ (Tasks.checkSignals j t).ts = t.ts ∧
      (Tasks.checkSignals j t).priority = t.priority ∧
      (Tasks.checkSignals j t).uts = t.uts := by
  refine ⟨(Tasks.checkSignals_running j t).mpr (Or.inl h), Tasks.checkSignals_ts j t, ?_, ?_⟩ <;>
  · unfold Tasks.checkSignals Tasks.wakeForSignal Tasks.raiseAlarm
    split <;> split <;> rfl

/-- The tasks of `R` are in the table, running, with a positive priority, and one of them is
current; every other task of the table is dormant. -/
structure Sharing (R : Finset TaskPtr) (s : Tasks) : Prop where
  inTable : ∀ p ∈ R, s.InTable p
  running : ∀ p ∈ R, (s.task p).state = .running
  positive : ∀ p ∈ R, 0 < (s.task p).priority
  others : ∀ p, s.InTable p → p ∉ R → Dormant (s.task p)
  current : s.current ∈ R

/-- Just after a refill: every slice is full. -/
structure Refilled (R : Finset TaskPtr) (s : Tasks) : Prop extends Sharing R s where
  full : ∀ p ∈ R, (s.task p).ts = (s.task p).priority

/-- Within a round: no slice is negative, and the current task has a unit left. -/
structure Underway (R : Finset TaskPtr) (s : Tasks) : Prop extends Sharing R s where
  nonneg : ∀ p ∈ R, 0 ≤ (s.task p).ts
  unit : 0 < (s.task s.current).ts

variable {R : Finset TaskPtr} {s s' : Tasks} {cs : U32}

theorem Sharing.congr (h : Sharing R s) (htab : s'.tasksPtr = s.tasksPtr)
    (hcur : s'.current ∈ R)
    (hrun : ∀ p ∈ R, (s'.task p).state = (s.task p).state ∧
      (s'.task p).priority = (s.task p).priority)
    (hoth : ∀ p, s.InTable p → p ∉ R → Dormant (s'.task p)) : Sharing R s' := by
  have hin : ∀ p, s'.InTable p ↔ s.InTable p := by
    intro p
    rw [Tasks.InTable, htab, Tasks.InTable]
  refine ⟨fun p hp => (hin p).mpr (h.inTable p hp), fun p hp => ?_, fun p hp => ?_,
    fun p hp => hoth p ((hin p).mp hp), hcur⟩
  · rw [(hrun p hp).1, h.running p hp]
  · rw [(hrun p hp).2]
    exact h.positive p hp

theorem Refilled.underway (h : Refilled R s) : Underway R s := by
  refine ⟨h.toSharing, fun p hp => ?_, ?_⟩
  · rw [h.full p hp]
    exact Int32.le_of_lt (h.positive p hp)
  · rw [h.full _ h.current]
    exact h.positive _ h.current

theorem Refilled.left_eq (h : Refilled R s) {p : TaskPtr} (hp : p ∈ R) :
    (s.task p).left = (s.task p).share := by
  rw [TaskStruct.left, h.full p hp, TaskStruct.share]

/-! ## One tick -/

theorem chargeTick_task (h : UserMode cs) (p : TaskPtr) :
    (s.chargeTick cs).task p =
      if p = s.current then
        { s.task p with ts := (s.task p).ts - 1, uts := (s.task p).uts + 1 }
      else s.task p := by
  rw [Tasks.chargeTick, if_pos h, Tasks.setTask_task]
  by_cases hp : p = s.current
  · rw [if_pos hp, if_pos hp, hp]
  · rw [if_neg hp, if_neg hp]

theorem chargeTick_current (cs : U32) (s : Tasks) : (s.chargeTick cs).current = s.current := by
  unfold Tasks.chargeTick
  dsimp only
  split <;> rfl

theorem chargeTick_tasksPtr (cs : U32) (s : Tasks) :
    (s.chargeTick cs).tasksPtr = s.tasksPtr := by
  unfold Tasks.chargeTick
  dsimp only
  split <;> rfl

theorem toInt_pred {x : Int32} (h : 0 < x) : (x - 1).toInt = x.toInt - 1 := by
  have hpos : 0 < x.toInt := Int32.lt_iff_toInt_lt.mp h
  have hlt := x.toInt_lt
  rw [Int32.toInt_sub, Int32.toInt_one, Int.bmod_def]
  split <;> omega

/-- The tick takes one unit from the task it charges. -/
theorem Underway.chargeTick (h : Underway R s) (hcs : UserMode cs) :
    Sharing R (s.chargeTick cs) ∧ ∀ p ∈ R, 0 ≤ ((s.chargeTick cs).task p).ts ∧
      ((s.chargeTick cs).task p).priority = (s.task p).priority ∧
      (s.task p).left = ((s.chargeTick cs).task p).left + (if p = s.current then 1 else 0) ∧
      ((s.chargeTick cs).task p).uts =
        (s.task p).uts + (if p = s.current then 1 else 0) := by
  have hcur : s.current ∈ R := h.current
  refine ⟨h.toSharing.congr (chargeTick_tasksPtr cs s) ?_ (fun p hp => ?_) fun p hin hp => ?_,
    fun p hp => ?_⟩
  · rw [chargeTick_current]
    exact hcur
  · rw [chargeTick_task hcs]
    split <;> exact ⟨rfl, rfl⟩
  · have hne : p ≠ s.current := fun e => hp (e ▸ hcur)
    rw [chargeTick_task hcs, if_neg hne]
    exact h.others p hin hp
  · rw [chargeTick_task hcs]
    by_cases hpc : p = s.current
    · have hunit : 0 < (s.task p).ts := hpc ▸ h.unit
      have hpred := toInt_pred hunit
      have hpos : 0 < (s.task p).ts.toInt := Int32.lt_iff_toInt_lt.mp hunit
      rw [if_pos hpc, if_pos hpc, if_pos hpc]
      refine ⟨?_, rfl, ?_, rfl⟩
      · rw [Int32.le_iff_toInt_le, hpred, Int32.toInt_zero]
        omega
      · show (s.task p).ts.toInt.toNat = ((s.task p).ts - 1).toInt.toNat + 1
        omega
    · rw [if_neg hpc, if_neg hpc, if_neg hpc]
      exact ⟨h.nonneg p hp, rfl, rfl, (BitVec.add_zero _).symm⟩

/-- The first loop of `schedule()` changes nothing the sharing tasks depend on. -/
theorem Sharing.checkAll (h : Sharing R s) :
    Sharing R s.checkAll ∧ ∀ p ∈ R, (s.checkAll.task p).ts = (s.task p).ts ∧
      (s.checkAll.task p).priority = (s.task p).priority ∧
      (s.checkAll.task p).uts = (s.task p).uts := by
  have key : ∀ p ∈ R, (s.checkAll.task p).state = (s.task p).state ∧
      (s.checkAll.task p).ts = (s.task p).ts ∧
      (s.checkAll.task p).priority = (s.task p).priority ∧
      (s.checkAll.task p).uts = (s.task p).uts := by
    intro p hp
    obtain ⟨hst, hrest⟩ := checkSignals_running_task (h.running p hp) s.jiffies
    rw [Tasks.checkAll_task, if_pos (h.inTable p hp)]
    exact ⟨hst.trans (h.running p hp).symm, hrest⟩
  refine ⟨h.congr (Tasks.checkAll_tasksPtr s) ?_ (fun p hp => ?_) fun p hin hp => ?_,
    fun p hp => (key p hp).2⟩
  · rw [Tasks.checkAll_current]
    exact h.current
  · exact ⟨(key p hp).1, (key p hp).2.2.1⟩
  · rw [Tasks.checkAll_task, if_pos hin]
    exact checkSignals_dormant (h.others p hin hp) _

/-- A refill fills the slices of the sharing tasks and of nobody else. -/
theorem Sharing.refill (h : Sharing R s) :
    Refilled R s.refill ∧ ∀ p ∈ R, (s.refill.task p).priority = (s.task p).priority ∧
      (s.refill.task p).uts = (s.task p).uts := by
  have key : ∀ p ∈ R, s.refill.task p = { s.task p with ts := (s.task p).priority } := by
    intro p hp
    rw [Tasks.refill_task_eq, if_pos ⟨h.inTable p hp, h.running p hp⟩]
  refine ⟨⟨h.congr (Tasks.refill_tasksPtr s) ?_ (fun p hp => ?_) fun p hin hp => ?_,
    fun p hp => ?_⟩, fun p hp => ?_⟩
  · rw [Tasks.refill_current]
    exact h.current
  · rw [key p hp]
    exact ⟨rfl, rfl⟩
  · have hd := h.others p hin hp
    rw [Tasks.refill_task_eq, if_neg fun hc => hd.1 hc.2]
    exact hd
  · rw [key p hp]
  · rw [key p hp]
    exact ⟨rfl, rfl⟩

/-- Only a sharing task can be selected. -/
theorem Sharing.selected (h : Sharing R s) {nr : Fin NUMBER_OF_TASKS}
    (hsel : s.select = some nr) :
    ∃ p ∈ R, s.tasksPtr nr = some p ∧ 0 < (s.task p).ts := by
  obtain ⟨p, hp, hrun, hts⟩ := Tasks.eligible_of_select hsel
  have hpR : p ∈ R := by
    by_contra hn
    exact (h.others p ⟨nr, hp⟩ hn).1 hrun
  exact ⟨p, hpR, hp, hts⟩

theorem Sharing.none_left (h : Sharing R s) (hsel : s.select = none) {p : TaskPtr}
    (hp : p ∈ R) : (s.task p).left = 0 := by
  have hno : ¬ 0 < (s.task p).ts := by
    intro hts
    obtain ⟨i, hi⟩ := h.inTable p hp
    exact Tasks.select_eq_none.mp hsel i ⟨p, hi, h.running p hp, hts⟩
  have hle : ¬ 0 < (s.task p).ts.toInt := fun hc => hno (Int32.lt_iff_toInt_lt.mpr hc)
  rw [TaskStruct.left]
  omega

/-- One tick charges the current task.  It ends the round with a refill exactly when no unit
is left after it, and otherwise hands the processor to a task with a unit left. -/
theorem Underway.tick (h : Underway R s) (hcs : UserMode cs) :
    (∀ p ∈ R, ((s.doTimerInterrupt cs).1.task p).priority = (s.task p).priority ∧
      ((s.doTimerInterrupt cs).1.task p).uts =
        (s.task p).uts + (if p = s.current then 1 else 0)) ∧
    ((s.RefillsAt cs ∧ Refilled R (s.doTimerInterrupt cs).1 ∧
        ∀ p ∈ R, (s.task p).left = if p = s.current then 1 else 0) ∨
      (¬ s.RefillsAt cs ∧ Underway R (s.doTimerInterrupt cs).1 ∧
        ∀ p ∈ R, (s.task p).left =
          ((s.doTimerInterrupt cs).1.task p).left + if p = s.current then 1 else 0)) := by
  obtain ⟨hsh, hcharge⟩ := h.chargeTick hcs
  by_cases hover : (s.chargeTick cs).SliceOver
  · obtain ⟨hall, hkeep⟩ := hsh.checkAll
    have hleft : ∀ p ∈ R, ((s.chargeTick cs).checkAll.task p).left =
        ((s.chargeTick cs).task p).left := fun p hp => by
      rw [TaskStruct.left, (hkeep p hp).1, TaskStruct.left]
    cases hsel : (s.chargeTick cs).checkAll.select with
    | none =>
      have htick : s.doTimerInterrupt cs = ((s.chargeTick cs).checkAll.refill, .back) := by
        simp only [Tasks.doTimerInterrupt, if_pos (And.intro hcs hover), Tasks.schedule, hsel]
      obtain ⟨hfull, hfillkeep⟩ := hall.refill
      rw [htick]
      refine ⟨fun p hp => ?_, Or.inl ⟨⟨hcs, hover, hsel⟩, hfull, fun p hp => ?_⟩⟩
      · obtain ⟨_, hprio, _, huts⟩ := hcharge p hp
        rw [(hfillkeep p hp).1, (hfillkeep p hp).2, (hkeep p hp).2.1, (hkeep p hp).2.2]
        exact ⟨hprio, huts⟩
      · have hzero := hall.none_left hsel hp
        rw [hleft p hp] at hzero
        rw [(hcharge p hp).2.2.1, hzero, Nat.zero_add]
    | some nr =>
      obtain ⟨p, hpR, hptr, hts⟩ := hall.selected hsel
      have hne : (s.chargeTick cs).checkAll.current ≠ p := by
        rintro rfl
        have hlt := Int32.lt_iff_toInt_lt.mp hts
        have hle := Int32.le_iff_toInt_le.mp hover
        rw [(hkeep _ hpR).1, Tasks.checkAll_current] at hlt
        omega
      have htick : s.doTimerInterrupt cs =
          ({ (s.chargeTick cs).checkAll with current := p }, .switchTo nr) := by
        simp only [Tasks.doTimerInterrupt, if_pos (And.intro hcs hover), Tasks.schedule, hsel,
          hptr, ne_eq, hne, not_false_eq_true, if_true]
      have hno : ¬ s.RefillsAt cs := by
        rintro ⟨_, _, hc⟩
        rw [hsel] at hc
        cases hc
      rw [htick]
      refine ⟨fun q hq => ?_, Or.inr ⟨hno, ⟨⟨hall.inTable, hall.running, hall.positive,
        hall.others, hpR⟩, fun q hq => ?_, hts⟩, fun q hq => ?_⟩⟩
      · obtain ⟨_, hprio, _, huts⟩ := hcharge q hq
        refine ⟨(hkeep q hq).2.1.trans hprio, (hkeep q hq).2.2.trans huts⟩
      · show 0 ≤ ((s.chargeTick cs).checkAll.task q).ts
        rw [(hkeep q hq).1]
        exact (hcharge q hq).1
      · show _ = ((s.chargeTick cs).checkAll.task q).left + _
        rw [hleft q hq]
        exact (hcharge q hq).2.2.1
  · have htick : s.doTimerInterrupt cs = (s.chargeTick cs, .back) := by
      simp only [Tasks.doTimerInterrupt, hover, and_false, if_false]
    have hunit : 0 < ((s.chargeTick cs).task (s.chargeTick cs).current).ts := by
      have hno : ¬ ((s.chargeTick cs).task (s.chargeTick cs).current).ts ≤ 0 := hover
      rw [Int32.le_iff_toInt_le] at hno
      rw [Int32.lt_iff_toInt_lt]
      omega
    rw [htick]
    refine ⟨fun p hp => ⟨(hcharge p hp).2.1, (hcharge p hp).2.2.2⟩,
      Or.inr ⟨fun hc => hover hc.2.1, ⟨hsh, fun p hp => (hcharge p hp).1, hunit⟩,
        fun p hp => (hcharge p hp).2.2.1⟩⟩

/-! ## One round -/

/-- The ticks before tick `n` that are charged to `p`. -/
def charged (cs : Nat → U32) (s : Tasks) (n : Nat) (p : TaskPtr) : Finset Nat :=
  (Finset.range n).filter fun k => (s.ticks cs k).current = p

theorem card_charged_succ (cs : Nat → U32) (s : Tasks) (n : Nat) (p : TaskPtr) :
    (charged cs s (n + 1) p).card =
      (charged cs s n p).card + if p = (s.ticks cs n).current then 1 else 0 := by
  rw [charged, Finset.range_add_one, Finset.filter_insert]
  by_cases h : (s.ticks cs n).current = p
  · rw [if_pos h, if_pos h.symm, Finset.card_insert_of_notMem (by simp), charged]
  · rw [if_neg h, if_neg (Ne.symm h), charged, Nat.add_zero]

/-- The units left to all tasks of `R`. -/
def unitsLeft (R : Finset TaskPtr) (s : Tasks) : Nat := ∑ p ∈ R, (s.task p).left

def roundLength (R : Finset TaskPtr) (s : Tasks) : Nat := ∑ p ∈ R, (s.task p).share

theorem Underway.unitsLeft_pos (h : Underway R s) : 0 < unitsLeft R s := by
  have hunit : 0 < (s.task s.current).left := by
    have hu := Int32.lt_iff_toInt_lt.mp h.unit
    rw [Int32.toInt_zero] at hu
    rw [TaskStruct.left]
    omega
  have hle := Finset.single_le_sum (f := fun p => (s.task p).left) (fun _ _ => Nat.zero_le _)
    h.current
  rw [unitsLeft]
  omega

theorem sum_current {c : TaskPtr} (hc : c ∈ R) : (∑ p ∈ R, if p = c then 1 else 0) = 1 := by
  rw [Finset.sum_ite_eq' R c fun _ => 1, if_pos hc]

/-- Halfway through a round: what a task has been charged and what it has left make up its
share, and the units left are the ticks left. -/
structure Halfway (R : Finset TaskPtr) (cs : Nat → U32) (s : Tasks) (n : Nat) : Prop
    extends Underway R (s.ticks cs n) where
  balance : ∀ p ∈ R, (charged cs s n p).card + ((s.ticks cs n).task p).left = (s.task p).share
  ticksLeft : unitsLeft R (s.ticks cs n) + n = roundLength R s

/-- What a stretch of ticks leaves alone, and whom it charges. -/
structure Accounts (R : Finset TaskPtr) (cs : Nat → U32) (s : Tasks) (n : Nat) : Prop where
  priority : ∀ p ∈ R, ((s.ticks cs n).task p).priority = (s.task p).priority
  uts : ∀ p ∈ R, ((s.ticks cs n).task p).uts =
    (s.task p).uts + BitVec.ofNat 32 (charged cs s n p).card

theorem Accounts.zero (R : Finset TaskPtr) (cs : Nat → U32) (s : Tasks) : Accounts R cs s 0 :=
  ⟨fun _ _ => rfl, fun _ _ => (BitVec.add_zero _).symm⟩

theorem Accounts.succ {cs : Nat → U32} {n : Nat} (h : Accounts R cs s n)
    (hu : Underway R (s.ticks cs n)) (hcs : UserMode (cs n)) : Accounts R cs s (n + 1) := by
  obtain ⟨hkeep, _⟩ := hu.tick hcs
  refine ⟨fun p hp => ?_, fun p hp => ?_⟩
  · exact (hkeep p hp).1.trans (h.priority p hp)
  · rw [card_charged_succ, BitVec.ofNat_add, ← BitVec.add_assoc, ← h.uts p hp]
    refine (hkeep p hp).2.trans ?_
    split <;> rfl

/-- The run through a round: before its last tick it is under way and has not refilled, and
its last tick refills. -/
theorem Refilled.round (h : Refilled R s) (cs : Nat → U32) (hcs : ∀ k, UserMode (cs k))
    (n : Nat) :
    (n < roundLength R s → Halfway R cs s n ∧ Accounts R cs s n) ∧
    (n + 1 < roundLength R s → ¬ (s.ticks cs n).RefillsAt (cs n)) ∧
    (n + 1 = roundLength R s → (s.ticks cs n).RefillsAt (cs n) ∧
      Refilled R (s.ticks cs (n + 1)) ∧ Accounts R cs s (n + 1) ∧
      ∀ p ∈ R, (charged cs s (n + 1) p).card = (s.task p).share) := by
  have hway : n < roundLength R s → Halfway R cs s n ∧ Accounts R cs s n := by
    induction n with
    | zero =>
      refine fun _ => ⟨⟨h.underway, fun p hp => ?_, ?_⟩, Accounts.zero R cs s⟩
      · rw [charged, Finset.range_zero, Finset.filter_empty, Finset.card_empty, Nat.zero_add]
        exact h.left_eq hp
      · exact Finset.sum_congr rfl fun p hp => h.left_eq hp
    | succ n ih =>
      intro hn
      obtain ⟨hhalf, hacc⟩ := ih (by omega)
      have hsum := hhalf.ticksLeft
      obtain ⟨_, ⟨_, _, hlast⟩ | ⟨_, hunder, hleft⟩⟩ := hhalf.tick (hcs n)
      · rw [unitsLeft, Finset.sum_congr rfl hlast, sum_current hhalf.current] at hsum
        omega
      · refine ⟨⟨hunder, fun p hp => ?_, ?_⟩, hacc.succ hhalf.toUnderway (hcs n)⟩
        · have hbal := hhalf.balance p hp
          have hl : ((s.ticks cs n).task p).left = ((s.ticks cs (n + 1)).task p).left +
            if p = (s.ticks cs n).current then 1 else 0 := hleft p hp
          rw [card_charged_succ]
          omega
        · rw [unitsLeft, Finset.sum_congr rfl hleft, Finset.sum_add_distrib,
            sum_current hhalf.current] at hsum
          have hu : unitsLeft R (s.ticks cs (n + 1)) =
            ∑ p ∈ R, (((s.ticks cs n).doTimerInterrupt (cs n)).1.task p).left := rfl
          omega
  refine ⟨hway, fun hn => ?_, fun hn => ?_⟩
  all_goals
    obtain ⟨hhalf, hacc⟩ := hway (by omega)
    have hsum := hhalf.ticksLeft
    obtain ⟨_, ⟨hr, hfull, hlast⟩ | ⟨hno, hunder, hleft⟩⟩ := hhalf.tick (hcs n)
  · rw [unitsLeft, Finset.sum_congr rfl hlast, sum_current hhalf.current] at hsum
    omega
  · exact hno
  · refine ⟨hr, hfull, hacc.succ hhalf.toUnderway (hcs n), fun p hp => ?_⟩
    have hbal := hhalf.balance p hp
    rw [hlast p hp] at hbal
    rw [card_charged_succ, hbal]
  · exfalso
    rw [unitsLeft, Finset.sum_congr rfl hleft, Finset.sum_add_distrib,
      sum_current hhalf.current] at hsum
    have hpos := hunder.unitsLeft_pos
    rw [unitsLeft] at hpos
    omega

/-! ## Any number of rounds -/

theorem roundLength_congr (h : ∀ p ∈ R, (s'.task p).priority = (s.task p).priority) :
    roundLength R s' = roundLength R s :=
  Finset.sum_congr rfl fun p hp => by rw [TaskStruct.share, h p hp, TaskStruct.share]

theorem Refilled.roundLength_pos (h : Refilled R s) : 0 < roundLength R s := by
  have hpos := h.underway.unitsLeft_pos
  rwa [unitsLeft, Finset.sum_congr rfl fun p hp => h.left_eq hp] at hpos

/-- Each round starts as the first one did. -/
theorem Refilled.rounds (h : Refilled R s) (cs : Nat → U32) (hcs : ∀ k, UserMode (cs k))
    (r : Nat) :
    Refilled R (s.ticks cs (r * roundLength R s)) ∧
      ∀ p ∈ R, ((s.ticks cs (r * roundLength R s)).task p).priority = (s.task p).priority := by
  induction r with
  | zero =>
    rw [Nat.zero_mul]
    exact ⟨h, fun _ _ => rfl⟩
  | succ r ih =>
    obtain ⟨hfull, hprio⟩ := ih
    have hlen := roundLength_congr hprio
    have hpos := h.roundLength_pos
    obtain ⟨_, _, hend⟩ := hfull.round (fun k => cs (r * roundLength R s + k))
      (fun k => hcs _) (roundLength R s - 1)
    rw [hlen, Nat.sub_add_cancel hpos] at hend
    obtain ⟨_, hfull', hacc, _⟩ := hend rfl
    rw [Nat.succ_mul, Tasks.ticks_add]
    exact ⟨hfull', fun p hp => (hacc.priority p hp).trans (hprio p hp)⟩

/-- In every round of timer interrupts from user mode each sharing task is charged exactly as
many ticks as its priority says, the last tick and no other refills, and all slices are full
again after it. -/
theorem proportional_share (h : Refilled R s) (cs : Nat → U32) (hcs : ∀ k, UserMode (cs k))
    (r : Nat) :
    (∀ p ∈ R,
      ((Finset.range (roundLength R s)).filter fun k =>
          (s.ticks cs (r * roundLength R s + k)).current = p).card = (s.task p).share ∧
        ((s.ticks cs ((r + 1) * roundLength R s)).task p).uts =
          ((s.ticks cs (r * roundLength R s)).task p).uts +
            BitVec.ofNat 32 (s.task p).share) ∧
    (∀ k < roundLength R s,
      (s.ticks cs (r * roundLength R s + k)).current ∈ R ∧
        ((s.ticks cs (r * roundLength R s + k)).RefillsAt (cs (r * roundLength R s + k)) ↔
          k + 1 = roundLength R s)) ∧
    Refilled R (s.ticks cs ((r + 1) * roundLength R s)) ∧
    ∀ p ∈ R, ((s.ticks cs ((r + 1) * roundLength R s)).task p).ts = (s.task p).priority := by
  obtain ⟨hfull, hprio⟩ := h.rounds cs hcs r
  obtain ⟨hfull', hprio'⟩ := h.rounds cs hcs (r + 1)
  have hlen := roundLength_congr hprio
  have hpos := h.roundLength_pos
  have hround := fun k => hfull.round (fun k => cs (r * roundLength R s + k))
    (fun k => hcs _) k
  rw [hlen] at hround
  refine ⟨fun p hp => ?_, fun k hk => ⟨?_, ?_⟩, hfull', fun p hp => ?_⟩
  · obtain ⟨_, _, hacc, hcount⟩ := (hround (roundLength R s - 1)).2.2 (by omega)
    rw [Nat.sub_add_cancel hpos] at hacc hcount
    have hshare : ((s.ticks cs (r * roundLength R s)).task p).share = (s.task p).share := by
      rw [TaskStruct.share, hprio p hp, TaskStruct.share]
    have hcount := (hcount p hp).trans hshare
    refine ⟨?_, ?_⟩
    · rw [← hcount, charged]
      simp only [Tasks.ticks_add]
    · rw [Nat.succ_mul, Tasks.ticks_add, hacc.uts p hp, hcount]
  · rw [Tasks.ticks_add]
    exact ((hround k).1 hk).1.current
  · rw [Tasks.ticks_add]
    constructor
    · intro hr
      by_contra hne
      exact (hround k).2.1 (by omega) hr
    · exact fun he => ((hround k).2.2 he).1
  · rw [hfull'.full p hp, hprio' p hp]

/-- The idle task with ten units, another running task with two, and a sleeper. -/
def threeTasks : Tasks where
  jiffies := 7
  current := .task0
  tasksPtr := fun i =>
    if i = 0 then some .task0
    else if i = 1 then some (.frame 0x400000)
    else if i = 2 then some (.frame 0x401000)
    else none
  task := fun p =>
    if p = .frame 0x400000 then { initTask0 ⟨0, 0, 0⟩ with ts := 2, priority := 2 }
    else if p = .frame 0x401000 then { initTask0 ⟨0, 0, 0⟩ with state := .interruptible }
    else initTask0 ⟨0, 0, 0⟩

theorem refilled_threeTasks : Refilled {.task0, .frame 0x400000} threeTasks := by
  have htab : ∀ p, threeTasks.InTable p →
      p = .task0 ∨ p = .frame 0x400000 ∨ p = .frame 0x401000 := by
    rintro p ⟨i, hi⟩
    simp only [threeTasks] at hi
    split at hi
    · exact Or.inl (Option.some.inj hi).symm
    · split at hi
      · exact Or.inr (Or.inl (Option.some.inj hi).symm)
      · split at hi
        · exact Or.inr (Or.inr (Option.some.inj hi).symm)
        · cases hi
  refine ⟨⟨?_, ?_, ?_, fun p hp hn => ?_, by decide⟩, ?_⟩
  · intro p hp
    rcases Finset.mem_insert.mp hp with rfl | hp
    · exact ⟨0, rfl⟩
    · rw [Finset.mem_singleton.mp hp]
      exact ⟨1, rfl⟩
  · decide
  · decide
  · rcases htab p hp with rfl | rfl | rfl
    · exact absurd (by decide) hn
    · exact absurd (by decide) hn
    · decide
  · decide

theorem proportional_share_threeTasks :
    ((Finset.range 12).filter fun k =>
      (threeTasks.ticks (fun _ => 0x0F) (5 * 12 + k)).current = .frame 0x400000).card = 2 :=
  ((proportional_share refilled_threeTasks (fun _ => 0x0F) (fun _ => by decide) 5).1
    (.frame 0x400000) (by decide)).1

end Kernel
end CherryOS
