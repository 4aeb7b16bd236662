import CherryOS.Kernel.Alarm
import CherryOS.Kernel.Kill
import CherryOS.Kernel.Nice
import CherryOS.Kernel.Resume

/-!
# Bounded waiting

A running task that does not have the CPU waits for it.  Whatever the others do meanwhile
(they use their slices, sleep, wake each other, send signals, stay in the kernel for as long
as they like), it waits for no more ticks in user mode than `waiting_bounded` says.

Each tick takes a unit from some slice or finds the current one used up, and in user mode a
used-up slice is the end of the turn.  Nothing but a refill adds units.  So the units of the
others run out; then there is a refill, which gives the waiting task a slice; and from then on
there is no other refill before it has had its turn.
-/

namespace CherryOS
namespace Kernel
namespace Tasks

open Lib

/-! ## What happens while a task waits -/

/-- The rest of the kernel changes the task table in any way that keeps the slots, the
priorities and the slices. -/
structure Works (s s' : Tasks) : Prop where
  tasksPtr : s'.tasksPtr = s.tasksPtr
  current : s'.current = s.current
  ts : ∀ p, (s'.task p).ts = (s.task p).ts
  priority : ∀ p, (s'.task p).priority = (s.task p).priority

inductive Event
  | tick (cs : U32)
  | schedule
  | work

inductive Step (s : Tasks) : Event → Tasks → Prop
  | tick (cs : U32) : Step s (.tick cs) (s.doTimerInterrupt cs).1
  | schedule : Step s .schedule s.schedule.1
  | work {s' : Tasks} (h : s.Works s') : Step s .work s'

/-- The task is ready to run and another one has the CPU. -/
def Waits (p : TaskPtr) (s : Tasks) (_ : Event) : Prop :=
  s.current ≠ p ∧ (s.task p).state = .running

namespace Event

def IsTick : Event → Prop
  | tick _ => True
  | _ => False

def IsUserTick : Event → Prop
  | tick cs => UserMode cs
  | _ => False

instance : DecidablePred IsTick
  | tick _ => isTrue trivial
  | schedule => isFalse id
  | work => isFalse id

instance : DecidablePred IsUserTick
  | tick cs => inferInstanceAs (Decidable (UserMode cs))
  | schedule => isFalse id
  | work => isFalse id

end Event

def ticksIn (es : List Event) : Nat := es.countP Event.IsTick

def userTicksIn (es : List Event) : Nat := es.countP Event.IsUserTick

/-- The tasks of the table. -/
def listed (s : Tasks) : Finset TaskPtr := Finset.univ.biUnion fun i => (s.tasksPtr i).toFinset

variable {s s' : Tasks} {p q : TaskPtr} {cs : U32}

theorem mem_listed : p ∈ s.listed ↔ s.InTable p := by
  simp [listed, InTable]

theorem listed_congr (h : s'.tasksPtr = s.tasksPtr) : s'.listed = s.listed := by
  rw [listed, listed, h]

/-! ## What the kernel does is one of these -/

theorem works_withStates (s : Tasks) (state : TaskPtr → TaskState) :
    s.Works (s.withStates state) :=
  ⟨rfl, rfl, fun _ => rfl, fun _ => rfl⟩

/-- A sleeping call is a store and a `schedule()`. -/
theorem sleepOn_events {head : Option TaskPtr} {r : Suspended} (h : s.sleepOn head = .ok r) :
    Run Step s [.work, .schedule] r.tasks := by
  rw [sleepOn] at h
  split at h
  · cases h
  · cases h
    exact Run.snoc (Run.single (Step.work (works_withStates _ _))) Step.schedule

theorem works_sysAlarm (seconds : U32) : s.Works (s.sysAlarm seconds).1 :=
  ⟨rfl, rfl, setTask_same (·.ts) rfl, setTask_same (·.priority) rfl⟩

theorem works_sysKill (pid sig : Int32) : s.Works (s.sysKill pid sig).1 := by
  by_cases h : ValidSig (sigNr sig)
  · have hrest := (sysKill_raised s pid h).rest
    refine ⟨hrest.tasksPtr, hrest.current, fun p => ?_, fun p => ?_⟩
    · rw [hrest.task]
    · rw [hrest.task]
  · rw [sysKill_invalid s pid h]
    exact ⟨rfl, rfl, fun _ => rfl, fun _ => rfl⟩

/-! ## Units -/

theorem left_pos : 0 < (s.task p).left ↔ 0 < (s.task p).ts := by
  have hzero : (0 : Int32).toInt = 0 := rfl
  rw [TaskStruct.left, Int32.lt_iff_toInt_lt, hzero]
  omega

theorem left_of_not_pos (h : ¬ 0 < (s.task p).ts) : (s.task p).left = 0 :=
  Nat.eq_zero_of_not_pos fun hc => h (left_pos.mp hc)

theorem left_congr (h : (s'.task p).ts = (s.task p).ts) : (s'.task p).left = (s.task p).left := by
  rw [TaskStruct.left, h, TaskStruct.left]

theorem unitsLeft_congr {R : Finset TaskPtr} (h : ∀ q ∈ R, (s'.task q).ts = (s.task q).ts) :
    unitsLeft R s' = unitsLeft R s :=
  Finset.sum_congr rfl fun q hq => left_congr (h q hq)

/-- The slice of the current task is used up. -/
def spent (s : Tasks) : Nat := if 0 < (s.task s.current).ts then 0 else 1

theorem spent_le (s : Tasks) : s.spent ≤ 1 := by
  rw [spent]
  split
  · exact Nat.zero_le 1
  · exact le_refl 1

/-- Two for each unit of the others, one if the turn is over, and as long as the task that
waits has no slice of its own, the most that a refill can give the others. -/
def patience (R : Finset TaskPtr) (most : Nat) (p : TaskPtr) (s : Tasks) : Nat :=
  2 * unitsLeft (R.erase p) s + s.spent + if 0 < (s.task p).ts then 0 else 2 * most + 2

/-- How things are while a task waits: nobody's slice exceeds its cap, and no slice is close to
the least integer. -/
structure Queueing (R : Finset TaskPtr) (cap : TaskPtr → Nat) (p : TaskPtr) (room : Nat)
    (s : Tasks) : Prop where
  listed : s.listed = R
  waiter : p ∈ R
  positive : 0 < (s.task p).priority
  current : s.current ∈ R
  left : ∀ q ∈ R, (s.task q).left ≤ cap q
  share : ∀ q ∈ R, (s.task q).share ≤ cap q
  above : ∀ q ∈ R, -2 ^ 31 + (room : Int) ≤ (s.task q).ts.toInt
  abovePriority : ∀ q ∈ R, -2 ^ 31 + (room : Int) ≤ (s.task q).priority.toInt

section steps

variable {R : Finset TaskPtr} {cap : TaskPtr → Nat} {room : Nat}

/-- What keeps slots and priorities, and changes slices for such as are allowed. -/
theorem Queueing.congr (h : Queueing R cap p room s) {room' : Nat} (hroom : room' ≤ room)
    (htab : s'.tasksPtr = s.tasksPtr) (hcur : s'.current ∈ R)
    (hprio : ∀ q, (s'.task q).priority = (s.task q).priority)
    (hleft : ∀ q ∈ R, (s'.task q).left ≤ cap q)
    (hts : ∀ q ∈ R, -2 ^ 31 + (room' : Int) ≤ (s'.task q).ts.toInt) :
    Queueing R cap p room' s' := by
  refine ⟨(listed_congr htab).trans h.listed, h.waiter, ?_, hcur, hleft, ?_, hts, ?_⟩
  · rw [hprio]
    exact h.positive
  · intro q hq
    rw [TaskStruct.share, hprio]
    exact h.share q hq
  · intro q hq
    have := h.abovePriority q hq
    rw [hprio]
    omega

theorem Queueing.work (h : Queueing R cap p room s) (hw : s.Works s') :
    Queueing R cap p room s' ∧ patience R (∑ q ∈ R.erase p, cap q) p s' =
      patience R (∑ q ∈ R.erase p, cap q) p s := by
  constructor
  · apply h.congr (le_refl room) hw.tasksPtr
    · rw [hw.current]
      exact h.current
    · exact hw.priority
    · intro q hq
      rw [left_congr (hw.ts q)]
      exact h.left q hq
    · intro q hq
      rw [hw.ts]
      exact h.above q hq
  · rw [patience, patience, unitsLeft_congr fun q _ => hw.ts q, spent, spent, hw.current, hw.ts,
      hw.ts]

/-! ### A call of `schedule()` -/

theorem checkAll_ts (s : Tasks) (p : TaskPtr) : (s.checkAll.task p).ts = (s.task p).ts := by
  rw [checkAll_task]
  split
  · exact checkSignals_ts _ _
  · rfl

/-- The call gives the CPU to a task with units left, or it fills the slices of the running
tasks, the waiting one among them. -/
theorem schedule_outcome (s : Tasks) :
    ((∀ q, (s.schedule.1.task q).ts = (s.task q).ts) ∧
        0 < (s.task s.schedule.1.current).ts) ∨
      ((∀ q, s.InTable q → Ready s.jiffies (s.task q) → ¬ 0 < (s.task q).ts) ∧
        s.schedule.1.current = s.current ∧
        ∀ q, (s.schedule.1.task q).ts =
          if s.InTable q ∧ Ready s.jiffies (s.task q) then (s.task q).priority
          else (s.task q).ts) := by
  by_cases hel : ∃ i, s.checkAll.Eligible i
  · left
    obtain ⟨nr, hnr⟩ : ∃ nr, s.checkAll.select = some nr := by
      rw [← Option.ne_none_iff_exists']
      intro hnone
      obtain ⟨i, hi⟩ := hel
      exact select_eq_none.mp hnone i hi
    obtain ⟨q, hq, _, hts⟩ := eligible_of_select hnr
    rw [checkAll_ts] at hts
    by_cases hc : s.checkAll.current = q
    · have hs : s.schedule = (s.checkAll, .back) := by
        simp only [schedule, hnr, hq, hc, ne_eq, not_true_eq_false, if_false]
      rw [hs]
      refine ⟨checkAll_ts s, ?_⟩
      show 0 < (s.task s.checkAll.current).ts
      rw [hc]
      exact hts
    · have hs : s.schedule = ({ s.checkAll with current := q }, .switchTo nr) := by
        simp only [schedule, hnr, hq, ne_eq, hc, not_false_eq_true, if_true]
      rw [hs]
      exact ⟨checkAll_ts s, hts⟩
  · right
    have hnone : ∀ i, ¬ s.checkAll.Eligible i := not_exists.mp hel
    rw [schedule_refill hnone]
    refine ⟨fun q hin hready hts => ?_, ?_, fun q => ?_⟩
    · obtain ⟨i, hi⟩ := hin
      exact hnone i (eligible_checkAll.mpr ⟨q, hi, hready, hts⟩)
    · show s.checkAll.refill.current = s.current
      rw [refill_current, checkAll_current]
    · show (s.checkAll.refill.task q).ts = _
      have hin : s.checkAll.InTable q ↔ s.InTable q := inTable_congr (checkAll_tasksPtr s)
      have hrun : s.InTable q →
          ((s.checkAll.task q).state = .running ↔ Ready s.jiffies (s.task q)) := by
        intro hq
        rw [checkAll_task, if_pos hq]
        exact checkSignals_running _ _
      rw [refill_task_eq]
      by_cases hq : s.InTable q ∧ Ready s.jiffies (s.task q)
      · rw [if_pos hq, if_pos ⟨hin.mpr hq.1, (hrun hq.1).mpr hq.2⟩]
        exact checkAll_priority s q
      · have hno : ¬ (s.checkAll.InTable q ∧ (s.checkAll.task q).state = .running) :=
          fun hc => hq ⟨hin.mp hc.1, (hrun (hin.mp hc.1)).mp hc.2⟩
        rw [if_neg hq, if_neg hno]
        exact checkAll_ts s q

/-- A call leaves the patience that was there without the turn of its caller. -/
theorem Queueing.schedule (h : Queueing R cap p room s) (hp : (s.task p).state = .running) :
    Queueing R cap p room s.schedule.1 ∧
      patience R (∑ q ∈ R.erase p, cap q) p s.schedule.1 + s.spent ≤
        patience R (∑ q ∈ R.erase p, cap q) p s := by
  have hprio := schedule_priority s
  have hready : Ready s.jiffies (s.task p) := Or.inl hp
  have hin : ∀ q, q ∈ R ↔ s.InTable q := by
    intro q
    rw [← h.listed, mem_listed]
  have hcur : s.schedule.1.current ∈ R :=
    (hin _).mpr (schedule_current ((hin _).mp h.current))
  cases schedule_outcome s with
  | inl hsel =>
    obtain ⟨hts, hunit⟩ := hsel
    constructor
    · apply h.congr (le_refl room) (schedule_tasksPtr s) hcur hprio
      · intro q hq
        rw [left_congr (hts q)]
        exact h.left q hq
      · intro q hq
        rw [hts]
        exact h.above q hq
    · have hspent : s.schedule.1.spent = 0 := by
        rw [spent, hts, if_pos hunit]
      rw [patience, patience, unitsLeft_congr fun q _ => hts q, hspent, hts]
      omega
  | inr hrefill =>
    obtain ⟨hnone, hsame, hts⟩ := hrefill
    have hcap : ∀ q ∈ R, (s.schedule.1.task q).left ≤ cap q := by
      intro q hq
      rw [TaskStruct.left, hts]
      split
      · exact h.share q hq
      · exact h.left q hq
    constructor
    · apply h.congr (le_refl room) (schedule_tasksPtr s) hcur hprio hcap
      intro q hq
      rw [hts]
      split
      · exact h.abovePriority q hq
      · exact h.above q hq
    · have hpos : 0 < (s.schedule.1.task p).ts := by
        rw [hts, if_pos ⟨(hin p).mp h.waiter, hready⟩]
        exact h.positive
      have hempty : ¬ 0 < (s.task p).ts := hnone p ((hin p).mp h.waiter) hready
      have hunits : unitsLeft (R.erase p) s.schedule.1 ≤ ∑ q ∈ R.erase p, cap q :=
        Finset.sum_le_sum fun q hq => hcap q (Finset.mem_of_mem_erase hq)
      have hspent := spent_le s.schedule.1
      rw [patience, patience, if_pos hpos, if_neg hempty]
      omega

/-! ### A tick -/

theorem chargeTick_ts (cs : U32) (s : Tasks) (q : TaskPtr) :
    ((s.chargeTick cs).task q).ts =
      if q = s.current then (s.task q).ts - 1 else (s.task q).ts := by
  rw [chargeTick]
  dsimp only
  split
  all_goals
    rw [setTask_task]
    split
    · rename_i hq
      rw [hq]
    · rfl

theorem chargeTick_state (cs : U32) (s : Tasks) (q : TaskPtr) :
    ((s.chargeTick cs).task q).state = (s.task q).state := by
  rw [chargeTick]
  dsimp only
  split <;> exact setTask_same (·.state) (by rfl) q

/-- The tick takes a unit from the slice of the current task if there is one. -/
theorem Queueing.charge (h : Queueing R cap p (room + 1) s) (hp : s.current ≠ p) :
    Queueing R cap p room (s.chargeTick cs) ∧
      unitsLeft (R.erase p) (s.chargeTick cs) + 1 = unitsLeft (R.erase p) s + s.spent ∧
      ((s.chargeTick cs).task p).ts = (s.task p).ts := by
  have hts := chargeTick_ts cs s
  have hone : (1 : Int32).toInt = 1 := rfl
  have hroom := h.above _ h.current
  have hlt := (s.task s.current).ts.toInt_lt
  have hpred : ((s.task s.current).ts - 1).toInt = (s.task s.current).ts.toInt - 1 := by
    rw [Int32.toInt_sub, hone]
    exact Int.bmod_eq_of_le (by omega) (by omega)
  have hself : ((s.chargeTick cs).task s.current).left = (s.task s.current).left - 1 := by
    rw [TaskStruct.left, hts, if_pos rfl, hpred, TaskStruct.left]
    omega
  have hother : ∀ q, q ≠ s.current → ((s.chargeTick cs).task q).left = (s.task q).left := by
    intro q hq
    rw [TaskStruct.left, hts, if_neg hq, TaskStruct.left]
  refine ⟨?_, ?_, ?_⟩
  · apply h.congr (Nat.le_succ room) (chargeTick_tasksPtr cs s)
    · rw [chargeTick_current]
      exact h.current
    · exact chargeTick_priority cs s
    · intro q hq
      have hcap := h.left q hq
      by_cases hqc : q = s.current
      · rw [hqc, hself]
        rw [hqc] at hcap
        omega
      · rw [hother q hqc]
        exact hcap
    · intro q hq
      have hq' := h.above q hq
      rw [hts]
      split
      · rename_i hqc
        rw [hqc, hpred]
        push_cast at hroom
        omega
      · push_cast at hq'
        omega
  · have hmem : s.current ∈ R.erase p := Finset.mem_erase.mpr ⟨hp, h.current⟩
    have hrest : ∑ q ∈ (R.erase p).erase s.current, ((s.chargeTick cs).task q).left =
        ∑ q ∈ (R.erase p).erase s.current, (s.task q).left :=
      Finset.sum_congr rfl fun q hq => hother q (Finset.ne_of_mem_erase hq)
    have hadd := Finset.add_sum_erase (R.erase p) (fun q => (s.task q).left) hmem
    have hadd' := Finset.add_sum_erase (R.erase p) (fun q => ((s.chargeTick cs).task q).left) hmem
    rw [unitsLeft, unitsLeft, ← hadd, ← hadd', hrest, hself, spent]
    split
    · rename_i hpos
      have := left_pos.mpr hpos
      omega
    · rename_i hpos
      have := left_of_not_pos hpos
      omega
  · rw [hts, if_neg (Ne.symm hp)]

/-- In user mode a tick costs the waiting task some of its patience, in kernel mode none that
was not there. -/
theorem Queueing.tick (h : Queueing R cap p (room + 1) s) (hcur : s.current ≠ p)
    (hp : (s.task p).state = .running) :
    Queueing R cap p room (s.doTimerInterrupt cs).1 ∧
      patience R (∑ q ∈ R.erase p, cap q) p (s.doTimerInterrupt cs).1 +
          (if UserMode cs then 1 else 0) ≤ patience R (∑ q ∈ R.erase p, cap q) p s := by
  obtain ⟨hq, hunits, hts⟩ := h.charge hcur
  have hspent := spent_le (s.chargeTick cs)
  have hspent' := spent_le s
  rw [doTimerInterrupt]
  by_cases hover : UserMode cs ∧ (s.chargeTick cs).SliceOver
  · have hrun : ((s.chargeTick cs).task p).state = .running := by
      rw [chargeTick_state]
      exact hp
    obtain ⟨hnext, hle⟩ := hq.schedule hrun
    have hdone : (s.chargeTick cs).spent = 1 := by
      have hno : ¬ 0 < ((s.chargeTick cs).task (s.chargeTick cs).current).ts :=
        Int32.not_lt.mpr hover.2
      rw [spent, if_neg hno]
    rw [if_pos hover, if_pos hover.1]
    refine ⟨hnext, le_trans (Nat.add_le_add_left (le_of_eq hdone.symm) _) (le_trans hle ?_)⟩
    rw [patience, patience, hts, hdone]
    omega
  · rw [if_neg hover]
    refine ⟨hq, ?_⟩
    show patience R _ p (s.chargeTick cs) + _ ≤ _
    rw [patience, patience, hts]
    by_cases hu : UserMode cs
    · have hunit : (s.chargeTick cs).spent = 0 := by
        have hpos : 0 < ((s.chargeTick cs).task (s.chargeTick cs).current).ts := by
          rw [← Int32.not_le]
          exact fun hc => hover ⟨hu, hc⟩
        rw [spent, if_pos hpos]
      rw [if_pos hu, hunit]
      omega
    · rw [if_neg hu]
      omega

/-- One event. -/
theorem Queueing.step {e : Event} (h : Queueing R cap p (room + ticksIn [e]) s)
    (hw : s.Waits p e) (hs : Step s e s') :
    Queueing R cap p room s' ∧
      patience R (∑ q ∈ R.erase p, cap q) p s' + userTicksIn [e] ≤
        patience R (∑ q ∈ R.erase p, cap q) p s := by
  cases hs with
  | tick cs =>
    have htick : ticksIn [.tick cs] = 1 := rfl
    have huser : userTicksIn [.tick cs] = if UserMode cs then 1 else 0 := by
      rw [userTicksIn, List.countP_singleton]
      exact if_congr decide_eq_true_iff rfl rfl
    rw [htick] at h
    rw [huser]
    exact h.tick hw.1 hw.2
  | schedule =>
    have hle := h.schedule hw.2
    exact ⟨hle.1, le_trans (Nat.add_le_add_left (Nat.zero_le _) _) hle.2⟩
  | work hwork =>
    obtain ⟨hq, heq⟩ := Queueing.work h hwork
    exact ⟨hq, le_of_eq heq⟩

theorem Queueing.run {es : List Event} (hrun : Run (Guarded (fun s e => s.Waits p e) Step) s es s')
    (h : Queueing R cap p (room + ticksIn es) s) :
    Queueing R cap p room s' ∧
      patience R (∑ q ∈ R.erase p, cap q) p s' + userTicksIn es ≤
        patience R (∑ q ∈ R.erase p, cap q) p s := by
  induction hrun generalizing room with
  | nil => exact ⟨h, le_refl _⟩
  | @snoc es t u e _ hl ih =>
    have hticks : ticksIn (es ++ [e]) = ticksIn [e] + ticksIn es := by
      rw [ticksIn, List.countP_append, Nat.add_comm]
      rfl
    have huser : userTicksIn (es ++ [e]) = userTicksIn es + userTicksIn [e] := by
      rw [userTicksIn, List.countP_append]
      rfl
    rw [hticks, ← Nat.add_assoc] at h
    obtain ⟨hq, hle⟩ := ih h
    obtain ⟨hq', hle'⟩ := hq.step hl.1 hl.2
    refine ⟨hq', ?_⟩
    rw [huser]
    omega

end steps

/-- Ticks in user mode until a waiting task gets the CPU: two for each unit of the others, and
if it has used up its own slice, two for each unit they may have after the next refill. -/
theorem waiting_bounded {es : List Event} (hin : s.InTable p) (hprio : 0 < (s.task p).priority)
    (hcur : s.InTable s.current)
    (hroom : ∀ q, s.InTable q → -2 ^ 31 + (ticksIn es : Int) ≤ (s.task q).ts.toInt ∧
      -2 ^ 31 + (ticksIn es : Int) ≤ (s.task q).priority.toInt)
    (hrun : Run (Guarded (Waits p · ·) Step) s es s') :
    userTicksIn es ≤ 2 * unitsLeft (s.listed.erase p) s + 1 +
      if 0 < (s.task p).ts then 0
      else 2 * (∑ q ∈ s.listed.erase p, max (s.task q).left (s.task q).share) + 2 := by
  have hq : Queueing s.listed (fun q => max (s.task q).left (s.task q).share) p
      (0 + ticksIn es) s := by
    rw [Nat.zero_add]
    exact ⟨rfl, mem_listed.mpr hin, hprio, mem_listed.mpr hcur, fun q _ => le_max_left _ _,
      fun q _ => le_max_right _ _, fun q hq => (hroom q (mem_listed.mp hq)).1,
      fun q hq => (hroom q (mem_listed.mp hq)).2⟩
  obtain ⟨_, hle⟩ := hq.run hrun
  have hspent := s.spent_le
  rw [patience, patience] at hle
  omega

/-- The task with two units waits while the idle task has the CPU for a tick and wakes the
sleeper. -/
theorem waiting_bounded_threeTasks :
    userTicksIn [.tick 0x0F, .work, .schedule] ≤
      2 * unitsLeft (threeTasks.listed.erase (.frame 0x400000)) threeTasks + 1 +
        if 0 < (threeTasks.task (.frame 0x400000)).ts then 0
        else 2 * (∑ q ∈ threeTasks.listed.erase (.frame 0x400000),
          max (threeTasks.task q).left (threeTasks.task q).share) + 2 := by
  have hslice : ∀ q, 2 ≤ (threeTasks.task q).ts.toInt ∧ 2 ≤ (threeTasks.task q).priority.toInt := by
    intro q
    simp only [threeTasks]
    split
    · decide
    · split
      · decide
      · decide
  have hrun : Run (Guarded (Waits (.frame 0x400000) · ·) Step) threeTasks
      [.tick 0x0F, .work, .schedule] _ :=
    Run.snoc (Run.snoc (Run.single ⟨⟨by decide, by decide⟩, Step.tick 0x0F⟩)
      ⟨⟨by decide, by decide⟩, Step.work (works_withStates _ fun _ => .running)⟩)
      ⟨⟨by decide, rfl⟩, Step.schedule⟩
  refine waiting_bounded ⟨1, rfl⟩ (by decide) ⟨0, rfl⟩ (fun q _ => ?_) hrun
  have htwo := hslice q
  have hticks : ticksIn [.tick 0x0F, .work, .schedule] = 1 := rfl
  rw [hticks]
  omega

end Tasks
end Kernel
end CherryOS
