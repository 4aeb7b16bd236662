import CherryOS.Kernel.Timer
import CherryOS.Lib.Run

/-!
# alarm

`sys_alarm` stores the tick after which SIGALRM is due, and every run of `schedule()` compares
it with `jiffies`.  Both are 32-bit words that wrap.
-/

namespace CherryOS
namespace Kernel

open Lib

/-- The value a number has as an `int32_t`. -/
def wrap (x : Int) : Int := x.bmod (2 ^ 32)

namespace Tasks

/-- `sys_alarm(seconds)`.  The sum is unsigned, as `seconds` is, and becomes an `int32_t` when
it is stored. -/
def sysAlarm (seconds : U32) (s : Tasks) : Tasks × Int32 :=
  let cur := s.task s.current
  let old := if cur.alarm ≠ 0 then (cur.alarm - s.jiffies) / NUM_INT_PS else cur.alarm
  let alarm := if 0 < seconds then
    Int32.ofBitVec (s.jiffies.toBitVec + NUM_INT_PS.toBitVec * seconds) else 0
  (s.setTask s.current { cur with alarm := alarm }, old)

/-- A run of `schedule()` from here raises SIGALRM for the task. -/
def Raises (p : TaskPtr) (s : Tasks) : Prop := s.InTable p ∧ AlarmDue s.jiffies (s.task p)

instance (p : TaskPtr) (s : Tasks) : Decidable (s.Raises p) :=
  inferInstanceAs (Decidable (_ ∧ _))

/-! ## One run of `schedule()` -/

theorem schedule_jiffies (s : Tasks) : s.schedule.1.jiffies = s.jiffies := by
  unfold schedule
  dsimp only
  split
  · rw [refill, (foldl_refillSlot slotsDown s.checkAll).1, checkAll_jiffies]
  · split
    · split <;> exact checkAll_jiffies s
    · exact checkAll_jiffies s

theorem checkSignals_alarm (j : Int32) (t : TaskStruct) :
    (checkSignals j t).alarm = if AlarmDue j t then 0 else t.alarm := by
  have hwake : (checkSignals j t).alarm = (raiseAlarm j t).alarm := by
    unfold checkSignals wakeForSignal
    split <;> rfl
  rw [hwake, raiseAlarm]
  split <;> rfl

theorem checkSignals_signal (j : Int32) (t : TaskStruct) :
    (checkSignals j t).signal =
      if AlarmDue j t then t.signal ||| sigBit SIGALRM else t.signal := by
  have hwake : (checkSignals j t).signal = (raiseAlarm j t).signal := by
    unfold checkSignals wakeForSignal
    split <;> rfl
  rw [hwake, raiseAlarm]
  split <;> rfl

/-- What a due alarm does to a field, the run does to it if it raises the signal. -/
theorem schedule_raises {α : Type} {g : TaskStruct → α} (hts : ∀ t ts, g { t with ts := ts } = g t)
    {due : TaskStruct → α} (hg : ∀ j t, g (checkSignals j t) = if AlarmDue j t then due t else g t)
    (s : Tasks) (p : TaskPtr) :
    g (s.schedule.1.task p) = if s.Raises p then due (s.task p) else g (s.task p) := by
  obtain ⟨ts, hslice⟩ := schedule_slice s p
  rw [hslice, hts, checkAll_task]
  by_cases hin : s.InTable p
  · rw [if_pos hin, hg]
    exact if_congr (by rw [Raises, and_iff_right hin]) rfl rfl
  · rw [if_neg hin, if_neg fun hr => hin hr.1]

theorem schedule_alarm (s : Tasks) (p : TaskPtr) :
    (s.schedule.1.task p).alarm = if s.Raises p then 0 else (s.task p).alarm :=
  schedule_raises (fun _ _ => rfl) checkSignals_alarm s p

/-- What it means for the run to raise the signal. -/
theorem schedule_signal (s : Tasks) (p : TaskPtr) :
    (s.schedule.1.task p).signal =
      if s.Raises p then (s.task p).signal ||| sigBit SIGALRM else (s.task p).signal :=
  schedule_raises (fun _ _ => rfl) checkSignals_signal s p

/-! ## The words -/

theorem sysAlarm_alarm {s : Tasks} {seconds : U32} (h : seconds ≠ 0) :
    (((s.sysAlarm seconds).1.task s.current).alarm).toInt =
      wrap (s.jiffies.toInt + 100 * seconds.toNat) := by
  have hpos : 0 < seconds := by
    rw [BitVec.lt_def]
    have hne : seconds.toNat ≠ 0 := fun hc => h (BitVec.eq_of_toNat_eq hc)
    change 0 < seconds.toNat
    omega
  have hsum : s.jiffies.toBitVec + NUM_INT_PS.toBitVec * seconds =
      BitVec.ofInt 32 (s.jiffies.toInt + 100 * seconds.toNat) := by
    rw [BitVec.ofInt_add, BitVec.ofInt_mul]
    have hj : BitVec.ofInt 32 s.jiffies.toInt = s.jiffies.toBitVec := BitVec.ofInt_toInt
    have hs : BitVec.ofInt 32 (seconds.toNat : Int) = seconds := by
      rw [BitVec.ofInt_natCast, BitVec.ofNat_toNat, BitVec.setWidth_eq]
    rw [hj, hs]
    rfl
  rw [sysAlarm]
  dsimp only
  rw [setTask_task, if_pos rfl]
  dsimp only
  rw [if_pos hpos, hsum]
  exact BitVec.toInt_ofInt _

theorem tdiv_eq_zero_iff (x : Int) {n : Int} (hn : 0 < n) : x.tdiv n = 0 ↔ |x| < n := by
  rw [← Int.natAbs_eq_zero, Int.natAbs_tdiv]
  change x.natAbs / n.natAbs = 0 ↔ _
  rw [Nat.div_eq_zero_iff, abs_lt]
  omega

/-- The time left is returned in whole seconds, so less than a second is returned as 0. -/
theorem sysAlarm_returns_zero (s : Tasks) (seconds : U32) :
    (s.sysAlarm seconds).2 = 0 ↔ (s.task s.current).alarm = 0 ∨
      |wrap ((s.task s.current).alarm.toInt - s.jiffies.toInt)| < 100 := by
  have hret : (s.sysAlarm seconds).2 = if (s.task s.current).alarm ≠ 0 then
      ((s.task s.current).alarm - s.jiffies) / NUM_INT_PS else (s.task s.current).alarm := rfl
  rw [hret]
  by_cases h0 : (s.task s.current).alarm = 0
  · rw [if_neg (not_not.mpr h0)]
    exact iff_of_true h0 (Or.inl h0)
  · have hdiff : ((s.task s.current).alarm - s.jiffies).toInt =
        wrap ((s.task s.current).alarm.toInt - s.jiffies.toInt) := Int32.toInt_sub _ _
    rw [if_pos h0, or_iff_right h0, ← hdiff, ← Int32.toInt_inj,
      Int32.toInt_div_of_ne_right _ _ (by decide)]
    exact tdiv_eq_zero_iff _ (by decide)

end Tasks

end Kernel
end CherryOS
