import CherryOS.Kernel.Alarm

/-!
# When alarms go off

A `Watch` follows one task from its call of `sys_alarm` on: the ticks that have passed, and for
each run of `schedule()` its time and whether it raised SIGALRM for the task.  The first run in
which the words compare as due raises the signal, and no run after it does.  The alarm is
punctual if that is the first run after the deadline, so if up to that run the comparison of
the words is right.
-/

namespace CherryOS
namespace Kernel

open Lib Tasks

/-- What happens after a call of `sys_alarm`: ticks and runs of `schedule()` in any order, and
steps that touch neither the tick count nor the alarm of the task. -/
inductive AlarmEvent
  | tick
  | schedule
  | other
deriving DecidableEq

structure Watch where
  tasks : Tasks
  time : Nat
  log : List (Nat × Bool)

namespace Watch

/-- The state in which the call returns. -/
def start (s : Tasks) : Watch := ⟨s, 0, []⟩

inductive Step (p : TaskPtr) (w : Watch) : AlarmEvent → Watch → Prop
  | tick (cs : U32) : Step p w .tick { w with tasks := w.tasks.chargeTick cs, time := w.time + 1 }
  | schedule : Step p w .schedule
      { w with tasks := w.tasks.schedule.1, log := w.log ++ [(w.time, decide (w.tasks.Raises p))] }
  | other (s : Tasks) : s.jiffies = w.tasks.jiffies → s.InTable p →
      (s.task p).alarm = (w.tasks.task p).alarm → Step p w .other { w with tasks := s }

/-- The times of the runs of `schedule()`. -/
def times (w : Watch) : List Nat := w.log.map Prod.fst

end Watch

/-! ## The steps of the kernel -/

/-- A timer interrupt is a tick that a run of `schedule()` may follow. -/
theorem run_doTimerInterrupt (p : TaskPtr) (w : Watch) (cs : U32) :
    ∃ ls w', Run (Watch.Step p) w (.tick :: ls) w' ∧ w'.time = w.time + 1 ∧
      w'.tasks = (w.tasks.doTimerInterrupt cs).1 := by
  by_cases h : UserMode cs ∧ (w.tasks.chargeTick cs).SliceOver
  · refine ⟨[.schedule], _, Run.cons (.tick cs) (Run.single .schedule), rfl, ?_⟩
    rw [doTimerInterrupt, if_pos h]
  · refine ⟨[], _, Run.single (.tick cs), rfl, ?_⟩
    rw [doTimerInterrupt, if_neg h]

/-- A call of `sys_alarm` by another task is one of the other steps. -/
theorem step_sysAlarm {p : TaskPtr} {w : Watch} (hin : w.tasks.InTable p)
    (hne : p ≠ w.tasks.current) (seconds : U32) :
    Watch.Step p w .other { w with tasks := (w.tasks.sysAlarm seconds).1 } := by
  refine .other _ rfl hin ?_
  rw [sysAlarm]
  exact congrArg TaskStruct.alarm ((setTask_task _ _ _ _).trans (if_neg hne))

/-! ## What a run logs -/

/-- The comparison that `schedule()` makes `t` ticks after an alarm of `n` ticks was set at the
tick `j`, on the words as they are. -/
def WordsDue (j : Int) (n t : Nat) : Prop := wrap (j + n) ≠ 0 ∧ wrap (j + n) < wrap (j + t)

instance (j : Int) (n t : Nat) : Decidable (WordsDue j n t) :=
  inferInstanceAs (Decidable (_ ∧ _))

/-- The state of the task while it is watched.  The first run that finds the words due has
raised the signal, and with it the alarm is gone. -/
structure Watched (p : TaskPtr) (j : Int) (n : Nat) (w : Watch) : Prop where
  inTable : w.tasks.InTable p
  jiffies : w.tasks.jiffies.toInt = wrap (j + w.time)
  alarm : ((w.tasks.task p).alarm).toInt = if ∃ e ∈ w.log, e.2 = true then 0 else wrap (j + n)
  raised : ∀ l t r l', w.log = l ++ (t, r) :: l' →
    (r = true ↔ WordsDue j n t ∧ ∀ e ∈ l, e.2 = false)

theorem wrap_add (x y : Int) : wrap (wrap x + y) = wrap (x + y) := Int.bmod_add_bmod

theorem wrap_sub (x y : Int) : wrap (wrap x - wrap y) = wrap (x - y) := by
  rw [wrap, wrap, Int.bmod_sub_bmod, wrap, Int.sub_bmod_bmod, wrap]

namespace Watched

variable {p : TaskPtr} {j : Int} {n : Nat} {w w' : Watch} {e : AlarmEvent}

theorem tick (h : Watched p j n w) (cs : U32) :
    Watched p j n { w with tasks := w.tasks.chargeTick cs, time := w.time + 1 } := by
  refine ⟨?_, ?_, ?_, h.raised⟩
  · obtain ⟨i, hi⟩ := h.inTable
    exact ⟨i, by rw [chargeTick_tasksPtr, hi]⟩
  · have hj : (w.tasks.chargeTick cs).jiffies = w.tasks.jiffies + 1 := by
      unfold chargeTick
      dsimp only
      split <;> rfl
    change (w.tasks.chargeTick cs).jiffies.toInt = wrap (j + ((w.time + 1 : Nat) : Int))
    rw [hj, Int32.toInt_add, h.jiffies, Nat.cast_succ, ← Int.add_assoc]
    exact wrap_add _ _
  · have halarm : ((w.tasks.chargeTick cs).task p).alarm = (w.tasks.task p).alarm := by
      unfold chargeTick
      dsimp only
      split <;> exact setTask_same (·.alarm) (by rfl) p
    rw [halarm]
    exact h.alarm

theorem raises_iff (h : Watched p j n w) :
    w.tasks.Raises p ↔ WordsDue j n w.time ∧ ∀ e ∈ w.log, e.2 = false := by
  have hdue : w.tasks.Raises p ↔ (w.tasks.task p).alarm.toInt ≠ 0 ∧
      (w.tasks.task p).alarm.toInt < w.tasks.jiffies.toInt := by
    rw [Raises, and_iff_right h.inTable, AlarmDue, Int32.lt_iff_toInt_lt, ne_eq, ← Int32.toInt_inj]
    rfl
  rw [hdue, h.alarm, h.jiffies]
  by_cases hr : ∃ e ∈ w.log, e.2 = true
  · rw [if_pos hr]
    refine iff_of_false (fun hc => hc.1 rfl) fun hc => ?_
    obtain ⟨e, he, hraised⟩ := hr
    rw [hc.2 e he] at hraised
    cases hraised
  · rw [if_neg hr]
    refine ⟨fun hc => ⟨hc, fun e he => ?_⟩, fun hc => hc.1⟩
    exact Bool.eq_false_iff.mpr fun hraised => hr ⟨e, he, hraised⟩

theorem schedule (h : Watched p j n w) :
    Watched p j n { w with
      tasks := w.tasks.schedule.1, log := w.log ++ [(w.time, decide (w.tasks.Raises p))] } := by
  refine ⟨?_, ?_, ?_, fun l t r l' hlog => ?_⟩
  · obtain ⟨i, hi⟩ := h.inTable
    exact ⟨i, by rw [schedule_tasksPtr, hi]⟩
  · rw [schedule_jiffies]
    exact h.jiffies
  · have hany : (∃ e ∈ w.log ++ [(w.time, decide (w.tasks.Raises p))], e.2 = true) ↔
        (∃ e ∈ w.log, e.2 = true) ∨ w.tasks.Raises p := by
      simp only [List.mem_append, List.mem_singleton, or_and_right, exists_or, exists_eq_left,
        decide_eq_true_eq]
    rw [schedule_alarm, if_congr hany rfl rfl]
    by_cases hr : w.tasks.Raises p
    · rw [if_pos hr, if_pos (Or.inr hr)]
      rfl
    · rw [if_neg hr, h.alarm]
      exact if_congr (or_iff_left hr).symm rfl rfl
  · rcases List.eq_nil_or_concat l' with rfl | ⟨l'', x, rfl⟩
    · obtain ⟨rfl, hx⟩ := List.append_inj' hlog rfl
      cases hx
      rw [decide_eq_true_iff]
      exact h.raises_iff
    · have hcut : w.log ++ [(w.time, decide (w.tasks.Raises p))] = (l ++ (t, r) :: l'') ++ [x] := by
        refine Eq.trans hlog ?_
        rw [List.concat_eq_append, List.append_assoc, List.cons_append]
      exact h.raised l t r l'' (List.append_inj' hcut rfl).1

theorem step (h : Watched p j n w) (hs : Watch.Step p w e w') : Watched p j n w' := by
  cases hs with
  | tick cs => exact h.tick cs
  | schedule => exact h.schedule
  | other s hj hin ha =>
    refine ⟨hin, ?_, ?_, h.raised⟩
    · rw [hj]
      exact h.jiffies
    · rw [ha]
      exact h.alarm

/-- The task is watched from its own call on. -/
theorem start {s : Tasks} (hin : s.InTable s.current) {seconds : U32} (h : seconds ≠ 0) :
    Watched s.current s.jiffies.toInt (100 * seconds.toNat) (.start (s.sysAlarm seconds).1) := by
  refine ⟨hin, ?_, ?_, fun l t r l' hlog => ?_⟩
  · change s.jiffies.toInt = wrap (s.jiffies.toInt + 0)
    rw [Int.add_zero]
    exact (Int32.toInt_bmod _).symm
  · rw [if_neg]
    · refine (sysAlarm_alarm h).trans ?_
      rw [Nat.cast_mul]
      rfl
    · rintro ⟨e, he, _⟩
      cases he
  · cases l <;> cases hlog

theorem run {s : Tasks} {ls : List AlarmEvent} (hin : s.InTable s.current) {seconds : U32}
    (h : seconds ≠ 0) (hrun : Run (Watch.Step s.current) (.start (s.sysAlarm seconds).1) ls w) :
    Watched s.current s.jiffies.toInt (100 * seconds.toNat) w :=
  hrun.invariant (start hin h) fun _ _ _ => step

end Watched

/-! ## Punctual alarms -/

/-- A run from a call of `sys_alarm` for `n` ticks, with a call by the same task at its end if
`later` has one.  The first run of `schedule()` after `n` ticks raises the signal and no other
does; and the later call, unless it comes after that run, does not return 0 while the alarm is
pending. -/
structure IsPunctual (p : TaskPtr) (n : Nat) (w : Watch) (later : Option U32) : Prop where
  raised : ∀ l t r l', w.log = l ++ (t, r) :: l' → (r = true ↔ n < t ∧ ∀ e ∈ l, e.1 ≤ n)
  pending : ∀ seconds, later = some seconds → w.tasks.current = p → (∀ e ∈ w.log, e.1 ≤ n) →
    (w.tasks.sysAlarm seconds).2 = 0 → ∃ e ∈ w.log, e.2 = true

/-- Up to the first run of `schedule()` after `n` ticks the words compare as the numbers do, and
a later call finds a second or more between the deadline and the present. -/
structure Fits (p : TaskPtr) (j : Int) (n : Nat) (w : Watch) (later : Option U32) : Prop where
  compares : ∀ l t l', w.times = l ++ t :: l' → (∀ t' ∈ l, t' ≤ n) → (WordsDue j n t ↔ n < t)
  remains : ∀ seconds, later = some seconds → w.tasks.current = p → (∀ t ∈ w.times, t ≤ n) →
    wrap (j + n) ≠ 0 ∧ 100 ≤ |wrap (n - w.time)|

namespace Watched

variable {p : TaskPtr} {j : Int} {n : Nat} {w : Watch} {later : Option U32}

/-- While no run has raised the signal, a later call returns 0 if the alarm is stored as 0 or
its deadline is less than a second away. -/
theorem returns_zero (h : Watched p j n w) (hcur : w.tasks.current = p)
    (hno : ∀ e ∈ w.log, e.2 = false) (seconds : U32) :
    (w.tasks.sysAlarm seconds).2 = 0 ↔ wrap (j + n) = 0 ∨ |wrap (n - w.time)| < 100 := by
  have halarm : ((w.tasks.task p).alarm).toInt = wrap (j + n) := by
    rw [h.alarm, if_neg]
    rintro ⟨e, he, hraised⟩
    rw [hno e he] at hraised
    cases hraised
  have hzero : (w.tasks.task p).alarm = 0 ↔ wrap (j + n) = 0 := by
    rw [← halarm, ← Int32.toInt_inj]
    rfl
  have hleft : wrap ((w.tasks.task p).alarm.toInt - w.tasks.jiffies.toInt) = wrap (n - w.time) := by
    rw [halarm, h.jiffies, wrap_sub]
    congr 1
    omega
  rw [sysAlarm_returns_zero, hcur, hzero, hleft]

theorem quiet (h : IsPunctual p n w later) {l l' : List (Nat × Bool)} (hlog : w.log = l ++ l')
    (hle : ∀ e ∈ l, e.1 ≤ n) : ∀ e ∈ l, e.2 = false := by
  intro e he
  obtain ⟨l₁, l₂, rfl⟩ := List.append_of_mem he
  have hiff := h.raised l₁ e.1 e.2 (l₂ ++ l') (by rw [hlog, List.append_assoc, List.cons_append])
  exact Bool.eq_false_iff.mpr fun hr => absurd (hiff.mp hr).1 (Nat.not_lt.mpr (hle e he))

/-- The run at the place of an entry of the log, by its time. -/
theorem times_split {l l' : List (Nat × Bool)} {t : Nat} {r : Bool}
    (hlog : w.log = l ++ (t, r) :: l') :
    w.times = l.map Prod.fst ++ t :: l'.map Prod.fst := by
  rw [Watch.times, hlog, List.map_append, List.map_cons]

theorem quiet_of_fits (h : Watched p j n w) (hf : Fits p j n w later) {l l' : List (Nat × Bool)}
    (hlog : w.log = l ++ l') (hle : ∀ e ∈ l, e.1 ≤ n) : ∀ e ∈ l, e.2 = false := by
  intro e he
  obtain ⟨l₁, l₂, rfl⟩ := List.append_of_mem he
  have hcut : w.log = l₁ ++ (e.1, e.2) :: (l₂ ++ l') := by
    rw [hlog, List.append_assoc, List.cons_append]
  have hle₁ : ∀ t ∈ l₁.map Prod.fst, t ≤ n := by
    intro t ht
    obtain ⟨e', he', rfl⟩ := List.mem_map.mp ht
    exact hle e' (List.mem_append_left _ he')
  have hcmp := hf.compares _ _ _ (times_split hcut) hle₁
  refine Bool.eq_false_iff.mpr fun hr => ?_
  exact absurd (hcmp.mp ((h.raised _ _ _ _ hcut).mp hr).1) (Nat.not_lt.mpr (hle e he))

theorem fits_of_punctual (h : Watched p j n w) (hp : IsPunctual p n w later) :
    Fits p j n w later := by
  refine ⟨fun l t l' htimes hle => ?_, fun seconds hlater hcur hle => ?_⟩
  · obtain ⟨L, L', hlog, hL, hL'⟩ := List.map_eq_append_iff.mp htimes
    obtain ⟨⟨_, r⟩, L'', rfl, rfl, _⟩ := List.map_eq_cons_iff.mp hL'
    have hleL : ∀ e ∈ L, e.1 ≤ n := fun e he => hle e.1 (hL ▸ List.mem_map_of_mem he)
    have hquiet := quiet hp hlog hleL
    have hraised := h.raised L _ r L'' hlog
    have hpunctual := hp.raised L _ r L'' hlog
    rw [and_iff_left hquiet] at hraised
    rw [and_iff_left hleL] at hpunctual
    exact hraised.symm.trans hpunctual
  · have hleL : ∀ e ∈ w.log, e.1 ≤ n := fun e he => hle e.1 (List.mem_map_of_mem he)
    have hquiet := quiet hp (List.append_nil w.log).symm hleL
    have hnot : ¬ (w.tasks.sysAlarm seconds).2 = 0 := by
      intro hz
      obtain ⟨e, he, hr⟩ := hp.pending seconds hlater hcur hleL hz
      rw [hquiet e he] at hr
      cases hr
    rw [h.returns_zero hcur hquiet, not_or, not_lt] at hnot
    exact hnot

theorem punctual_of_fits (h : Watched p j n w) (hf : Fits p j n w later) :
    IsPunctual p n w later := by
  refine ⟨fun l t r l' hlog => ?_, fun seconds hlater hcur hle hz => ?_⟩
  · rw [h.raised l t r l' hlog]
    by_cases hle : ∀ e ∈ l, e.1 ≤ n
    · have hle' : ∀ t' ∈ l.map Prod.fst, t' ≤ n := by
        intro t' ht'
        obtain ⟨e, he, rfl⟩ := List.mem_map.mp ht'
        exact hle e he
      rw [hf.compares _ _ _ (times_split hlog) hle', and_iff_left (h.quiet_of_fits hf hlog hle),
        and_iff_left hle]
    · refine iff_of_false (fun hc => ?_) fun hc => hle hc.2
      -- an earlier run was late: the first such run raised the signal
      have hsome : (l.find? fun e => n < e.1).isSome := by
        obtain ⟨e, hlate⟩ := not_forall.mp hle
        obtain ⟨he, hlt⟩ := Classical.not_imp.mp hlate
        exact List.find?_isSome.mpr ⟨e, he, decide_eq_true (not_le.mp hlt)⟩
      obtain ⟨e, he⟩ := Option.isSome_iff_exists.mp hsome
      obtain ⟨hnlt, l₁, l₂, rfl, hbefore⟩ := List.find?_eq_some_iff_append.mp he
      have hcut : w.log = l₁ ++ (e.1, e.2) :: (l₂ ++ (t, r) :: l') := by
        rw [hlog, List.append_assoc, List.cons_append]
      have hle₁ : ∀ e' ∈ l₁, e'.1 ≤ n := fun e' he' => by simpa using hbefore e' he'
      have hle₁' : ∀ t' ∈ l₁.map Prod.fst, t' ≤ n := by
        intro t' ht'
        obtain ⟨e', he', rfl⟩ := List.mem_map.mp ht'
        exact hle₁ e' he'
      have hdue := (hf.compares _ _ _ (times_split hcut) hle₁').mpr (by simpa using hnlt)
      have hraised := (h.raised _ _ _ _ hcut).mpr ⟨hdue, h.quiet_of_fits hf hcut hle₁⟩
      have hquiet := hc.2 e (List.mem_append_right l₁ List.mem_cons_self)
      rw [hraised] at hquiet
      cases hquiet
  · have hle' : ∀ t ∈ w.times, t ≤ n := by
      intro t ht
      obtain ⟨e, he, rfl⟩ := List.mem_map.mp ht
      exact hle e he
    have hquiet := h.quiet_of_fits hf (List.append_nil w.log).symm hle
    have hremains := hf.remains seconds hlater hcur hle'
    rw [h.returns_zero hcur hquiet] at hz
    rcases hz with hz | hz
    · exact absurd hz hremains.1
    · exact absurd hremains.2 (not_le.mpr hz)

end Watched

theorem wrap_of_small {x : Int} (hlo : -2 ^ 31 ≤ x) (hhi : x < 2 ^ 31) : wrap x = x := by
  rw [wrap]
  exact Int.bmod_eq_of_le (by omega) (by omega)

/-- Within the first 248 days the words fit. -/
theorem fits_of_small {p : TaskPtr} {j : Int} {n : Nat} {w : Watch} {later : Option U32}
    (hj : 0 ≤ j) (hn : 0 < n) (hdeadline : j + n < 2 ^ 31) (htimes : ∀ t ∈ w.times, j + t < 2 ^ 31)
    (hlater : ∀ seconds, later = some seconds →
      j + w.time < 2 ^ 31 ∧ 100 ≤ |(n : Int) - w.time|) : Fits p j n w later := by
  have hstored : wrap (j + n) = j + n := wrap_of_small (by omega) hdeadline
  refine ⟨fun l t l' hsplit _ => ?_, fun seconds hs _ _ => ⟨by omega, ?_⟩⟩
  · have ht := htimes t (by rw [hsplit]; simp)
    rw [WordsDue, hstored, wrap_of_small (by omega) ht]
    omega
  · obtain ⟨htime, hleft⟩ := hlater seconds hs
    rwa [wrap_of_small (by omega) (by omega)]

/-- The alarm is punctual, and a later call returns 0 only when none is pending, exactly if the
words that are compared fit and a later call comes a second or more from the deadline. -/
theorem alarm_punctual_iff {s : Tasks} (hin : s.InTable s.current) {seconds : U32}
    (h : seconds ≠ 0) {ls : List AlarmEvent} {w : Watch}
    (hrun : Run (Watch.Step s.current) (.start (s.sysAlarm seconds).1) ls w)
    (later : Option U32) :
    IsPunctual s.current (100 * seconds.toNat) w later ↔
      Fits s.current s.jiffies.toInt (100 * seconds.toNat) w later := by
  have hw := Watched.run hin h hrun
  exact ⟨hw.fits_of_punctual, hw.punctual_of_fits⟩

theorem run_ticks (p : TaskPtr) (w : Watch) (k : Nat) :
    ∃ ls w', Run (Watch.Step p) w ls w' ∧ w'.time = w.time + k ∧ w'.log = w.log := by
  induction k with
  | zero => exact ⟨[], w, Run.nil, rfl, rfl⟩
  | succ k ih =>
    obtain ⟨ls, w', hrun, htime, hlog⟩ := ih
    refine ⟨_, _, hrun.snoc (.tick 0x0F), ?_, hlog⟩
    show w'.time + 1 = w.time + (k + 1)
    omega

/-- After `k` ticks there is a run of `schedule()`. -/
theorem alarm_run (p : TaskPtr) (w : Watch) (k : Nat) :
    ∃ ls w', Run (Watch.Step p) w ls w' ∧ w'.time = w.time + k ∧ w'.times = w.times ++ [w.time + k] := by
  obtain ⟨ls, w', hrun, htime, hlog⟩ := run_ticks p w k
  refine ⟨_, _, hrun.snoc .schedule, htime, ?_⟩
  rw [Watch.times, Watch.times, List.map_append, hlog, htime]
  rfl

/-- An alarm of one second goes off in the run after its deadline and not in the run at it, and
a call right after the first finds it pending. -/
theorem alarm_punctual_iff_one_second :
    (∃ ls w, Run (Watch.Step threeTasks.current) (.start (threeTasks.sysAlarm 1).1) ls w ∧
        w.log = [(100, false), (101, true)]) ∧
      ((threeTasks.sysAlarm 1).1.sysAlarm 5).2 ≠ 0 := by
  have hin : threeTasks.InTable threeTasks.current := ⟨0, rfl⟩
  constructor
  · obtain ⟨ls, w₁, hrun₁, htime₁, htimes₁⟩ :=
      alarm_run threeTasks.current (.start (threeTasks.sysAlarm 1).1) 100
    obtain ⟨ms, w, hrun₂, -, htimes⟩ := alarm_run threeTasks.current w₁ 1
    have hrun := hrun₁.append hrun₂
    rw [htimes₁, htime₁] at htimes
    have hfits : Fits threeTasks.current 7 100 w none :=
      fits_of_small (by decide) (by decide) (by decide)
        (fun t ht => by rw [htimes] at ht; revert t; decide) fun _ h => by cases h
    have hraised := ((alarm_punctual_iff hin (by decide) hrun none).mpr hfits).raised
    obtain ⟨⟨t₁, r₁⟩, l, hlog, rfl, hl⟩ := List.map_eq_cons_iff.mp htimes
    obtain ⟨⟨t₂, r₂⟩, _, rfl, rfl, hnil⟩ := List.map_eq_cons_iff.mp hl
    obtain rfl := List.map_eq_nil_iff.mp hnil
    have h₁ : r₁ = false :=
      Bool.eq_false_iff.mpr fun h => absurd ((hraised [] _ _ _ hlog).mp h).1 (lt_irrefl _)
    have h₂ : r₂ = true := by
      refine (hraised [_] _ _ [] hlog).mpr ⟨by decide, fun e he => ?_⟩
      rw [List.eq_of_mem_singleton he]
      exact le_refl 100
    refine ⟨_, w, hrun, ?_⟩
    rw [hlog, h₁, h₂]
    rfl
  · intro hzero
    have hfits : Fits threeTasks.current 7 100 (.start (threeTasks.sysAlarm 1).1) (some 5) :=
      fits_of_small (by decide) (by decide) (by decide) (fun t ht => by cases ht)
        fun _ _ => ⟨by decide, by decide⟩
    have hpending := ((@alarm_punctual_iff threeTasks hin 1 (by decide) [] _ Run.nil (some 5)).mpr
      hfits).pending
    obtain ⟨e, he, -⟩ := hpending 5 rfl rfl (fun e he => by cases he) hzero
    cases he

/-- An alarm that is due in 248 days goes off after one tick. -/
theorem alarm_early :
    ¬ ∀ (s : Tasks) (seconds : U32) (ls : List AlarmEvent) (w : Watch) (later : Option U32),
      0 ≤ s.jiffies → s.InTable s.current → seconds ≠ 0 →
        Run (Watch.Step s.current) (.start (s.sysAlarm seconds).1) ls w →
          IsPunctual s.current (100 * seconds.toNat) w later := by
  intro h
  have hin : threeTasks.InTable threeTasks.current := ⟨0, rfl⟩
  obtain ⟨ls, w, hrun, -, htimes⟩ :=
    alarm_run threeTasks.current (.start (threeTasks.sysAlarm 21474837).1) 1
  have hp := h threeTasks 21474837 _ w none (by decide) hin (by decide) hrun
  have hfits := (Watched.run hin (by decide) hrun).fits_of_punctual hp
  have hcmp := hfits.compares [] 1 [] htimes fun t ht => by cases ht
  exact absurd (hcmp.mp (by decide)) (by decide)

end Kernel
end CherryOS
