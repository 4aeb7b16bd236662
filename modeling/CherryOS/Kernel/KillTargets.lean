import CherryOS.Kernel.Kill

/-!
# The targets of kill

The comments of `sys_kill` name its targets: the task with the pid, the process group of the
current task, every task but task 1, the process group `|pid|`.  The code tests for other
tasks in three places.  For the pid 0 it compares each process group with the pid of the
current task, for the pid -1 its loop starts at task 1, and `-pid` of the least `int32_t` is
negative.  The call reaches what the comments name exactly if no task lies between the two.
-/

namespace CherryOS
namespace Kernel

namespace Tasks

/-- The tasks that the comments name.  A pid of several tasks is that of the first. -/
def Named (s : Tasks) (pid : Int32) (p : TaskPtr) : Prop :=
  if 0 < pid then ∃ i, i ≠ 0 ∧ s.tasksPtr i = some p ∧ (s.task p).pid = pid ∧
    ∀ j, j ≠ 0 → j < i → ¬ s.HasPid pid j
  else s.Listed p ∧ (pid = 0 → (s.task p).pgrp = (s.task s.current).pgrp) ∧
    (pid = -1 → s.tasksPtr 1 ≠ some p) ∧ (pid < -1 → (s.task p).pgrp.toInt = |pid.toInt|)

/-- With no pid in use twice it is the task with the pid. -/
theorem named_of_distinct {s : Tasks} {pid : Int32} (hpos : 0 < pid)
    (h : ∀ i j, s.HasPid pid i → s.HasPid pid j → i = j) (p : TaskPtr) :
    s.Named pid p ↔ ∃ i, i ≠ 0 ∧ s.tasksPtr i = some p ∧ (s.task p).pid = pid := by
  rw [Named, if_pos hpos]
  constructor
  · rintro ⟨i, hi, hp, hpid, _⟩
    exact ⟨i, hi, hp, hpid⟩
  · rintro ⟨i, hi, hp, hpid⟩
    refine ⟨i, hi, hp, hpid, fun j _ hlt hj => ?_⟩
    exact absurd (h j i hj ⟨p, hp, hpid⟩) (ne_of_lt hlt)

/-- A call of `sys_kill` raises the signal in its targets and changes nothing else. -/
structure Reaches (s : Tasks) (pid sig : Int32) : Prop where
  valid : ValidSig (sigNr sig) →
    RaisedIn (sigNr sig) (fun p => s.Named pid p ∧ s.Permitted pid p) s (s.sysKill pid sig).1
  invalid : ¬ ValidSig (sigNr sig) → (s.sysKill pid sig).1 = s

/-- No task lies between what the comments name and what the code tests for, unless the
signal is pending there already. -/
structure Agrees (s : Tasks) (pid sig : Int32) : Prop where
  group : pid = 0 → ∀ p, s.Listed p → ¬ HasSignal (s.task p) (sigNr sig) →
    ((s.task p).pgrp = (s.task s.current).pid ↔ (s.task p).pgrp = (s.task s.current).pgrp)
  init : pid = -1 → ∀ p, s.tasksPtr 1 = some p → s.MaySignal p → HasSignal (s.task p) (sigNr sig)
  least : pid = Int32.minValue → ∀ p, s.Listed p → (s.task p).pgrp = Int32.minValue →
    s.MaySignal p → HasSignal (s.task p) (sigNr sig)

theorem hasSignal_iff {sig : Nat} (h : ValidSig sig) (t : TaskStruct) :
    HasSignal t sig ↔ t.signal ||| sigBit sig = t.signal := by
  have hlt : sig - 1 < 32 := by
    rw [ValidSig] at h
    omega
  have hne : sigBit sig ≠ 0 := by
    intro h0
    have hbit := congrArg (fun x : U32 => x.getLsbD (sig - 1)) h0
    simp [sigBit, hlt] at hbit
  rw [HasSignal]
  constructor
  · intro hs
    have hbit : t.signal &&& sigBit sig = sigBit sig := by
      have htwo : sigBit sig = BitVec.twoPow 32 (sig - 1) := rfl
      rw [htwo, BitVec.and_twoPow] at hs ⊢
      by_cases hb : t.signal.getLsbD (sig - 1)
      · rw [if_pos hb]
      · rw [if_neg hb] at hs
        exact absurd rfl hs
    ext i hi
    have hi' := congrArg (fun x : U32 => x.getLsbD i) hbit
    simp at hi' ⊢
    exact hi'
  · intro hs h0
    rw [← hs, BitVec.and_or_distrib_right, BitVec.and_self] at h0
    exact hne (BitVec.or_eq_zero_iff.mp h0).2

/-- Two descriptions of what one round of signals did differ only where the signal was
pending before. -/
theorem raisedIn_iff {sig : Nat} (h : ValidSig sig) {P Q : TaskPtr → Prop} {s s' : Tasks}
    (hP : RaisedIn sig P s s') :
    RaisedIn sig Q s s' ↔ ∀ p, (P p ↔ Q p) ∨ HasSignal (s.task p) sig := by
  constructor
  · intro hQ p
    rw [hasSignal_iff h]
    by_cases hp : P p <;> by_cases hq : Q p
    · exact Or.inl (iff_of_true hp hq)
    · right
      rw [← hP.hit p hp, hQ.miss p hq]
    · right
      rw [← hQ.hit p hq, hP.miss p hp]
    · exact Or.inl (iff_of_false hp hq)
  · intro hall
    refine ⟨hP.rest, fun p hq => ?_, fun p hq => ?_⟩ <;> by_cases hp : P p
    · exact hP.hit p hp
    · rcases hall p with hiff | hhas
      · exact absurd (hiff.mpr hq) hp
      · rw [hP.miss p hp, (hasSignal_iff h _).mp hhas]
    · rcases hall p with hiff | hhas
      · exact absurd (hiff.mp hp) hq
      · rw [hP.hit p hp, (hasSignal_iff h _).mp hhas]
    · exact hP.miss p hp

theorem findPidTask_eq_some {s : Tasks} {pid : Int32} {p : TaskPtr} :
    s.findPidTask pid = some p ↔ ∃ i, i ≠ 0 ∧ s.tasksPtr i = some p ∧ (s.task p).pid = pid ∧
      ∀ j, j ≠ 0 → j < i → ¬ s.HasPid pid j := by
  have hfirst : ∀ {i}, (userSlots.find? fun i => s.HasPid pid i) = some i →
      i ≠ 0 ∧ s.HasPid pid i ∧ ∀ j, j ≠ 0 → j < i → ¬ s.HasPid pid j := by
    intro i hi
    refine ⟨mem_userSlots.mp (List.mem_of_find?_eq_some hi), by simpa using List.find?_some hi,
      fun j hj hlt => ?_⟩
    simpa using not_of_find?_eq_some userSlots_sorted hi (mem_userSlots.mpr hj) hlt
  constructor
  · intro h
    obtain ⟨i, hi, hp⟩ := Option.bind_eq_some_iff.mp h
    obtain ⟨hne, ⟨q, hq, hpid⟩, hbefore⟩ := hfirst hi
    rw [hp] at hq
    cases hq
    exact ⟨i, hne, hp, hpid, hbefore⟩
  · rintro ⟨i, hne, hp, hpid, hbefore⟩
    cases hfound : userSlots.find? fun i => s.HasPid pid i with
    | none =>
      have hno := List.find?_eq_none.mp hfound i (mem_userSlots.mpr hne)
      have hhas : s.HasPid pid i := ⟨p, hp, hpid⟩
      simp [hhas] at hno
    | some k =>
      obtain ⟨hk, hhas, hkbefore⟩ := hfirst hfound
      rw [findPidTask, hfound, Option.bind_some]
      rcases lt_trichotomy k i with hlt | heq | hgt
      · exact absurd hhas (hbefore k hk hlt)
      · rw [heq, hp]
      · exact absurd ⟨p, hp, hpid⟩ (hkbefore i hne hgt)

/-- The test of the last loop is for the group `|pid|`, but for the least `int32_t`, which is
its own negative. -/
theorem neg_group {pid : Int32} (h : pid < -1) (g : Int32) :
    (g = -pid ↔ g.toInt = |pid.toInt|) ∨ pid = Int32.minValue := by
  have hlt : pid.toInt < -1 := Int32.lt_iff_toInt_lt.mp h
  have hge := pid.le_toInt
  by_cases hmin : pid = Int32.minValue
  · exact Or.inr hmin
  · left
    have hne : pid.toInt ≠ -2147483648 := fun hc => hmin (Int32.toInt_inj.mp hc)
    have hneg : (-pid).toInt = -pid.toInt := by
      rw [Int32.toInt_neg, Int.bmod_eq_of_le] <;> omega
    rw [← Int32.toInt_inj, hneg, abs_of_neg (by omega)]

/-- The kinds of a pid exclude each other. -/
theorem small_kind {pid : Int32} (h : pid < -1) : ¬ 0 < pid ∧ pid ≠ 0 ∧ pid ≠ -1 := by
  have hlt : pid.toInt < -1 := Int32.lt_iff_toInt_lt.mp h
  refine ⟨fun hpos => ?_, fun hzero => ?_, fun hall => ?_⟩
  · have hpos : 0 < pid.toInt := Int32.lt_iff_toInt_lt.mp hpos
    omega
  · rw [hzero] at h
    exact absurd h (by decide)
  · rw [hall] at h
    exact absurd h (by decide)

theorem pos_kind {pid : Int32} (h : 0 < pid) :
    pid ≠ 0 ∧ pid ≠ -1 ∧ pid ≠ Int32.minValue := by
  refine ⟨fun hzero => ?_, fun hall => ?_, fun hmin => ?_⟩
  · rw [hzero] at h
    exact absurd h (by decide)
  · rw [hall] at h
    exact absurd h (by decide)
  · rw [hmin] at h
    exact absurd h (by decide)

/-! Where the code and the comments choose the same tasks, by the kind of the pid. -/

theorem same_zero (s : Tasks) (p : TaskPtr) :
    (s.Chosen 0 p ∧ s.Permitted 0 p ↔ s.Named 0 p ∧ s.Permitted 0 p) ↔ (s.Listed p →
      ((s.task p).pgrp = (s.task s.current).pid ↔ (s.task p).pgrp = (s.task s.current).pgrp)) := by
  have hpos : ¬ (0 : Int32) < 0 := by decide
  have hsmall : ¬ (0 : Int32) < -1 := by decide
  have hall : ¬ (0 : Int32) = -1 := by decide
  simp [Chosen, Named, Permitted, hpos, hsmall, hall]

theorem same_all (s : Tasks) (p : TaskPtr) :
    (s.Chosen (-1) p ∧ s.Permitted (-1) p ↔ s.Named (-1) p ∧ s.Permitted (-1) p) ↔
      (s.tasksPtr 1 = some p → ¬ s.MaySignal p) := by
  have hpos : ¬ (0 : Int32) < -1 := by decide
  have hsmall : ¬ (-1 : Int32) < -1 := by decide
  have hzero : ¬ (-1 : Int32) = 0 := by decide
  have hlisted : s.tasksPtr 1 = some p → s.Listed p := fun h => ⟨1, by decide, h⟩
  simp only [Chosen, Named, Permitted, if_neg hpos, hsmall, hzero, ne_eq, not_false_eq_true,
    false_imp_iff, true_imp_iff, true_and, and_true]
  constructor
  · intro h hp hmay
    exact (h.mp ⟨hlisted hp, hmay⟩).1.2 hp
  · intro h
    exact ⟨fun hc => ⟨⟨hc.1, fun hp => h hp hc.2⟩, hc.2⟩, fun hc => ⟨hc.1.1, hc.2⟩⟩

theorem same_small (s : Tasks) {pid : Int32} (h : pid < -1) (p : TaskPtr) :
    (s.Chosen pid p ∧ s.Permitted pid p ↔ s.Named pid p ∧ s.Permitted pid p) ↔
      (pid = Int32.minValue → s.Listed p → (s.task p).pgrp = Int32.minValue → ¬ s.MaySignal p) := by
  obtain ⟨hpos, hzero, hall⟩ := small_kind h
  simp only [Chosen, Named, Permitted, if_neg hpos, h, hzero, hall, ne_eq, not_false_eq_true,
    false_imp_iff, true_imp_iff, true_and]
  rcases neg_group h (s.task p).pgrp with hgroup | hmin
  · rw [hgroup]
    refine iff_of_true Iff.rfl fun hmin _ hp => ?_
    -- the least `int32_t` would be its own absolute value
    rw [hp, hmin] at hgroup
    exact absurd (hgroup.mp (by decide)) (by decide)
  · have hnot : ¬ (s.task p).pgrp.toInt = |pid.toInt| := by
      have hmax := (s.task p).pgrp.toInt_lt
      have habs : |pid.toInt| = 2147483648 := by
        rw [hmin]
        decide
      omega
    have hneg : -pid = Int32.minValue := by
      rw [hmin]
      decide
    have hleft : ¬ ((s.Listed p ∧ (s.task p).pgrp.toInt = |pid.toInt|) ∧ s.MaySignal p) :=
      fun hc => hnot hc.1.2
    rw [hneg, iff_false_right hleft]
    constructor
    · exact fun hno _ hp hg hmay => hno ⟨⟨hp, hg⟩, hmay⟩
    · exact fun hno hc => hno hmin hc.1.1 hc.1.2 hc.2

/-- What the code and the comments choose differs, where it does, in one of three ways. -/
theorem agrees_iff (s : Tasks) (pid sig : Int32) :
    (∀ p, (s.Chosen pid p ∧ s.Permitted pid p ↔ s.Named pid p ∧ s.Permitted pid p) ∨
      HasSignal (s.task p) (sigNr sig)) ↔ s.Agrees pid sig := by
  have hpid : 0 < pid ∨ pid = 0 ∨ pid = -1 ∨ pid < -1 := by
    simp only [Int32.lt_iff_toInt_lt, ← Int32.toInt_inj]
    change 0 < pid.toInt ∨ pid.toInt = 0 ∨ pid.toInt = -1 ∨ pid.toInt < -1
    omega
  rcases hpid with hpos | rfl | rfl | hsmall
  · obtain ⟨hzero, hall, hmin⟩ := pos_kind hpos
    refine iff_of_true (fun p => Or.inl ?_) ⟨fun h => absurd h hzero, fun h => absurd h hall,
      fun h => absurd h hmin⟩
    rw [Chosen, if_pos hpos, Named, if_pos hpos, findPidTask_eq_some]
  · simp only [same_zero]
    constructor
    · intro h
      exact ⟨fun _ p hp hno => (h p).resolve_right hno hp, fun hc => absurd hc (by decide),
        fun hc => absurd hc (by decide)⟩
    · intro h p
      exact or_iff_not_imp_right.mpr fun hno hp => h.group rfl p hp hno
  · simp only [same_all]
    constructor
    · intro h
      refine ⟨fun hc => absurd hc (by decide), fun _ p hp hmay => ?_,
        fun hc => absurd hc (by decide)⟩
      exact (h p).resolve_left fun hno => hno hp hmay
    · intro h p
      exact or_iff_not_imp_right.mpr fun hno hp hmay => hno (h.init rfl p hp hmay)
  · obtain ⟨_, hzero, hall⟩ := small_kind hsmall
    simp only [same_small s hsmall]
    constructor
    · intro h
      exact ⟨fun hc => absurd hc hzero, fun hc => absurd hc hall,
        fun hmin p hp hg hmay => (h p).resolve_left fun hno => hno hmin hp hg hmay⟩
    · intro h p
      exact or_iff_not_imp_right.mpr fun hno hmin hp hg hmay => hno (h.least hmin p hp hg hmay)

/-! ## The exact condition -/

/-- The call reaches exactly the tasks that the comments name, or its number is no signal, if
and only if no task lies between the comments and the tests. -/
theorem sysKill_reaches_iff (s : Tasks) (pid sig : Int32) :
    s.Reaches pid sig ↔ (ValidSig (sigNr sig) → s.Agrees pid sig) := by
  constructor
  · intro h hsig
    have hagrees := (raisedIn_iff hsig (sysKill_raised s pid hsig)).mp (h.valid hsig)
    exact (agrees_iff s pid sig).mp hagrees
  · intro h
    exact ⟨fun hsig => (raisedIn_iff hsig (sysKill_raised s pid hsig)).mpr
      ((agrees_iff s pid sig).mpr (h hsig)), sysKill_invalid s pid⟩

/-- Task 1 runs, a child of task 0 and in its process group. -/
def initRuns (img : Image) : Tasks where
  jiffies := 0
  current := .frame 0x100000
  tasksPtr := fun i => if i = 0 then some .task0 else if i = 1 then some (.frame 0x100000) else none
  task := fun p => if p = .task0 then initTask0 img else { initTask0 img with pid := 1, father := 0 }

/-- Task 1 signals its own group with SIGTERM and does not get the signal: its group is 0 and
its pid is 1. -/
theorem sysKill_misses :
    ¬ ∀ (s : Tasks) (pid sig : Int32), s.Reaches pid sig := by
  intro h
  have hsig : ValidSig (sigNr 15) := by decide
  have hnot : ¬ (initRuns bootOf16MB.img).Agrees 0 15 := by
    intro ha
    have hiff := ha.group rfl (.frame 0x100000) ⟨1, by decide, by decide⟩
      fun hc => hc (by decide)
    exact absurd (hiff.mpr (by decide)) (by decide)
  have hreach := (h (initRuns bootOf16MB.img) 0 15).valid hsig
  exact hnot ((agrees_iff _ _ _).mp ((raisedIn_iff hsig (sysKill_raised _ _ hsig)).mp hreach))

end Tasks

end Kernel
end CherryOS
