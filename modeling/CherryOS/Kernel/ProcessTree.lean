import CherryOS.Kernel.Frames

/-!
# The process tree

`Tree` is what forks and exits keep of the pids and fathers in the task table.  Task 1 is
the only task that outlives its children, so it has to be there, alive and with pid 1,
before any other task exists: the first fork of `task0` makes it.
-/

namespace CherryOS
namespace Kernel

open Mm Lib Tasks

structure Tree (s : State) : Prop where
  pids : ∀ i j p q, s.tasksPtr i = some p → s.tasksPtr j = some q →
    (s.task p).pid = (s.task q).pid → i = j
  father : ∀ i p, i ≠ 0 → s.tasksPtr i = some p →
    ∃ j q, s.tasksPtr j = some q ∧ (s.task q).pid = (s.task p).father ∧
      (s.task q).state ≠ .zombie
  idle : (s.task .task0).pid = 0
  positive : ∀ i p, i ≠ 0 → s.tasksPtr i = some p → 0 < (s.task p).pid.toInt
  init : ∀ p, s.tasksPtr 1 = some p → (s.task p).pid = 1 ∧ (s.task p).state ≠ .zombie
  last : 0 ≤ s.lastPid.toInt
  first : s.tasksPtr 1 = none → s.lastPid = 0

/-- A step that keeps pids, fathers and who is a zombie keeps `Tree`. -/
theorem Tree.congr {s s' : State} (h : Tree s) (hptr : s'.tasksPtr = s.tasksPtr)
    (htask : ∀ i p, s.tasksPtr i = some p → (s'.task p).pid = (s.task p).pid ∧
      (s'.task p).father = (s.task p).father ∧
      ((s'.task p).state = .zombie ↔ (s.task p).state = .zombie))
    (hidle : (s'.task .task0).pid = 0) (hlast : 0 ≤ s'.lastPid.toInt)
    (hfirst : s.tasksPtr 1 = none → s'.lastPid = 0) : Tree s' := by
  refine ⟨fun i j p q hi hj hpq => ?_, fun i p hi hp => ?_, hidle, fun i p hi hp => ?_,
    fun p hp => ?_, hlast, by rwa [hptr]⟩
  · rw [hptr] at hi hj
    rw [(htask i p hi).1, (htask j q hj).1] at hpq
    exact h.pids i j p q hi hj hpq
  · rw [hptr] at hp ⊢
    obtain ⟨j, q, hq, hpid, hz⟩ := h.father i p hi hp
    refine ⟨j, q, hq, ?_, fun hc => hz ((htask j q hq).2.2.mp hc)⟩
    rw [(htask j q hq).1, (htask i p hp).2.1, hpid]
  · rw [hptr] at hp
    rw [(htask i p hp).1]
    exact h.positive i p hi hp
  · rw [hptr] at hp
    obtain ⟨hpid, hz⟩ := h.init p hp
    obtain ⟨hpid', _, hz'⟩ := htask 1 p hp
    exact ⟨by rw [hpid', hpid], fun hc => hz (hz'.mp hc)⟩

theorem Boot.tree (b : Boot) : Tree b.state := by
  have hslot : ∀ nr p, b.state.tasksPtr nr = some p → nr = 0 := by
    intro nr p hp
    by_contra hnr
    have : b.state.tasksPtr nr = none := if_neg hnr
    rw [this] at hp
    cases hp
  have htask0 : b.state.task .task0 = initTask0 b.img := by
    simp only [Boot.state, Function.update_self]
  refine ⟨fun i j p q hi hj _ => ?_, fun i p hi hp => absurd (hslot i p hp) hi, ?_,
    fun i p hi hp => absurd (hslot i p hp) hi, fun p hp => ?_, le_refl _, fun _ => rfl⟩
  · rw [hslot i p hi, hslot j q hj]
  · rw [htask0]
    rfl
  · exact absurd (hslot 1 p hp) (by decide)

/-! ## Pids -/

theorem findPid_first {s : Tasks} {p : Int32} (fuel : Nat) (h : ∀ i, ¬ s.HasPid (nextPid p) i) :
    s.findPid (fuel + 1) p = some (nextPid p) := by
  rw [findPid, if_neg]
  rintro ⟨i, hi⟩
  exact h i hi

/-- The pid a fork finds is new and positive, and it is 1 for the first fork. -/
theorem Tree.newPid {managed : Nat → Prop} {s : State} (h : Tree s) (hs : Sound managed s)
    {pid : Int32} (hpid : s.findPid (NUMBER_OF_TASKS + 1) s.lastPid = some pid) :
    (∀ i p, s.tasksPtr i = some p → (s.task p).pid ≠ pid) ∧ 0 < pid.toInt ∧
      (s.tasksPtr 1 = none → pid = 1) := by
  obtain ⟨hno, r, hr, htried⟩ := findPid_spec hpid
  refine ⟨fun i p hp hc => hno i ⟨p, hp, hc⟩, ?_, fun h1 => ?_⟩
  · rw [hr]
    apply nextPid_pos
    rcases htried with rfl | ⟨i, p, hp, hpr⟩
    · exact h.last
    · rw [← hpr]
      by_cases hi : i = 0
      · rw [hi, hs.inv.slot0] at hp
        cases hp
        rw [h.idle]
        exact le_refl _
      · exact le_of_lt (h.positive i p hi hp)
  · have hnone : ∀ i, ¬ s.HasPid (nextPid 0) i := by
      intro i ⟨p, hp, hpr⟩
      by_cases hi : i = 0
      · rw [hi, hs.inv.slot0] at hp
        cases hp
        rw [h.idle] at hpr
        exact absurd hpr (by decide)
      · exact hs.init i hi (by rw [hp]; exact fun hc => by cases hc) h1
    rw [h.first h1, findPid_first _ hnone] at hpid
    exact (Option.some.inj hpid).symm

theorem findPidTask_spec {s : Tasks} {pid : Int32} {j : Fin NUMBER_OF_TASKS} {q : TaskPtr}
    (hj : j ≠ 0) (hq : s.tasksPtr j = some q) (hpid : (s.task q).pid = pid) :
    ∃ i p, i ≠ 0 ∧ s.tasksPtr i = some p ∧ (s.task p).pid = pid ∧
      s.findPidTask pid = some p := by
  cases hf : userSlots.find? fun i => s.HasPid pid i with
  | none =>
    have hno := List.find?_eq_none.mp hf j (mem_userSlots.mpr hj)
    have hhas : s.HasPid pid j := ⟨q, hq, hpid⟩
    simp [hhas] at hno
  | some i =>
    have hi : s.HasPid pid i := by simpa using List.find?_some hf
    obtain ⟨p, hp, hpp⟩ := hi
    refine ⟨i, p, mem_userSlots.mp (List.mem_of_find?_eq_some hf), hp, hpp, ?_⟩
    rw [findPidTask, hf, Option.bind_some, hp]

/-! ## Fork -/

theorem Tree.child {managed : Nat → Prop} {s s' : State} (h : Tree s) (hs : Sound managed s)
    {i nr : Fin NUMBER_OF_TASKS} {pid : Int32} {p : TaskPtr} (hi : s.tasksPtr i = some s.current)
    (hlive : (s.task s.current).state ≠ .zombie) (hnone : s.tasksPtr nr = none)
    (hfirst : s.tasksPtr 1 = none → nr = 1)
    (hpid : s.findPid (NUMBER_OF_TASKS + 1) s.lastPid = some pid)
    (hfresh : ∀ j, s.tasksPtr j ≠ some p)
    (hptr : s'.tasksPtr = Function.update s.tasksPtr nr (some p))
    (htask : ∀ q, q ≠ p → s'.task q = s.task q) (hppid : (s'.task p).pid = pid)
    (hfather : (s'.task p).father = (s.task s.current).pid)
    (hrun : (s'.task p).state = .running) (hlast : s'.lastPid = pid) : Tree s' := by
  obtain ⟨hnew, hpos, hone⟩ := h.newPid hs hpid
  have hself : s'.tasksPtr nr = some p := by rw [hptr, Function.update_self]
  have hold : ∀ j q, s'.tasksPtr j = some q → j = nr ∧ q = p ∨
      j ≠ nr ∧ s.tasksPtr j = some q ∧ s'.task q = s.task q := by
    intro j q hq
    by_cases hj : j = nr
    · rw [hj, hself] at hq
      exact Or.inl ⟨hj, (Option.some.inj hq).symm⟩
    · rw [hptr, Function.update_of_ne hj] at hq
      exact Or.inr ⟨hj, hq, htask q fun hc => hfresh j (hc ▸ hq)⟩
  have hkeep : ∀ j q, s.tasksPtr j = some q → s'.tasksPtr j = some q ∧ s'.task q = s.task q := by
    intro j q hq
    have hj : j ≠ nr := by
      intro hc
      rw [hc, hnone] at hq
      cases hq
    exact ⟨by rw [hptr, Function.update_of_ne hj, hq], htask q fun hc => hfresh j (hc ▸ hq)⟩
  refine ⟨fun j k q r hj hk hqr => ?_, fun j q hj hq => ?_, ?_, fun j q hj hq => ?_,
    fun q hq => ?_, ?_, fun h1 => ?_⟩
  · rcases hold j q hj with ⟨hjn, rfl⟩ | ⟨_, hj', hqt⟩ <;>
      rcases hold k r hk with ⟨hkn, rfl⟩ | ⟨_, hk', hrt⟩
    · rw [hjn, hkn]
    · rw [hppid, hrt] at hqr
      exact absurd hqr.symm (hnew k r hk')
    · rw [hppid, hqt] at hqr
      exact absurd hqr (hnew j q hj')
    · rw [hqt, hrt] at hqr
      exact h.pids j k q r hj' hk' hqr
  · rcases hold j q hq with ⟨_, rfl⟩ | ⟨_, hq', hqt⟩
    · obtain ⟨hi', hit⟩ := hkeep i _ hi
      exact ⟨i, s.current, hi', by rw [hit, hfather], by rwa [hit]⟩
    · obtain ⟨k, r, hr, hrp, hrz⟩ := h.father j q hj hq'
      obtain ⟨hr', hrt⟩ := hkeep k r hr
      exact ⟨k, r, hr', by rw [hrt, hqt, hrp], by rwa [hrt]⟩
  · rw [(hkeep 0 .task0 hs.inv.slot0).2, h.idle]
  · rcases hold j q hq with ⟨_, rfl⟩ | ⟨_, hq', hqt⟩
    · rwa [hppid]
    · rw [hqt]
      exact h.positive j q hj hq'
  · rcases hold 1 q hq with ⟨h1, rfl⟩ | ⟨_, hq', hqt⟩
    · refine ⟨?_, by rw [hrun]; exact fun hc => by cases hc⟩
      rw [hppid]
      exact hone (by rw [h1, hnone])
    · rw [hqt]
      exact h.init q hq'
  · rw [hlast]
    exact le_of_lt hpos
  · by_cases h1n : (1 : Fin NUMBER_OF_TASKS) = nr
    · rw [h1n, hself] at h1
      cases h1
    · rw [hptr, Function.update_of_ne h1n] at h1
      exact absurd (hfirst h1).symm h1n

/-! ## Exit -/

/-- Whom a dying task tells is in the table: task 1 after an adoption, else the task that
`Tree.father` gives. -/
theorem Tree.father_found {managed : Nat → Prop} {s s₁ : State} (h : Tree s)
    (hs : Sound managed s) {i : Fin NUMBER_OF_TASKS} (hi : s.tasksPtr i = some s.current)
    (h0 : i ≠ 0) (hex : Exited s.toTasks s₁.toTasks)
    (hf0 : (s₁.task s₁.current).father ≠ 0) :
    ∃ j q, j ≠ 0 ∧ s₁.tasksPtr j = some q ∧
      (s₁.task q).pid = (s₁.task s₁.current).father := by
  by_cases hown : (s.task s.current).father = (s.task s.current).pid
  · have h1 := hs.init i h0 (by rw [hi]; exact fun hc => by cases hc)
    obtain ⟨q, hq⟩ := Option.ne_none_iff_exists'.mp h1
    refine ⟨1, q, by decide, by rw [hex.tasksPtr, hq], ?_⟩
    rw [(hex.keeps q).pid, (h.init q hq).1, hex.current, hex.father,
      if_pos ⟨⟨i, h0, hi⟩, hown⟩]
  · obtain ⟨j, q, hq, hpid, _⟩ := h.father i _ h0 hi
    have hfather : (s₁.task s₁.current).father = (s.task s.current).father := by
      rw [hex.current, hex.father, if_neg fun hc => hown hc.2]
    refine ⟨j, q, fun hj => ?_, by rw [hex.tasksPtr, hq], ?_⟩
    · rw [hj, hs.inv.slot0] at hq
      cases hq
      rw [h.idle] at hpid
      rw [hfather, ← hpid] at hf0
      exact hf0 rfl
    · rw [(hex.keeps q).pid, hpid, hfather]

/-- What an exit leads to: a father is found, and it has the signal when all is done. -/
theorem Tree.doExit {managed : Nat → Prop} {s : State} (h : Tree s) (hs : Sound managed s)
    {i : Fin NUMBER_OF_TASKS} (hi : s.tasksPtr i = some s.current) (h2 : 2 ≤ i.val)
    (hlive : (s.task s.current).state ≠ .zombie) (code : Int32) :
    ∃ s₁ s' tr, s.beginExit code = .ok s₁ ∧ Exited s.toTasks s₁.toTasks ∧
      ((s₁.task s₁.current).father = 0 ∨
        ∃ q, s₁.findPidTask (s₁.task s₁.current).father = some q) ∧
      s.doExit code = .ok (s', tr) ∧ s'.tasksPtr = s.tasksPtr ∧ s'.lastPid = s.lastPid ∧
      (∀ q, Keeps (s₁.task q) (s'.task q) ∧ (s'.task q).father = (s₁.task q).father ∧
        ((s'.task q).state = .zombie ↔ (s₁.task q).state = .zombie)) ∧
      ∀ j q, j ≠ 0 → s.tasksPtr j = some q → (s.task q).pid = (s₁.task s.current).father →
        HasSignal (s'.task q) SIGCHLD := by
  obtain ⟨s₁, hs₁, _, hex, hlast⟩ := hs.inv.beginExit hi h2 hlive code
  have h0 : i ≠ 0 := by
    intro hc
    rw [hc] at h2
    exact absurd h2 (by decide)
  have hsched : ∀ (s₂ : State) (q : TaskPtr), Keeps (s₂.task q) (s₂.schedule.1.task q) ∧
      (s₂.schedule.1.task q).father = (s₂.task q).father ∧
      ((s₂.schedule.1.task q).state = .zombie ↔ (s₂.task q).state = .zombie) :=
    fun s₂ q => Tasks.schedule_task s₂.toTasks q
  by_cases hf0 : (s₁.task s₁.current).father = 0
  · refine ⟨s₁, s₁.schedule.1, s₁.schedule.2, hs₁, hex, Or.inl hf0, ?_, ?_, hlast, hsched s₁, ?_⟩
    · rw [State.doExit, hs₁, ok_bind, State.tellFather, if_pos hf0, ok_bind]
    · show s₁.toTasks.schedule.1.tasksPtr = _
      rw [Tasks.schedule_tasksPtr, hex.tasksPtr]
    · intro j q hj hq hpid
      rw [hex.current] at hf0
      have := h.positive j q hj hq
      rw [hpid, hf0] at this
      exact absurd this (by decide)
  · obtain ⟨j, q, hj, hq, hpid⟩ := h.father_found hs hi h0 hex hf0
    obtain ⟨k, r, hk, hr, hrpid, hfind⟩ := findPidTask_spec hj hq hpid
    rw [hex.tasksPtr] at hr
    obtain ⟨s₂, hs₂⟩ : ∃ s₂, s₂ = s₁.setTask r { s₁.task r with
      signal := (s₁.task r).signal ||| sigBit SIGCHLD } := ⟨_, rfl⟩
    refine ⟨s₁, s₂.schedule.1, s₂.schedule.2, hs₁, hex, Or.inr ⟨r, hfind⟩, ?_, ?_, ?_,
      fun x => ?_, fun l x hl hx hxpid => ?_⟩
    · rw [State.doExit, hs₁, ok_bind, State.tellFather, if_neg hf0, hfind, hs₂]
      rfl
    · show s₂.toTasks.schedule.1.tasksPtr = _
      rw [Tasks.schedule_tasksPtr, hs₂]
      exact hex.tasksPtr
    · rw [hs₂]
      exact hlast
    · obtain ⟨hk₂, hf₂, hz₂⟩ := hsched s₂ x
      have hkeeps : Keeps (s₁.task x) (s₂.task x) := by
        rw [hs₂]
        exact Tasks.setTask_related Keeps.refl (by exact ⟨rfl, rfl, _, rfl⟩) x
      have hfather : (s₂.task x).father = (s₁.task x).father := by
        rw [hs₂]
        exact Tasks.setTask_same (·.father) (by rfl) x
      have hstate : (s₂.task x).state = (s₁.task x).state := by
        rw [hs₂]
        exact Tasks.setTask_same (·.state) (by rfl) x
      exact ⟨hkeeps.trans hk₂, hf₂.trans hfather, by rw [hz₂, hstate]⟩
    · have hxr : x = r := by
        rw [(hex.keeps r).pid, hex.current] at hrpid
        have := h.pids l k x r hx hr (by rw [hxpid, hrpid])
        rw [this, hr] at hx
        exact (Option.some.inj hx).symm
      have hself : s₂.task r = { s₁.task r with
          signal := (s₁.task r).signal ||| sigBit SIGCHLD } := by
        rw [hs₂]
        exact (Tasks.setTask_task _ _ _ _).trans (if_pos rfl)
      refine HasSignal.keeps ?_ (hsched s₂ x).1
      rw [hxr, hself]
      exact hasSignal_raise _ (by decide)

theorem Tree.exited {managed : Nat → Prop} {s s₁ s' : State} (h : Tree s) (hs : Sound managed s)
    {i : Fin NUMBER_OF_TASKS} (hi : s.tasksPtr i = some s.current) (h2 : 2 ≤ i.val)
    (hex : Exited s.toTasks s₁.toTasks) (hptr : s'.tasksPtr = s.tasksPtr)
    (hlast : s'.lastPid = s.lastPid)
    (htask : ∀ q, Keeps (s₁.task q) (s'.task q) ∧ (s'.task q).father = (s₁.task q).father ∧
      ((s'.task q).state = .zombie ↔ (s₁.task q).state = .zombie)) : Tree s' := by
  have h0 : i ≠ 0 := by
    intro hc
    rw [hc] at h2
    exact absurd h2 (by decide)
  have h1i : (1 : Fin NUMBER_OF_TASKS) ≠ i := by
    intro hc
    rw [← hc] at h2
    exact absurd h2 (by decide)
  have hpid : ∀ q, (s'.task q).pid = (s.task q).pid := fun q => by
    rw [(htask q).1.pid, (hex.keeps q).pid]
  have hlive : ∀ j q, j ≠ i → s.tasksPtr j = some q → (s.task q).state ≠ .zombie →
      (s'.task q).state ≠ .zombie := by
    intro j q hj hq hz hc
    have hne : q ≠ s.current := fun hc => hj (hs.inv.ptr_inj (hc ▸ hq) hi)
    rw [(htask q).2.2, hex.state q hne] at hc
    exact hz hc
  refine ⟨fun j k q r hj hk hqr => ?_, fun j q hj hq => ?_, by rw [hpid, h.idle],
    fun j q hj hq => ?_, fun q hq => ?_, by rw [hlast]; exact h.last, by
      rw [hptr, hlast]
      exact h.first⟩
  · rw [hptr] at hj hk
    rw [hpid, hpid] at hqr
    exact h.pids j k q r hj hk hqr
  · rw [hptr] at hq ⊢
    rw [(htask q).2.1, hex.father]
    by_cases hadopt : (s.task q).father = (s.task s.current).pid
    · rw [if_pos ⟨⟨j, hj, hq⟩, hadopt⟩]
      have h1 := hs.init i h0 (by rw [hi]; exact fun hc => by cases hc)
      obtain ⟨r, hr⟩ := Option.ne_none_iff_exists'.mp h1
      obtain ⟨hrp, hrz⟩ := h.init r hr
      exact ⟨1, r, hr, by rw [hpid, hrp], hlive 1 r h1i hr hrz⟩
    · rw [if_neg fun hc => hadopt hc.2]
      obtain ⟨k, r, hr, hrp, hrz⟩ := h.father j q hj hq
      refine ⟨k, r, hr, by rw [hpid, hrp], hlive k r (fun hk => ?_) hr hrz⟩
      rw [hk, hi] at hr
      cases hr
      exact hadopt hrp.symm
  · rw [hptr] at hq
    rw [hpid]
    exact h.positive j q hj hq
  · rw [hptr] at hq
    obtain ⟨hqp, hqz⟩ := h.init q hq
    exact ⟨by rw [hpid, hqp], hlive 1 q h1i hq hqz⟩

/-! ## Runs -/

/-- A step makes the task a zombie, or gives a zombie a new father. -/
def Bereaves (s s' : State) (p : TaskPtr) : Prop :=
  ((s.task p).state ≠ .zombie ∧ (s'.task p).state = .zombie) ∨
    ((s'.task p).state = .zombie ∧ (s'.task p).father ≠ (s.task p).father)

/-- The father of the task, unless that is `task0`, has the signal. -/
def FatherTold (s : State) (p : TaskPtr) : Prop :=
  ∀ j q, j ≠ 0 → s.tasksPtr j = some q → (s.task q).pid = (s.task p).father →
    HasSignal (s.task q) SIGCHLD

/-- When a task dies that had a dead child, the child's new father, task 1, has the signal. -/
theorem Tree.told_of_orphan {managed : Nat → Prop} {s s₁ : State} (h : Tree s)
    (hs : Sound managed s) (hex : Exited s.toTasks s₁.toTasks) {q : TaskPtr}
    (hne : q ≠ s.current) (hb : Bereaves s s₁ q) {j : Fin NUMBER_OF_TASKS} {r : TaskPtr}
    (hr : s.tasksPtr j = some r)
    (hrq : (s.task r).pid = (s₁.task q).father) : HasSignal (s₁.task r) SIGCHLD := by
  have hstate : (s₁.task q).state = (s.task q).state := hex.state q hne
  rw [Bereaves, hstate] at hb
  obtain ⟨hz, hmoved⟩ := hb.resolve_left fun hc => hc.1 hc.2
  have hfather := hex.father q
  by_cases hadopt : (∃ k, k ≠ 0 ∧ s.tasksPtr k = some q) ∧
      (s.task q).father = (s.task s.current).pid
  · obtain ⟨⟨k, hk, hkq⟩, hfq⟩ := hadopt
    have h1 := hs.init k hk (by rw [hkq]; exact fun hc => by cases hc)
    obtain ⟨x, hx⟩ := Option.ne_none_iff_exists'.mp h1
    have hone : (s₁.task q).father = 1 := by
      rw [hfather]
      exact if_pos ⟨⟨k, hk, hkq⟩, hfq⟩
    have hjx := h.pids j 1 r x hr hx (by rw [hrq, hone, (h.init x hx).1])
    rw [hjx] at hr
    exact hex.signal k q hk hkq hfq hz r hr
  · refine absurd ?_ hmoved
    rw [hfather]
    exact if_neg hadopt

theorem Tree.step {managed : Nat → Prop} {s s' : State} {l : Label} (h : Tree s)
    (hs : Sound managed s) (hl : s.next l = some s') :
    Tree s' ∧ ∀ i p, s.tasksPtr i = some p → Bereaves s s' p → FatherTold s' p := by
  -- a task the step does not touch is not bereaved
  have quiet : ∀ {p}, (s'.task p).state = (s.task p).state →
      (s'.task p).father = (s.task p).father → ¬ Bereaves s s' p := by
    intro p hstate hfather hb
    rcases hb with ⟨hz, hz'⟩ | ⟨_, hne⟩
    · exact hz (hstate ▸ hz')
    · exact hne hfather
  cases State.next_cases hl with
  | @fork nr regs _ ret p hp hz hok =>
    have hout := (hs.inv.withCurrent p).copyProcess hp hz regs
    rw [hok] at hout
    cases hout with
    | tableFull pid hfull hpid =>
      obtain ⟨_, hpos, hone⟩ := h.newPid hs hpid
      refine ⟨h.congr rfl (fun _ _ _ => ⟨rfl, rfl, Iff.rfl⟩) h.idle (le_of_lt hpos) fun h1 => ?_,
        fun i q _ hb => absurd hb (quiet rfl rfl)⟩
      have := List.find?_eq_none.mp hfull 1 (mem_userSlots.mpr (by decide))
      simp [h1] at this
    | failed t _ hptr htask _ _ h1 hpid =>
      obtain ⟨_, hpos, _⟩ := h.newPid hs hpid
      have htask' : ∀ i q, s.tasksPtr i = some q → s'.task q = s.task q := htask
      refine ⟨h.congr hptr (fun i q hq => ?_) ?_ (le_of_lt hpos) fun hc => absurd hc h1,
        fun i q hq hb => absurd hb (quiet ?_ ?_)⟩
      · rw [htask' i q hq]
        exact ⟨rfl, rfl, Iff.rfl⟩
      · rw [htask' 0 .task0 hs.inv.slot0, h.idle]
      · rw [htask' i q hq]
      · rw [htask' i q hq]
    | child t j pid q _ hj hnone hfirst hpid hfresh hptr htask hppid hfather hrun hlast =>
      have htask' : ∀ r, r ≠ q → s'.task r = s.task r := htask
      refine ⟨Tree.child (s := { s with toTasks := { s.toTasks with current := p } })
        ⟨h.pids, h.father, h.idle, h.positive, h.init, h.last, h.first⟩
        ⟨hs.inv.withCurrent p, hs.init⟩ hp hz hnone hfirst hpid hfresh hptr htask hppid hfather
        hrun hlast, fun i r hr hb => absurd hb (quiet ?_ ?_)⟩
      · rw [htask' r fun hc => hfresh i (hc ▸ hr)]
      · rw [htask' r fun hc => hfresh i (hc ▸ hr)]
  | @exit nr code _ tr p h2 hp hz hok =>
    have ht : Tree { s with toTasks := { s.toTasks with current := p } } :=
      ⟨h.pids, h.father, h.idle, h.positive, h.init, h.last, h.first⟩
    have hst : Sound managed { s with toTasks := { s.toTasks with current := p } } :=
      ⟨hs.inv.withCurrent p, hs.init⟩
    obtain ⟨s₁, t, tr, _, hex, _, hok', hptr, hlast, htask, htold⟩ := ht.doExit hst hp h2 hz code
    cases hok.symm.trans hok'
    refine ⟨ht.exited hst hp h2 hex hptr hlast htask, fun i q hq hb j r hj hr hrq => ?_⟩
    have hr' : s.tasksPtr j = some r := by rwa [hptr] at hr
    have hrpid : (s'.task r).pid = (s.task r).pid := by
      rw [(htask r).1.pid]
      exact (hex.keeps r).pid
    rw [hrpid, (htask q).2.1] at hrq
    by_cases hqp : q = p
    · rw [hqp] at hrq
      exact htold j r hj hr' hrq
    · refine (ht.told_of_orphan hst hex hqp ?_ hr' hrq).keeps (htask r).1
      exact hb.imp (fun hz => ⟨hz.1, (htask q).2.2.mp hz.2⟩) fun hz =>
        ⟨(htask q).2.2.mp hz.1, (htask q).2.1 ▸ hz.2⟩
  | store hw =>
    exact ⟨⟨h.pids, h.father, h.idle, h.positive, h.init, h.last, h.first⟩,
      fun i q _ hb => absurd hb (quiet rfl rfl)⟩

theorem Boot.tree_of_run {b : Boot} {ls : List Label} {s : State}
    (h : Run (Steps State.next) b.state ls s) : Sound b.Managed s ∧ Tree s :=
  h.invariant (P := fun s => Sound b.Managed s ∧ Tree s) ⟨b.sound, b.tree⟩
    fun _ _ _ hs hl => ⟨hs.1.step hl, (hs.2.step hs.1 hl).1⟩

end Kernel
end CherryOS
