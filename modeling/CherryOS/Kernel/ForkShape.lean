import CherryOS.Kernel.Exit
import CherryOS.Mm.Copying

/-!
# What fork and exit write

Whatever the memory looks like, a call of `copy_process` that returns has written one task
record, at most one slot of the table and at most the two descriptors of that slot, and a
call of `do_exit` that ends has written no descriptor and filled no slot.
-/

namespace CherryOS
namespace Kernel

open Mm

/-- One record may differ, and of it only the segments. -/
structure SegmentsOnly (p : TaskPtr) (s s' : State) : Prop where
  current : s'.current = s.current
  tasksPtr : s'.tasksPtr = s.tasksPtr
  gdt : s'.gdt = s.gdt
  img : s'.img = s.img
  task : ∀ q, q ≠ p → s'.task q = s.task q
  self : ∃ ldt, s'.task p = { s.task p with ldt := ldt }

theorem SegmentsOnly.of_ldt (p : TaskPtr) (s : State) (ldt : Fin 3 → SegDesc) (mem : Mem) :
    SegmentsOnly p s { s.setTask p { s.task p with ldt := ldt } with mem := mem } := by
  refine ⟨rfl, rfl, rfl, rfl, fun q hq => ?_, ldt, ?_⟩
  · exact (Tasks.setTask_task _ _ _ _).trans (if_neg hq)
  · exact (Tasks.setTask_task _ _ _ _).trans (if_pos rfl)

namespace State

/-- The segment limit that `copy_mem` hands to `copy_page_tables`. -/
def dataLimit (s : State) : U32 := getSegmentLimit (s.task s.current).ldt 0x0017

theorem copyMem_shape {nr : Fin NUMBER_OF_TASKS} {p : TaskPtr} {s s' : State} {ret : Int32}
    (h : s.copyMem nr p = .ok (s', ret)) : SegmentsOnly p s s' := by
  unfold copyMem at h
  dsimp only at h
  split at h
  · cases h
  · split at h
    · cases h
    · split at h
      · obtain ⟨m, _, hm⟩ := bind_eq_ok h
        cases hm
        exact SegmentsOnly.of_ldt _ _ _ _
      · obtain ⟨⟨m, r⟩, _, hm⟩ := bind_eq_ok h
        dsimp only at hm
        split at hm
        · obtain ⟨m', _, hm'⟩ := bind_eq_ok hm
          cases hm'
          exact SegmentsOnly.of_ldt _ _ _ _
        · cases hm
          exact SegmentsOnly.of_ldt _ _ _ _

/-- `copy_mem` fails only when the frames run out. -/
theorem copyMem_full {nr : Fin NUMBER_OF_TASKS} {p : TaskPtr} {s s' : State} {ret : Int32}
    (h : s.copyMem nr p = .ok (s', ret)) (hret : ret ≠ 0) :
    s.mem.freeFrames.card < 1025 * Mem.nrOfDirEnt s.dataLimit := by
  unfold copyMem at h
  dsimp only at h
  split at h
  · cases h
  · split at h
    · cases h
    · split at h
      · obtain ⟨m, _, hm⟩ := bind_eq_ok h
        cases hm
        exact absurd rfl hret
      · obtain ⟨⟨m, r⟩, hcopy, hm⟩ := bind_eq_ok h
        dsimp only at hm
        split at hm
        · rename_i hr
          unfold Mem.copyPageTables at hcopy
          split at hcopy
          · cases hcopy
          · have hfree := Mem.copyDirEnts_free hcopy hr
            rwa [List.length_range] at hfree
        · cases hm
          exact absurd rfl hret

end State

/-- The record `t` of a child has the signal set-up of its parent. -/
structure Inherits (cur t : TaskStruct) : Prop where
  sa : t.sa = cur.sa
  blocked : t.blocked = cur.blocked

/-- The ways in which a call of `copy_process` returns. -/
inductive ForkShape (s s' : State) : Prop
  | refused (htask : s'.task = s.task) (hptr : s'.tasksPtr = s.tasksPtr)
      (hgdt : s'.gdt = s.gdt) (hslot : s.findEmptySlot = none)
  | dropped (page : U32) (htask : ∀ q, q ≠ .frame page → s'.task q = s.task q)
      (hself : Inherits (s.task s.current) (s'.task (.frame page)))
      (hptr : s'.tasksPtr = s.tasksPtr) (hgdt : s'.gdt = s.gdt)
      (hfull : s.mem.freeFrames.card ≤ 1025 * Mem.nrOfDirEnt s.dataLimit)
  | child (nr : Fin NUMBER_OF_TASKS) (page : U32) (hnr : s.tasksPtr nr = none) (hnr0 : nr ≠ 0)
      (htask : ∀ q, q ≠ .frame page → s'.task q = s.task q)
      (hself : Inherits (s.task s.current) (s'.task (.frame page)))
      (hptr : s'.tasksPtr = Function.update s.tasksPtr nr (some (.frame page)))
      (hgdt : s'.gdt = setLdtDesc
        (setTssDesc s.gdt (FIRST_TSS_DESC_INDEX + nr * 2) (page + BitVec.ofNat 32 TSS_OFFSET) DPL_0)
        (FIRST_LDT_DESC_INDEX + nr * 2) (page + BitVec.ofNat 32 LDT_OFFSET) DPL_0)
      (hslot : s.findEmptySlot = some nr)

namespace State

theorem beginChild_task (regs : ForkRegs) (nr : Fin NUMBER_OF_TASKS) (page : U32) (s : State)
    (q : TaskPtr) :
    (beginChild regs nr page s).task q =
      if q = .frame page then childTask nr page regs s.lastPid (s.task s.current)
      else s.task q :=
  Tasks.setTask_task _ _ _ _

theorem finishChild_task (nr : Fin NUMBER_OF_TASKS) (page : U32) (s : State) (q : TaskPtr) :
    (finishChild nr page s).task q =
      if q = .frame page then { s.task (.frame page) with state := .running } else s.task q :=
  Tasks.setTask_task _ _ _ _

/-- The record of the child once `copy_mem` is over. -/
theorem inherits_of_copyMem {regs : ForkRegs} {nr : Fin NUMBER_OF_TASKS} {page : U32}
    {s s' : State} (h : SegmentsOnly (.frame page) (beginChild regs nr page s) s') :
    (∀ q, q ≠ .frame page → s'.task q = s.task q) ∧
      Inherits (s.task s.current) (s'.task (.frame page)) := by
  refine ⟨fun q hq => ?_, ?_⟩
  · rw [h.task q hq, beginChild_task, if_neg hq]
  · obtain ⟨ldt, hldt⟩ := h.self
    rw [hldt, beginChild_task, if_pos rfl]
    exact ⟨rfl, rfl⟩

theorem beginChild_dataLimit (regs : ForkRegs) (nr : Fin NUMBER_OF_TASKS) (page : U32)
    (s : State) : (beginChild regs nr page s).dataLimit = s.dataLimit := by
  have hcur : (beginChild regs nr page s).current = s.current := rfl
  rw [dataLimit, hcur, beginChild_task, dataLimit]
  split <;> rfl

theorem update_none_eq {s : State} {nr : Fin NUMBER_OF_TASKS} (h : s.tasksPtr nr = none)
    (p : Option TaskPtr) :
    Function.update (Function.update s.tasksPtr nr p) nr none = s.tasksPtr := by
  rw [Function.update_idem, ← h, Function.update_eq_self]

/-- The steps of a call of `copy_process` that returns. -/
inductive ForkPath (regs : ForkRegs) (s s' : State) (ret : Int32) : Prop
  | full (pid : Int32) (hslot : s.findEmptySlot = none) (hs : s' = { s with lastPid := pid })
      (hret : ret = -EAGAIN)
  | dropped (pid : Int32) (nr : Fin NUMBER_OF_TASKS) (page : U32) (mem : Mem) (t : State) (r : Int32)
      (hslot : s.findEmptySlot = some nr) (hpage : s.mem.getFreePage = some (page, mem))
      (hcopy : (beginChild regs nr page { s with lastPid := pid, mem := mem }).copyMem nr
        (.frame page) = .ok (t, r))
      (hr : r ≠ 0) (hdrop : t.dropChild nr page = .ok s') (hret : ret = -EAGAIN)
  | child (pid : Int32) (nr : Fin NUMBER_OF_TASKS) (page : U32) (mem : Mem) (t : State)
      (hslot : s.findEmptySlot = some nr) (hpage : s.mem.getFreePage = some (page, mem))
      (hcopy : (beginChild regs nr page { s with lastPid := pid, mem := mem }).copyMem nr
        (.frame page) = .ok (t, 0))
      (hs : s' = t.finishChild nr page) (hret : ret = s'.lastPid)

theorem copyProcess_path {regs : ForkRegs} {s s' : State} {ret : Int32}
    (h : s.copyProcess regs = .ok (s', ret)) : ForkPath regs s s' ret := by
  obtain ⟨⟨s₁, slot⟩, hfind, h⟩ := bind_eq_ok h
  obtain ⟨pid, rfl, hslot⟩ : ∃ pid, s₁ = { s with lastPid := pid } ∧ slot = s.findEmptySlot := by
    unfold findEmptyProcess at hfind
    split at hfind
    · cases hfind
    · rename_i pid _
      cases hfind
      exact ⟨pid, rfl, rfl⟩
  cases slot with
  | none =>
    cases h
    exact .full pid hslot.symm rfl rfl
  | some nr =>
    dsimp only at h
    split at h
    · cases h
    · rename_i page mem hpage
      obtain ⟨⟨t, r⟩, hcopy, h⟩ := bind_eq_ok h
      dsimp only at h
      split at h
      · rename_i hr
        obtain ⟨s₃, hdrop, h⟩ := bind_eq_ok h
        cases h
        exact .dropped pid nr page mem t r hslot.symm hpage hcopy hr hdrop rfl
      · rename_i hr
        cases h
        rw [not_not.mp hr] at hcopy
        exact .child pid nr page mem t hslot.symm hpage hcopy rfl rfl

theorem slot_of_findEmptySlot {s : State} {nr : Fin NUMBER_OF_TASKS}
    (h : s.findEmptySlot = some nr) : s.tasksPtr nr = none ∧ nr ≠ 0 :=
  ⟨by simpa using List.find?_some h, Tasks.mem_userSlots.mp (List.mem_of_find?_eq_some h)⟩

/-- A child that is dropped leaves the table as it was. -/
theorem dropChild_spec {nr : Fin NUMBER_OF_TASKS} {page : U32} {s t s' : State}
    (hnr : s.tasksPtr nr = none)
    (ht : t.tasksPtr = Function.update s.tasksPtr nr (some (.frame page)))
    (h : t.dropChild nr page = .ok s') :
    ∃ m, t.mem.freePage page = .ok m ∧ s' = { t.setSlot nr none with mem := m } ∧
      s'.tasksPtr = s.tasksPtr := by
  obtain ⟨m, hfree, hm⟩ := bind_eq_ok h
  cases hm
  refine ⟨m, hfree, rfl, ?_⟩
  show Function.update t.tasksPtr nr none = s.tasksPtr
  rw [ht, update_none_eq hnr]

theorem copyProcess_shape {regs : ForkRegs} {s s' : State} {ret : Int32}
    (h : s.copyProcess regs = .ok (s', ret)) : ForkShape s s' ∧ s'.img = s.img := by
  cases copyProcess_path h with
  | full pid hslot hs _ =>
    rw [hs]
    exact ⟨.refused rfl rfl rfl hslot, rfl⟩
  | dropped pid nr page mem t r hslot hpage hcopy hr hdrop _ =>
    have hseg := copyMem_shape hcopy
    obtain ⟨hother, hself⟩ := inherits_of_copyMem hseg
    obtain ⟨m, -, hs, hptr⟩ := dropChild_spec (slot_of_findEmptySlot hslot).1 hseg.tasksPtr hdrop
    rw [hs] at hptr ⊢
    refine ⟨.dropped page hother hself hptr hseg.gdt ?_, hseg.img⟩
    have hfull := copyMem_full hcopy hr
    rw [beginChild_dataLimit] at hfull
    obtain ⟨f, hlo, hhi, h0, _, rfl⟩ := Mem.getFreePage_some hpage
    have hone := Mem.freeFrames_taken hlo hhi h0
    have hfull : (s.mem.taken f).freeFrames.card < 1025 * Mem.nrOfDirEnt s.dataLimit := hfull
    omega
  | child pid nr page mem t hslot hpage hcopy hs _ =>
    have hseg := copyMem_shape hcopy
    obtain ⟨hother, hself⟩ := inherits_of_copyMem hseg
    obtain ⟨hnr, hnr0⟩ := slot_of_findEmptySlot hslot
    rw [hs]
    refine ⟨.child nr page hnr hnr0 (fun q hq => ?_) ?_ hseg.tasksPtr ?_ hslot, hseg.img⟩
    · rw [finishChild_task, if_neg hq]
      exact hother q hq
    · rw [finishChild_task, if_pos rfl]
      exact ⟨hself.sa, hself.blocked⟩
    · rw [finishChild, ← show t.gdt = s.gdt from hseg.gdt]
      rfl

end State

/-! ## exit -/

/-- Every record keeps its signal set-up. -/
def SameSignals (s s' : Tasks) : Prop := ∀ q, Inherits (s.task q) (s'.task q)

namespace SameSignals

theorem refl (s : Tasks) : SameSignals s s := fun _ => ⟨rfl, rfl⟩

theorem trans {s t u : Tasks} (h : SameSignals s t) (h' : SameSignals t u) : SameSignals s u :=
  fun q => ⟨(h' q).sa.trans (h q).sa, (h' q).blocked.trans (h q).blocked⟩

theorem setTask {s : Tasks} {p : TaskPtr} {t : TaskStruct} (h : Inherits (s.task p) t) :
    SameSignals s (s.setTask p t) :=
  Tasks.setTask_related (fun _ => ⟨rfl, rfl⟩) h

theorem foldl {f : Tasks → Fin NUMBER_OF_TASKS → Tasks} (hf : ∀ s i, SameSignals s (f s i))
    (l : List (Fin NUMBER_OF_TASKS)) (s : Tasks) : SameSignals s (l.foldl f s) := by
  induction l generalizing s with
  | nil => exact refl s
  | cons i l ih => exact (hf s i).trans (ih (f s i))

theorem adoptSlot (s : Tasks) (i : Fin NUMBER_OF_TASKS) : SameSignals s (s.adoptSlot i) := by
  unfold Tasks.adoptSlot
  split
  · exact refl s
  · rename_i p _
    dsimp only
    have hfather : SameSignals s (s.setTask p { s.task p with father := 1 }) :=
      setTask ⟨rfl, rfl⟩
    split
    · split
      · refine hfather.trans ?_
        rw [Tasks.sendSig_child]
        split
        · exact refl _
        · exact setTask ⟨rfl, rfl⟩
      · exact hfather
    · exact refl s

theorem hangUpSlot (s : Tasks) (i : Fin NUMBER_OF_TASKS) : SameSignals s (s.hangUpSlot i) := by
  unfold Tasks.hangUpSlot
  split
  · exact refl s
  · split
    · exact setTask ⟨rfl, rfl⟩
    · exact refl s

theorem becomeZombie (code : Int32) (s : Tasks) : SameSignals s (s.becomeZombie code) := by
  have hadopt : SameSignals s s.adoptChildren := foldl adoptSlot _ s
  unfold Tasks.becomeZombie
  dsimp only
  refine SameSignals.trans ?_ (setTask ⟨rfl, rfl⟩)
  split
  · exact hadopt.trans (foldl hangUpSlot _ _)
  · exact hadopt

theorem checkAll (s : Tasks) : SameSignals s s.checkAll := by
  intro q
  rw [Tasks.checkAll_task]
  split
  · unfold Tasks.checkSignals Tasks.wakeForSignal Tasks.raiseAlarm
    split <;> split <;> exact ⟨rfl, rfl⟩
  · exact ⟨rfl, rfl⟩

theorem schedule (s : Tasks) : SameSignals s s.schedule.1 := by
  unfold Tasks.schedule
  dsimp only
  split
  · refine (checkAll s).trans fun q => ?_
    obtain ⟨ts, hts⟩ := Tasks.refill_task s.checkAll q
    rw [hts]
    exact ⟨rfl, rfl⟩
  · split
    · split
      · exact checkAll s
      · exact checkAll s
    · exact checkAll s

end SameSignals

/-- No slot is filled and no descriptor written. -/
structure ExitShape (s s' : State) : Prop where
  signals : SameSignals s.toTasks s'.toTasks
  gdt : s'.gdt = s.gdt
  img : s'.img = s.img
  slots : ∀ i p, s'.tasksPtr i = some p → s.tasksPtr i = some p

namespace ExitShape

theorem trans {s t u : State} (h : ExitShape s t) (h' : ExitShape t u) : ExitShape s u :=
  ⟨h.signals.trans h'.signals, h'.gdt.trans h.gdt, h'.img.trans h.img,
    fun i p hp => h.slots i p (h'.slots i p hp)⟩

theorem refl (s : State) : ExitShape s s :=
  ⟨SameSignals.refl _, rfl, rfl, fun _ _ hp => hp⟩

theorem schedule (s : State) : ExitShape s s.schedule.1 := by
  refine ⟨SameSignals.schedule s.toTasks, rfl, rfl, fun i p hp => ?_⟩
  have hptr : s.schedule.1.tasksPtr = s.tasksPtr := Tasks.schedule_tasksPtr s.toTasks
  rwa [hptr] at hp

theorem release {p : TaskPtr} {s s' : State} {tr : Transfer} (h : s.release p = .ok (s', tr)) :
    ExitShape s s' := by
  unfold State.release at h
  split at h
  · cases h
  · rename_i i _
    obtain ⟨m, _, hm⟩ := bind_eq_ok h
    have hs' : s' = ({ s.setSlot i none with mem := m } : State).schedule.1 :=
      (congrArg Prod.fst (Except.ok.inj hm)).symm
    have hslot : ExitShape s ({ s.setSlot i none with mem := m } : State) := by
      refine ⟨SameSignals.refl _, rfl, rfl, fun k q hq => ?_⟩
      have hq : (s.toTasks.setSlot i none).tasksPtr k = some q := hq
      rw [Tasks.setSlot_tasksPtr] at hq
      split at hq
      · cases hq
      · exact hq
    rw [hs']
    exact hslot.trans (schedule _)

theorem tellFather {pid : Int32} {s s' : State} {tr : Transfer}
    (h : s.tellFather pid = .ok (s', tr)) : ExitShape s s' := by
  unfold State.tellFather at h
  split at h
  · cases h
    exact refl s
  · split at h
    · rename_i p _
      have hs' : s' = s.setTask p { s.task p with signal := (s.task p).signal ||| sigBit SIGCHLD } :=
        (congrArg Prod.fst (Except.ok.inj h)).symm
      rw [hs']
      exact ⟨SameSignals.setTask ⟨rfl, rfl⟩, rfl, rfl, fun _ _ hp => hp⟩
    · exact release h

theorem doExit {code : Int32} {s s' : State} {tr : Transfer} (h : s.doExit code = .ok (s', tr)) :
    ExitShape s s' := by
  obtain ⟨s₁, hbegin, h⟩ := bind_eq_ok h
  obtain ⟨⟨s₂, tr₂⟩, htell, h⟩ := bind_eq_ok h
  obtain ⟨m, _, hm⟩ := bind_eq_ok hbegin
  have hs₁ : s₁ = { s with toTasks := s.toTasks.becomeZombie code, mem := m } :=
    (Except.ok.inj hm).symm
  have h₁ : ExitShape s s₁ := by
    rw [hs₁]
    refine ⟨SameSignals.becomeZombie code s.toTasks, rfl, rfl, fun i p hp => ?_⟩
    have hptr := (Tasks.becomeZombie_spec code s.toTasks).tasksPtr
    rwa [← hptr]
  have h₂ := h₁.trans (tellFather htell)
  cases tr₂ with
  | switchTo nr =>
    cases h
    exact h₂
  | back =>
    have hs' : s' = s₂.schedule.1 := (congrArg Prod.fst (Except.ok.inj h)).symm
    rw [hs']
    exact h₂.trans (schedule s₂)

end ExitShape

/-! ## A call of `schedule()` that returns to its caller -/

theorem Tasks.schedule_back {s : Tasks} (h : s.schedule.2 = .back) :
    s.schedule.1.current = s.current := by
  unfold Tasks.schedule at h ⊢
  dsimp only at h ⊢
  split at h
  · rw [Tasks.refill_current, Tasks.checkAll_current]
  · split at h
    · split at h
      · cases h
      · rename_i hcur
        rw [if_neg hcur, Tasks.checkAll_current]
    · exact Tasks.checkAll_current s

theorem State.tellFather_back {pid : Int32} {s s' : State} (h : s.tellFather pid = .ok (s', .back)) :
    s'.current = s.current := by
  unfold State.tellFather at h
  split at h
  · cases h
    rfl
  · split at h
    · rename_i p _
      exact congrArg (fun r : State × Transfer => r.1.current) (Except.ok.inj h).symm
    · unfold State.release at h
      split at h
      · cases h
      · obtain ⟨m, _, hm⟩ := bind_eq_ok h
        have hm := Except.ok.inj hm
        have hback := Tasks.schedule_back (congrArg Prod.snd hm)
        rw [show s' = _ from (congrArg Prod.fst hm).symm]
        exact hback

theorem State.doExit_back {code : Int32} {s s' : State} (h : s.doExit code = .ok (s', .back)) :
    s'.current = s.current := by
  obtain ⟨s₁, hbegin, h⟩ := bind_eq_ok h
  obtain ⟨⟨s₂, tr⟩, htell, h⟩ := bind_eq_ok h
  obtain ⟨m, _, hm⟩ := bind_eq_ok hbegin
  have h₁ : s₁.current = s.current := by
    rw [← (Except.ok.inj hm)]
    exact (Tasks.becomeZombie_spec code s.toTasks).current
  cases tr with
  | switchTo nr => cases h
  | back =>
    have hm := Except.ok.inj h
    have hback := Tasks.schedule_back (congrArg Prod.snd hm)
    rw [show s' = _ from (congrArg Prod.fst hm).symm]
    exact (hback.trans (State.tellFather_back htell)).trans h₁

end Kernel
end CherryOS
