import CherryOS.Kernel.Exit
import CherryOS.Kernel.Pid
import CherryOS.Mm.PageTables

/-!
# Tasks and their address spaces

`KInv` ties the task table to the page allocator.  Each task but `task0` lies in a frame
of its own; a task that lives has its two segments at the base of its window, and exactly
the directory entries its segment limit covers are present there; the window of an empty
slot or a zombie is empty.
-/

namespace CherryOS
namespace Kernel

open Mm Lib

/-- The frame the task of a slot lies in. -/
def Tasks.unionFrame (s : Tasks) (nr : Fin NUMBER_OF_TASKS) : Option Nat :=
  match s.tasksPtr nr with
  | some (.frame addr) => some (addr.toNat / 4096)
  | _ => none

/-- The segments of the task in slot `nr` and its directory entries.  A limit of 16 MB
covers four entries, one of 1 MB covers one. -/
def Window (m : Mem) (nr : Nat) (ldt : Fin 3 → SegDesc) : Prop :=
  ∃ limit n, (limit = 0xFFF ∧ n = 4 ∨ limit = 0xFF ∧ n = 1) ∧
    ldt 1 = userSeg limit 0xFA nr ∧ ldt 2 = userSeg limit 0xF2 nr ∧
    (∀ k < n, m.phys (16 * nr + k) &&& 1 ≠ 0 ∧ (nr ≠ 0 → Table (m.phys (16 * nr + k)))) ∧
    ∀ k, n ≤ k → k < 16 → m.phys (16 * nr + k) = 0

structure KInv (managed : Nat → Prop) (s : State) : Prop where
  mm : MmInv managed s.unionFrame s.mem
  slot0 : s.tasksPtr 0 = some .task0
  idle : (s.task .task0).state ≠ .zombie
  frame : ∀ nr p, nr ≠ 0 → s.tasksPtr nr = some p → ∃ f, f < 4096 ∧ p = .frame (Mem.frameAddr f)
  live : ∀ nr p, s.tasksPtr nr = some p → (s.task p).state ≠ .zombie →
    Window s.mem nr (s.task p).ldt
  empty : ∀ nr, nr ≠ 0 → (∀ p, s.tasksPtr nr = some p → (s.task p).state = .zombie) →
    ∀ k < 16, s.mem.phys (16 * nr.val + k) = 0

namespace Window

variable {m m' : Mem} {nr : Nat} {ldt : Fin 3 → SegDesc}

theorem congr (h : Window m nr ldt) (hw : ∀ k < 16, m'.phys (16 * nr + k) = m.phys (16 * nr + k)) :
    Window m' nr ldt := by
  obtain ⟨limit, n, hl, hc, hd, hpres, hzero⟩ := h
  have hn : n ≤ 16 := by rcases hl with ⟨_, rfl⟩ | ⟨_, rfl⟩ <;> omega
  refine ⟨limit, n, hl, hc, hd, fun k hk => ?_, fun k hk hk' => ?_⟩
  · rw [hw k (by omega)]
    exact hpres k hk
  · rw [hw k hk']
    exact hzero k hk hk'

/-- What the segment functions read off the descriptors of a window. -/
theorem segments (h : Window m nr ldt) (hnr : nr < 64) : ∃ limit n,
    UserLimit limit ∧ n ≤ 4 ∧ ldt 1 = userSeg limit 0xFA nr ∧ ldt 2 = userSeg limit 0xF2 nr ∧
    getSegmentBase (ldt 1) = windowBase nr ∧ getSegmentBase (ldt 2) = windowBase nr ∧
    getSegmentLimit ldt 0x000F = getSegmentLimit ldt 0x0017 ∧
    Mem.nrOfDirEnt (getSegmentLimit ldt 0x0017) = n ∧ (limit = 0xFF → n = 1) ∧
    (limit = 0xFFF → n = 4) ∧
    (∀ k < n, m.phys (16 * nr + k) &&& 1 ≠ 0 ∧ (nr ≠ 0 → Table (m.phys (16 * nr + k)))) ∧
    ∀ k, n ≤ k → k < 16 → m.phys (16 * nr + k) = 0 := by
  obtain ⟨limit, n, hl, hc, hd, hpres, hzero⟩ := h
  have hul : UserLimit limit := by
    rcases hl with ⟨h, _⟩ | ⟨h, _⟩
    · exact Or.inl h
    · exact Or.inr h
  have hcode : getSegmentLimit ldt 0x000F = if limit = 0xFFF then 0xFFFFFF else 0xFFFFF := by
    show segmentLimit (ldt 1) = _
    rw [hc, segmentLimit_userSeg hul (Or.inl rfl) hnr]
  have hdata : getSegmentLimit ldt 0x0017 = if limit = 0xFFF then 0xFFFFFF else 0xFFFFF := by
    show segmentLimit (ldt 2) = _
    rw [hd, segmentLimit_userSeg hul (Or.inr rfl) hnr]
  refine ⟨limit, n, hul, ?_, hc, hd, ?_, ?_, by rw [hcode, hdata], ?_, ?_, ?_, hpres, hzero⟩
  · rcases hl with ⟨_, rfl⟩ | ⟨_, rfl⟩ <;> omega
  · rw [hc, getSegmentBase_userSeg hul (Or.inl rfl) hnr]
  · rw [hd, getSegmentBase_userSeg hul (Or.inr rfl) hnr]
  · rw [hdata]
    rcases hl with ⟨rfl, rfl⟩ | ⟨rfl, rfl⟩ <;> decide
  · intro h
    rcases hl with ⟨rfl, rfl⟩ | ⟨rfl, rfl⟩
    · exact absurd h (by decide)
    · rfl
  · intro h
    rcases hl with ⟨rfl, rfl⟩ | ⟨rfl, rfl⟩
    · rfl
    · exact absurd h (by decide)

end Window

theorem outside_window {u : Fin NUMBER_OF_TASKS → Option Nat} {m m' : Mem} {nr n j : Nat}
    (hon : OnlyIn (InWindow nr n) u m m') (hn : n ≤ 16) (hj : j < 64) (hne : j ≠ nr) :
    ∀ k < 16, m'.phys (16 * j + k) = m.phys (16 * j + k) := by
  intro k hk
  refine hon.dir _ (by omega) ?_
  intro ⟨l, hl, heq⟩
  omega

namespace KInv

variable {managed : Nat → Prop} {s : State}

/-- The tasks of two slots are two records. -/
theorem ptr_inj (h : KInv managed s) {i j : Fin NUMBER_OF_TASKS} {p : TaskPtr}
    (hi : s.tasksPtr i = some p) (hj : s.tasksPtr j = some p) : i = j := by
  have hzero : ∀ k : Fin NUMBER_OF_TASKS, k ≠ 0 → s.tasksPtr k = some p → p ≠ .task0 := by
    intro k hk hp h0
    obtain ⟨f, _, hf⟩ := h.frame k p hk hp
    rw [hf] at h0
    cases h0
  by_cases hi0 : i = 0
  · by_cases hj0 : j = 0
    · rw [hi0, hj0]
    · rw [hi0, h.slot0] at hi
      cases hi
      exact absurd rfl (hzero j hj0 hj)
  · by_cases hj0 : j = 0
    · rw [hj0, h.slot0] at hj
      cases hj
      exact absurd rfl (hzero i hi0 hi)
    · obtain ⟨f, hf, rfl⟩ := h.frame i p hi0 hi
      have hu : ∀ k, s.tasksPtr k = some (.frame (Mem.frameAddr f)) →
          holds s.unionFrame s.mem (.taskUnion k) = some f := by
        intro k hk
        rw [holds_taskUnion, Tasks.unionFrame, hk]
        show some ((Mem.frameAddr f).toNat / 4096) = some f
        rw [Mem.frameAddr_toNat hf, Nat.mul_div_cancel _ (by decide)]
      have hm : managed f := by
        rcases h.mm.named _ _ (hu i hi) with hm | ⟨k, hk⟩
        · exact hm
        · cases hk
      have := h.mm.balanced.alone f _ _ hm (hu i hi) (hu j hj)
      cases this
      rfl

/-- A free frame holds no task. -/
theorem fresh (h : KInv managed s) {f : Nat} (hf : managed f) (hhi : f < 4096)
    (h0 : s.mem.memMap (f - 256) = 0) (nr : Fin NUMBER_OF_TASKS) :
    s.tasksPtr nr ≠ some (.frame (Mem.frameAddr f)) := by
  intro hnr
  have hu : holds s.unionFrame s.mem (.taskUnion nr) = some f := by
    rw [holds_taskUnion, Tasks.unionFrame, hnr]
    show some ((Mem.frameAddr f).toNat / 4096) = some f
    rw [Mem.frameAddr_toNat hhi, Nat.mul_div_cancel _ (by decide)]
  have h1 := h.mm.memMap_of_holds hf hu
  rw [h0] at h1
  exact absurd h1 (by decide)

/-- A step that keeps the frames, the directory and who is a zombie keeps `KInv`. -/
theorem congr {s' : State} (h : KInv managed s) (hmm : MmInv managed s'.unionFrame s'.mem)
    (hptr : s'.tasksPtr = s.tasksPtr) (hdir : ∀ d < 1024, s'.mem.phys d = s.mem.phys d)
    (htask : ∀ nr p, s.tasksPtr nr = some p → (s'.task p).ldt = (s.task p).ldt ∧
      ((s'.task p).state = .zombie ↔ (s.task p).state = .zombie)) : KInv managed s' where
  mm := hmm
  slot0 := by rw [hptr, h.slot0]
  idle := fun hz => h.idle ((htask 0 .task0 h.slot0).2.mp hz)
  frame nr p h0 hp := h.frame nr p h0 (by rwa [hptr] at hp)
  live nr p hp hz := by
    rw [hptr] at hp
    obtain ⟨hldt, hstate⟩ := htask nr p hp
    rw [hldt]
    have hnr : nr.val < 64 := nr.isLt
    exact (h.live nr p hp fun hc => hz (hstate.mpr hc)).congr fun k hk => hdir _ (by omega)
  empty nr h0 hno k hk := by
    have hnr : nr.val < 64 := nr.isLt
    rw [hdir _ (by omega)]
    refine h.empty nr h0 (fun p hp => ?_) k hk
    exact (htask nr p hp).2.mp (hno p (by rwa [hptr]))

theorem schedule (h : KInv managed s) : KInv managed s.schedule.1 := by
  have hptr : s.schedule.1.tasksPtr = s.tasksPtr := Tasks.schedule_tasksPtr s.toTasks
  refine h.congr ?_ hptr (fun _ _ => rfl) fun nr p _ => ?_
  · have hu : s.schedule.1.unionFrame = s.unionFrame := by
      funext nr
      rw [Tasks.unionFrame, hptr, Tasks.unionFrame]
    rw [hu]
    exact h.mm
  · obtain ⟨hk, _, hz⟩ := Tasks.schedule_task s.toTasks p
    exact ⟨hk.ldt, hz⟩

end KInv

end Kernel
end CherryOS
