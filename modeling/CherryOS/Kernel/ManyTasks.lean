import CherryOS.Kernel.ForkMemory
import CherryOS.Kernel.ProcessTree

/-!
# A run with many tasks

`sched_init` belongs to the boot; it changes nothing that the earlier modules speak of but
the descriptor table.

A machine with 12 MB under management has room for a few tasks only at a time.  But a
zombie keeps its slot and gives its memory back, so task 1 can fork again and again as long
as each child exits: `Stage` says how far this has come.

The last section says what holds in every run of forks and exits: who owns a frame, and who is
whose father.
-/

namespace CherryOS
namespace Kernel

open Mm Lib

namespace State

/-- `sched_init()`, as far as memory goes. -/
def schedInit (s : State) : State :=
  let gdt := setTssDesc s.gdt FIRST_TSS_DESC_INDEX (s.img.task0 + BitVec.ofNat 32 TSS_OFFSET) DPL_0
  let gdt := setLdtDesc gdt FIRST_LDT_DESC_INDEX (s.img.task0 + BitVec.ofNat 32 LDT_OFFSET) DPL_0
  { s with
    tasksPtr := fun i => if i = 0 then s.tasksPtr i else none
    gdt := fun i => if FIRST_TSS_DESC_INDEX + 2 ≤ i ∧ i < (NUMBER_OF_TASKS - 1) * 2 then ⟨0, 0⟩
      else gdt i }

end State

/-- The descriptor table apart, `sched_init` finds the table of tasks as it wants it. -/
theorem Boot.schedInit_state (b : Boot) :
    b.state.schedInit = { b with gdt := b.state.schedInit.gdt : Boot }.state := by
  have hptr : (fun i => if i = 0 then b.state.tasksPtr i else none) = b.state.tasksPtr := by
    funext i
    by_cases hi : i = 0
    · rw [if_pos hi]
    · rw [if_neg hi]
      exact (if_neg hi).symm
  unfold State.schedInit
  rw [hptr]
  rfl

/-! ## The first vacant slot -/

theorem userSlots_sorted : Tasks.userSlots.Pairwise (· < ·) := by
  unfold Tasks.userSlots
  exact (List.pairwise_lt_finRange _).filter _

/-- Of an ascending list `find?` skips only what fails the test. -/
theorem not_of_find?_eq_some {α : Type} [Preorder α] {l : List α} (hl : l.Pairwise (· < ·))
    {P : α → Bool} {a b : α} (h : l.find? P = some a) (hb : b ∈ l) (hba : b < a) :
    P b = false := by
  induction l with
  | nil => cases h
  | cons x l ih =>
    obtain ⟨hx, hl'⟩ := List.pairwise_cons.mp hl
    rw [List.find?_cons] at h
    cases hP : P x with
    | true =>
      rw [hP] at h
      cases h
      rcases List.mem_cons.mp hb with rfl | hb
      · exact absurd hba (lt_irrefl b)
      · exact absurd (lt_trans hba (hx b hb)) (lt_irrefl b)
    | false =>
      rw [hP] at h
      rcases List.mem_cons.mp hb with rfl | hb
      · exact hP
      · exact ih hl' h hb

theorem findEmptySlot_first {s : Tasks} {nr j : Fin NUMBER_OF_TASKS}
    (h : s.findEmptySlot = some nr) (hj : j ≠ 0) (hlt : j < nr) : s.tasksPtr j ≠ none := by
  have := not_of_find?_eq_some userSlots_sorted h (Tasks.mem_userSlots.mpr hj) hlt
  simpa using this

namespace Tasks

/-- The slot that `find_empty_process` returns: the first after slot 0 that is vacant. -/
def FirstVacant (s : Tasks) (nr : Fin NUMBER_OF_TASKS) : Prop :=
  nr ≠ 0 ∧ s.tasksPtr nr = none ∧ ∀ j, j ≠ 0 → j < nr → s.tasksPtr j ≠ none

theorem findEmptySlot_eq_none {s : Tasks} :
    s.findEmptySlot = none ↔ ∀ j, j ≠ 0 → s.tasksPtr j ≠ none := by
  rw [findEmptySlot, List.find?_eq_none]
  constructor
  · intro h j hj hnone
    exact h j (mem_userSlots.mpr hj) (by rw [hnone]; rfl)
  · intro h j hj hnone
    exact h j (mem_userSlots.mp hj) (by simpa using hnone)

theorem findEmptySlot_eq_some {s : Tasks} {nr : Fin NUMBER_OF_TASKS} :
    s.findEmptySlot = some nr ↔ s.FirstVacant nr := by
  constructor
  · intro h
    obtain ⟨hnr, hnone, _⟩ := findEmptySlot_spec h
    exact ⟨hnr, hnone, fun j hj hlt => findEmptySlot_first h hj hlt⟩
  · intro ⟨hnr, hnone, hbefore⟩
    cases hfound : s.findEmptySlot with
    | none => exact absurd hnone (findEmptySlot_eq_none.mp hfound nr hnr)
    | some i =>
      obtain ⟨hi, hinone, _⟩ := findEmptySlot_spec hfound
      rcases lt_trichotomy i nr with hlt | heq | hgt
      · exact absurd hinone (hbefore i hi hlt)
      · rw [heq]
      · exact absurd hnone (findEmptySlot_first hfound hnr hgt)

end Tasks

/-! ## Free frames -/

/-- When the page tables are those of task 1 and of the directory entries in `D`: of the 3072
frames there is one for each slot, one for each table, and those that the entries of `D` map.
The table of task 1 maps none of them. -/
theorem freeFrames_ge {s : State} (hs : Sound bootOf16MB.Managed s) (hfirst : FirstWindows s)
    (D : Finset Nat) (htable : ∀ d < 1024, Table (s.mem.phys d) → d = 16 ∨ d ∈ D) :
    3007 ≤ s.mem.freeFrames.card + 1025 * D.card := by
  classical
  have hmanaged : ∀ f, 1024 ≤ f → f < 4096 → bootOf16MB.Managed f := by
    intro f hlo hhi
    have h1 : mapIndex bootOf16MB.startMem = 768 := by decide
    have h2 : mapIndex bootOf16MB.endMem = 3840 := by decide
    exact ⟨by omega, hhi, by omega, by omega⟩
  obtain ⟨owners, howners⟩ : ∃ owners : Finset Owner, owners =
    Finset.univ.image Owner.taskUnion ∪ (insert 16 D).image Owner.dirEntry ∪
      (D ×ˢ Finset.range 1024).image fun e => Owner.tabEntry e.1 e.2 := ⟨_, rfl⟩
  have hcard : owners.card ≤ 65 + 1025 * D.card := by
    rw [howners]
    refine (Finset.card_union_le _ _).trans ?_
    have h1 := Finset.card_union_le (Finset.univ.image Owner.taskUnion)
      ((insert 16 D).image Owner.dirEntry)
    have h2 : (Finset.univ.image Owner.taskUnion).card ≤ 64 :=
      Finset.card_image_le.trans_eq (Finset.card_fin NUMBER_OF_TASKS)
    have h3 : ((insert 16 D).image Owner.dirEntry).card ≤ D.card + 1 :=
      Finset.card_image_le.trans (Finset.card_insert_le 16 D)
    have h4 : ((D ×ˢ Finset.range 1024).image fun e => Owner.tabEntry e.1 e.2).card ≤
        D.card * 1024 := by
      refine Finset.card_image_le.trans_eq ?_
      rw [Finset.card_product, Finset.card_range]
    omega
  have hmem : ∀ o f, holds s.unionFrame s.mem o = some f → 1024 ≤ f → o ∈ owners := by
    intro o f ho hf
    rw [howners]
    cases o with
    | taskUnion nr => simp
    | dirEntry d =>
      by_cases hd : d < 1024
      · by_cases ht : Table (s.mem.phys d)
        · simpa using htable d hd ht
        · rw [holds_dirEntry_none ht] at ho
          cases ho
      · rw [holds_beyond rfl hd] at ho
        cases ho
    | tabEntry d j =>
      by_cases hd : d < 1024
      · by_cases ht : Table (s.mem.phys d)
        · rcases htable d hd ht with rfl | hD
          · have := hfirst.low j f ho
            omega
          · have hj : j < 1024 := by
              by_contra hj
              rw [holds, if_neg fun hc => hj hc.2.1] at ho
              cases ho
            simp [hD, hj]
        · rw [holds_tabEntry_no_table ht] at ho
          cases ho
      · rw [holds_beyond rfl hd] at ho
        cases ho
  -- each frame is free, or it is the frame of one of these owners
  have hcover : Finset.Ico 1024 4096 ⊆ s.mem.freeFrames.image (· + 256) ∪
      owners.image fun o => (holds s.unionFrame s.mem o).getD 0 := by
    intro f hf
    obtain ⟨hlo, hhi⟩ := Finset.mem_Ico.mp hf
    rcases hs.inv.mm.balanced.ownership (hmanaged f hlo hhi) with ⟨h0, _⟩ | ⟨_, o, ho, _⟩
    · refine Finset.mem_union_left _ (Finset.mem_image.mpr ⟨f - 256, ?_, by omega⟩)
      exact Finset.mem_filter.mpr ⟨Finset.mem_range.mpr (by omega), BitVec.eq_of_toNat_eq h0⟩
    · refine Finset.mem_union_right _ (Finset.mem_image.mpr ⟨o, hmem o f ho hlo, ?_⟩)
      rw [ho]
      rfl
  have hle := (Finset.card_le_card hcover).trans (Finset.card_union_le _ _)
  have hfree : (s.mem.freeFrames.image (· + 256)).card ≤ s.mem.freeFrames.card :=
    Finset.card_image_le
  have howned : (owners.image fun o => (holds s.unionFrame s.mem o).getD 0).card ≤ owners.card :=
    Finset.card_image_le
  rw [Nat.card_Ico] at hle
  omega

/-! ## A fork that succeeds -/

/-- A fork makes a child when there is a slot, and frames enough for the child and the copy of
the caller's window. -/
theorem Sound.forks {managed : Nat → Prop} {s : State} (hs : Sound managed s)
    {i nr : Fin NUMBER_OF_TASKS} {p : TaskPtr} (hp : s.tasksPtr i = some p)
    (hlive : (s.task p).state ≠ .zombie) (hinit : s.tasksPtr 1 ≠ none)
    (hslot : s.findEmptySlot = some nr)
    (hroom : 1025 * Mem.nrOfDirEnt (getSegmentLimit (s.task p).ldt 0x0017) <
      s.mem.freeFrames.card) (regs : ForkRegs) :
    ∃ s' q, s.next (.fork i regs) = some s' ∧
      s'.tasksPtr = Function.update s.tasksPtr nr (some q) ∧ (∀ j, s.tasksPtr j ≠ some q) ∧
      (∀ r, r ≠ q → s'.task r = s.task r) ∧ (s'.task q).state = .running := by
  obtain ⟨-, hvacant, -⟩ := findEmptySlot_spec hslot
  obtain ⟨t, ht⟩ : ∃ t, t = ({ s with toTasks := { s.toTasks with current := p } } : State) :=
    ⟨_, rfl⟩
  have honcpu : s.onCpu i = some t := ht ▸ State.onCpu_of hp hlive
  have hinv : KInv managed t := ht ▸ hs.inv.withCurrent p
  have hout := hinv.copyProcess (i := i) (by rw [ht]; exact hp) (by rw [ht]; exact hlive) regs
  have htslot : t.findEmptySlot = some nr := by
    rw [ht]
    exact hslot
  have htroom : 1025 * Mem.nrOfDirEnt t.dataLimit < t.mem.freeFrames.card := by
    rw [ht]
    exact hroom
  have hshape : ∀ {s' ret}, t.copyProcess regs = .ok (s', ret) →
      ∃ page, s'.tasksPtr = Function.update s.tasksPtr nr (some (.frame page)) := by
    intro s' ret hok
    cases (State.copyProcess_shape hok).1 with
    | refused _ _ _ hnone =>
      rw [htslot] at hnone
      cases hnone
    | dropped _ _ _ _ _ hfull => omega
    | child nr' page _ _ _ _ hptr _ hslot' =>
      rw [htslot] at hslot'
      cases hslot'
      exact ⟨page, by rw [hptr, ht]⟩
  generalize hres : t.copyProcess regs = r at hout
  have hnext : s.next (.fork i regs) = State.result r := by
    rw [State.next, honcpu, Option.bind_some, hres]
  cases hout with
  | tableFull _ hnone _ =>
    rw [htslot] at hnone
    cases hnone
  | noUnion hnone =>
    rw [Mem.freeFrames_of_getFreePage_none hnone, Finset.card_empty] at htroom
    omega
  | noInit hnone =>
    rw [ht] at hnone
    exact absurd hnone hinit
  | failed s' _ hptr _ _ _ _ _ =>
    obtain ⟨page, hpage⟩ := hshape hres
    have hself : s'.tasksPtr nr = some (.frame page) := by rw [hpage, Function.update_self]
    rw [hptr, ht, show s.tasksPtr nr = none from hvacant] at hself
    cases hself
  | child s' nr' pid q hk' _ hnone' _ _ hfresh hptr htask _ _ hrun _ =>
    have hnr' : nr' = nr := by
      obtain ⟨page, hpage⟩ := hshape hres
      by_contra hne
      have hself : s'.tasksPtr nr' = some q := by rw [hptr, Function.update_self]
      rw [hpage, Function.update_of_ne hne] at hself
      rw [ht, show s.tasksPtr nr' = some q from hself] at hnone'
      cases hnone'
    rw [ht] at hfresh hptr htask
    rw [hnr'] at hptr
    exact ⟨s', q, hnext, hptr, hfresh, htask, hrun⟩

/-! ## Stages -/

/-- Slots 0 and 1 hold the first two tasks, those below `k` hold zombies, and the rest is
free. -/
structure Stage (k : Nat) (s : State) : Prop where
  sound : Sound bootOf16MB.Managed s
  tree : Tree s
  first : FirstWindows s
  init : ∃ p, s.tasksPtr 1 = some p ∧ (s.task p).ldt 2 = userSeg 0xFF 0xF2 1
  ended : ∀ j p, 2 ≤ j.val → s.tasksPtr j = some p → (s.task p).state = .zombie
  taken : ∀ j, j.val < k → s.tasksPtr j ≠ none
  vacant : ∀ j, k ≤ j.val → s.tasksPtr j = none

/-- As `Stage k`, and a child of task 1 has slot `k`. -/
structure Grown (k : Nat) (s : State) : Prop where
  sound : Sound bootOf16MB.Managed s
  tree : Tree s
  first : FirstWindows s
  init : ∃ p, s.tasksPtr 1 = some p ∧ (s.task p).ldt 2 = userSeg 0xFF 0xF2 1
  child : ∀ j, j.val = k → ∃ p, s.tasksPtr j = some p ∧ (s.task p).state ≠ .zombie
  ended : ∀ j p, 2 ≤ j.val → j.val ≠ k → s.tasksPtr j = some p → (s.task p).state = .zombie
  taken : ∀ j, j.val < k → s.tasksPtr j ≠ none
  vacant : ∀ j, k < j.val → s.tasksPtr j = none

namespace Stage

variable {k : Nat} {s : State}

theorem low_of_userSeg {limit kind : U32} {nr : Nat}
    (h : userSeg limit 0xF2 nr = userSeg kind 0xF2 nr) :
    limit = kind := congrArg SegDesc.low32 h

/-- The window of task 1 is one directory entry. -/
theorem entries_of_userSeg {managed : Nat → Prop} {s : State} (h : KInv managed s) {p : TaskPtr}
    (hp : s.tasksPtr 1 = some p) (hlive : (s.task p).state ≠ .zombie)
    (hldt : (s.task p).ldt 2 = userSeg 0xFF 0xF2 1) :
    Mem.nrOfDirEnt (getSegmentLimit (s.task p).ldt 0x0017) = 1 := by
  obtain ⟨limit, n, _, _, _, hdata, _, _, _, hent, hone, _⟩ :=
    (h.live 1 p hp hlive).segments (by decide)
  rw [hent, hone (low_of_userSeg (hdata.symm.trans hldt))]

/-- The one page table is that of task 1. -/
theorem table (h : Stage k s) {d : Nat} (hd : d < 1024) (ht : Table (s.mem.phys d)) : d = 16 := by
  obtain ⟨i, p, n, l, hi0, hp, hlive, hparent, hl, hdl⟩ := h.sound.inv.table_slot h.first hd ht
  have hi1 : i.val < 2 := by
    by_contra hge
    exact hlive (h.ended i p (by omega) hp)
  have hi : i = 1 := Fin.ext (show i.val = 1 from by
    have : i.val ≠ 0 := fun hc => hi0 (Fin.ext hc)
    omega)
  subst hi
  obtain ⟨q, hq, hldt⟩ := h.init
  obtain rfl : q = p := Option.some.inj (hq.symm.trans hp)
  have hn : n = 1 := hparent.entries.symm.trans (entries_of_userSeg h.sound.inv hp hlive hldt)
  have h1 : (1 : Fin NUMBER_OF_TASKS).val = 1 := rfl
  omega

theorem findEmptySlot (h : Stage k s) (h2 : 2 ≤ k) {nr : Fin NUMBER_OF_TASKS} (hnr : nr.val = k) :
    s.findEmptySlot = some nr := by
  refine Tasks.findEmptySlot_eq_some.mpr ⟨?_, h.vacant nr (by omega), fun j _ hlt => ?_⟩
  · rintro rfl
    exact absurd h2 (by rw [← hnr]; decide)
  · exact h.taken j (by rw [← hnr]; exact hlt)

theorem free (h : Stage k s) : 3007 ≤ s.mem.freeFrames.card := by
  have hle := freeFrames_ge h.sound h.first ∅ fun d hd ht => Or.inl (h.table hd ht)
  rwa [Finset.card_empty, Nat.mul_zero, Nat.add_zero] at hle

/-- The table with a new child in slot `k`. -/
theorem grown (h : Stage k s) {nr : Fin NUMBER_OF_TASKS} (hnr : nr.val = k)
    {s' : State} {q : TaskPtr} (hnext : s.next (.fork 1 zeroRegs) = some s')
    (hfresh : ∀ j, s.tasksPtr j ≠ some q)
    (hptr : s'.tasksPtr = Function.update s.tasksPtr nr (some q))
    (htask : ∀ r, r ≠ q → s'.task r = s.task r) (hrun : (s'.task q).state = .running) :
    Grown k s' := by
  obtain ⟨p, hp, hldt⟩ := h.init
  have hold : ∀ j r, s.tasksPtr j = some r → s'.tasksPtr j = some r ∧ s'.task r = s.task r := by
    intro j r hr
    have hj : j ≠ nr := by
      rintro rfl
      rw [h.vacant j (by omega)] at hr
      cases hr
    exact ⟨by rw [hptr, Function.update_of_ne hj]; exact hr,
      htask r fun hc => hfresh j (hc ▸ hr)⟩
  have hother : ∀ j, j.val ≠ k → s'.tasksPtr j = s.tasksPtr j := by
    intro j hj
    rw [hptr, Function.update_of_ne fun hc => hj (by rw [hc, hnr])]
  refine ⟨h.sound.step hnext, (h.tree.step h.sound hnext).1, h.first.step h.sound hnext, ?_,
    fun j hj => ?_, fun j r hj hjk hr => ?_, fun j hj => ?_, fun j hj => ?_⟩
  · obtain ⟨hp', htp⟩ := hold 1 p hp
    exact ⟨p, hp', by rw [htp, hldt]⟩
  · have hjnr : j = nr := Fin.ext (by rw [hj, hnr])
    refine ⟨q, by rw [hptr, hjnr, Function.update_self], ?_⟩
    rw [hrun]
    exact fun hc => by cases hc
  · rw [hother j hjk] at hr
    rw [(hold j r hr).2]
    exact h.ended j r hj hr
  · rw [hother j (by omega)]
    exact h.taken j hj
  · rw [hother j (by omega)]
    exact h.vacant j (by omega)

/-- Task 1 forks into the first free slot. -/
theorem fork (h : Stage k s) (h2 : 2 ≤ k) (hk : k < 64) :
    ∃ s', s.next (.fork 1 zeroRegs) = some s' ∧ Grown k s' := by
  obtain ⟨p, hp, hldt⟩ := h.init
  obtain ⟨nr, hnrk⟩ : ∃ nr : Fin NUMBER_OF_TASKS, nr.val = k := ⟨⟨k, hk⟩, rfl⟩
  have hfree := h.free
  have hroom : 1025 * Mem.nrOfDirEnt (getSegmentLimit (s.task p).ldt 0x0017) <
      s.mem.freeFrames.card := by
    rw [entries_of_userSeg h.sound.inv hp (h.tree.init p hp).2 hldt]
    omega
  obtain ⟨s', q, hnext, hptr, hfresh, htask, hrun⟩ := h.sound.forks hp (h.tree.init p hp).2
    (by rw [hp]; exact Option.some_ne_none p) (h.findEmptySlot h2 hnrk) hroom zeroRegs
  exact ⟨s', hnext, h.grown hnrk hnext hfresh hptr htask hrun⟩

end Stage

/-- The child exits. -/
theorem Grown.exit {k : Nat} {s : State} (h : Grown k s) (h2 : 2 ≤ k) {nr : Fin NUMBER_OF_TASKS}
    (hnr : nr.val = k) : ∃ s', s.next (.exit nr 0) = some s' ∧ Stage (k + 1) s' := by
  obtain ⟨q, hq, hlive⟩ := h.child nr hnr
  have honcpu := State.onCpu_of hq hlive
  obtain ⟨t, ht⟩ : ∃ t, t = ({ s with toTasks := { s.toTasks with current := q } } : State) :=
    ⟨_, rfl⟩
  have htree : Tree t := by
    rw [ht]
    exact ⟨h.tree.pids, h.tree.father, h.tree.idle, h.tree.positive, h.tree.init, h.tree.last,
      h.tree.first⟩
  have hsound : Sound bootOf16MB.Managed t := by
    rw [ht]
    exact ⟨h.sound.inv.withCurrent q, h.sound.init⟩
  obtain ⟨s₁, s', tr, _, hex, _, hok, hptr, _, htask, _⟩ := htree.doExit hsound (i := nr)
    (by rw [ht]; exact hq) (by omega) (by rw [ht]; exact hlive) 0
  have hnext : s.next (.exit nr 0) = some s' := by
    rw [State.next, if_pos (by omega), honcpu, Option.bind_some, ← ht, hok]
    rfl
  have hptr : s'.tasksPtr = s.tasksPtr := by rw [hptr, ht]
  have hcur : t.current = q := by rw [ht]
  have hzombie : ∀ r, (s'.task r).state = .zombie ↔ r = q ∨ (s.task r).state = .zombie := by
    intro r
    rw [(htask r).2.2]
    by_cases hr : r = q
    · rw [hr, ← hcur]
      exact ⟨fun _ => Or.inl rfl, fun _ => hex.self⟩
    · rw [hex.state r (by rwa [hcur]), ht]
      exact ⟨Or.inr, fun hc => hc.resolve_left hr⟩
  refine ⟨s', hnext, h.sound.step hnext, (h.tree.step h.sound hnext).1,
    h.first.step h.sound hnext, ?_, fun j r hj hr => ?_, fun j hj => ?_, fun j hj => ?_⟩
  · obtain ⟨p, hp, hldt⟩ := h.init
    refine ⟨p, by rw [hptr, hp], ?_⟩
    rw [(htask p).1.ldt, (hex.keeps p).ldt, ht]
    exact hldt
  · rw [hptr] at hr
    rw [hzombie]
    by_cases hjk : j.val = k
    · left
      rw [show j = nr from Fin.ext (by rw [hjk, hnr]), hq] at hr
      exact (Option.some.inj hr).symm
    · exact Or.inr (h.ended j r hj hjk hr)
  · rw [hptr]
    by_cases hjk : j.val = k
    · rw [show j = nr from Fin.ext (by rw [hjk, hnr]), hq]
      exact fun hc => by cases hc
    · exact h.taken j (by omega)
  · rw [hptr]
    exact h.vacant j (by omega)

/-! ## The run -/

/-- Task 0 forks, then task 1 forks `n` times and each child exits. -/
def manyChildren (n : Nat) : List Label :=
  .fork 0 zeroRegs :: (List.range n).flatMap fun i =>
    [.fork 1 zeroRegs, .exit (Fin.ofNat NUMBER_OF_TASKS (i + 2)) 0]

theorem manyChildren_succ (n : Nat) : manyChildren (n + 1) = manyChildren n ++
    [.fork 1 zeroRegs, .exit (Fin.ofNat NUMBER_OF_TASKS (n + 2)) 0] := by
  rw [manyChildren, manyChildren, List.range_succ, List.flatMap_append, List.cons_append]
  rfl

/-- The machine after `sched_init`, as a machine to boot. -/
def scheduledBoot : Boot := { bootOf16MB with gdt := bootOf16MB.state.schedInit.gdt }

theorem schedInit_bootOf16MB : bootOf16MB.state.schedInit = scheduledBoot.state :=
  Boot.schedInit_state bootOf16MB

theorem stage_two : ∃ s, State.next bootOf16MB.state.schedInit (.fork 0 zeroRegs) = some s ∧
    Stage 2 s := by
  have hcheck : ((State.next bootOf16MB.state.schedInit (.fork 0 zeroRegs)).bind fun s =>
      (s.tasksPtr 1).bind fun p => if (s.task p).ldt 2 = userSeg 0xFF 0xF2 1 ∧
        ∀ j : Fin NUMBER_OF_TASKS, 2 ≤ j.val → s.tasksPtr j = none then some p else none).isSome := by
    decide +kernel
  obtain ⟨p, hp⟩ := Option.isSome_iff_exists.mp hcheck
  obtain ⟨s, hs, hp⟩ := Option.bind_eq_some_iff.mp hp
  obtain ⟨q, hq, hp⟩ := Option.bind_eq_some_iff.mp hp
  split at hp
  · rename_i hc
    obtain ⟨hldt, hvacant⟩ := hc
    have hsound : Sound bootOf16MB.Managed scheduledBoot.state := scheduledBoot.sound
    refine ⟨s, hs, ?_⟩
    rw [schedInit_bootOf16MB] at hs
    refine ⟨hsound.step hs, (scheduledBoot.tree.step hsound hs).1,
      scheduledBoot.firstWindows.step hsound hs, ⟨q, hq, hldt⟩, fun j r hj hr => ?_,
      fun j hj => ?_, fun j hj => hvacant j hj⟩
    · rw [hvacant j hj] at hr
      cases hr
    · have hj01 : j = 0 ∨ j = 1 := by
        have h0 : (0 : Fin NUMBER_OF_TASKS).val = 0 := rfl
        have h1 : (1 : Fin NUMBER_OF_TASKS).val = 1 := rfl
        rcases Nat.lt_or_ge j.val 1 with hlt | hge
        · exact Or.inl (Fin.ext (by omega))
        · exact Or.inr (Fin.ext (by omega))
      rcases hj01 with rfl | rfl
      · rw [(hsound.step hs).inv.slot0]
        exact fun hc => by cases hc
      · rw [hq]
        exact fun hc => by cases hc
  · cases hp

theorem run_manyChildren {n : Nat} (hn : n ≤ 62) :
    ∃ s, Run (Steps State.next) bootOf16MB.state.schedInit (manyChildren n) s ∧ Stage (n + 2) s := by
  induction n with
  | zero =>
    obtain ⟨s, hs, hstage⟩ := stage_two
    exact ⟨s, Run.single hs, hstage⟩
  | succ n ih =>
    obtain ⟨s, hrun, hstage⟩ := ih (by omega)
    obtain ⟨s₁, hfork, hgrown⟩ := hstage.fork (by omega) (by omega)
    have hslot : (Fin.ofNat NUMBER_OF_TASKS (n + 2)).val = n + 2 :=
      Nat.mod_eq_of_lt (show n + 2 < 64 by omega)
    obtain ⟨s₂, hexit, hstage'⟩ := hgrown.exit (by omega) hslot
    refine ⟨s₂, ?_, hstage'⟩
    rw [manyChildren_succ, ← List.singleton_append, ← List.append_assoc]
    exact (hrun.append (Run.single hfork)).append (Run.single hexit)

/-- Any slot of the table can be filled. -/
theorem run_fills {n : Nat} (hn : n < 62) :
    ∃ s, Run (Steps State.next) bootOf16MB.state.schedInit (manyChildren n ++ [.fork 1 zeroRegs]) s ∧
      Grown (n + 2) s := by
  obtain ⟨s, hrun, hstage⟩ := run_manyChildren (n := n) (by omega)
  obtain ⟨s', hfork, hgrown⟩ := hstage.fork (by omega) (by omega)
  exact ⟨s', hrun.append (Run.single hfork), hgrown⟩

/-! ## Every run -/

/-- Over any run of forks and exits, each managed frame is free or has one owner; a fork
by any task but `task0` that gets a frame for its child does not panic, and if it fails it
leaves `mem_map` and the page directory as they were; so does the `copy_mem` inside it; and
no exit panics. -/
theorem frames_owned {b : Boot} {ls : List Label} {s : State}
    (h : Run (Steps State.next) b.state ls s) :
    (∀ f, b.Managed f →
      (s.mem.memMap (f - 256) = 0 ∧ ∀ o, holds s.unionFrame s.mem o ≠ some f) ∨
        (s.mem.memMap (f - 256) = 1 ∧ ∃! o, holds s.unionFrame s.mem o = some f)) ∧
    (∀ nr t regs, nr ≠ 0 → s.onCpu nr = some t → s.mem.getFreePage ≠ none →
      ∃ s' ret, t.copyProcess regs = .ok (s', ret) ∧
        (ret < 0 → (∀ i < 3840, s'.mem.memMap i = s.mem.memMap i) ∧
          ∀ d < 1024, s'.mem.phys d = s.mem.phys d)) ∧
    (∀ nr t regs pid slot page mem s' ret, s.onCpu nr = some t →
      t.findEmptySlot = some slot → t.mem.getFreePage = some (page, mem) →
      (State.beginChild regs slot page { t with lastPid := pid, mem := mem }).copyMem slot
        (.frame page) = .ok (s', ret) → ret ≠ 0 →
      (∀ i < 3840, s'.mem.memMap i = mem.memMap i) ∧ ∀ d < 1024, s'.mem.phys d = mem.phys d) ∧
    ∀ nr t code, 2 ≤ nr.val → s.onCpu nr = some t → ∃ s' tr, t.doExit code = .ok (s', tr) := by
  have hs := b.sound_of_run h
  refine ⟨fun f hf => ?_, fun nr t regs hnr ht hpage => ?_, ?_, fun nr t code h2 ht => ?_⟩
  · rcases hs.inv.mm.balanced.ownership hf with ⟨h0, hno⟩ | ⟨h1, howner⟩
    · exact Or.inl ⟨BitVec.eq_of_toNat_eq h0, hno⟩
    · exact Or.inr ⟨BitVec.eq_of_toNat_eq h1, howner⟩
  · obtain ⟨p, hp, hz, rfl⟩ := State.onCpu_spec ht
    have hout := (hs.inv.withCurrent p).copyProcess hp hz regs
    have hinit := hs.init nr hnr (by rw [hp]; exact fun hc => by cases hc)
    revert hout
    generalize State.copyProcess regs _ = r
    intro hout
    cases hout with
    | tableFull pid _ _ => exact ⟨_, _, rfl, fun _ => ⟨fun _ _ => rfl, fun _ _ => rfl⟩⟩
    | noUnion hno => exact absurd hno hpage
    | noInit h1 => exact absurd h1 hinit
    | failed t _ _ _ hmap hdir _ _ => exact ⟨_, _, rfl, fun _ => ⟨hmap, hdir⟩⟩
    | child t j pid q _ _ _ _ hpid _ _ _ _ _ _ _ =>
      refine ⟨_, _, rfl, fun hneg => ?_⟩
      obtain ⟨_, r, hr, _⟩ := Tasks.findPid_spec hpid
      have hnn := Tasks.nextPid_nonneg r
      rw [Int32.lt_iff_toInt_lt, Int32.toInt_zero, hr] at hneg
      omega
  · intro nr t regs pid slot page mem s' ret ht hslot hpage hcopy hret
    obtain ⟨p, hp, hz, rfl⟩ := State.onCpu_spec ht
    obtain ⟨hslot0, hvacant, _⟩ := findEmptySlot_spec hslot
    rcases hs.inv.mm.getFreePage with hno | ⟨f, hf, hhi, h0, hsome⟩
    · rw [hno] at hpage
      cases hpage
    · rw [hsome] at hpage
      cases hpage
      have hst : Started b.Managed { s with toTasks := { s.toTasks with current := p } } nr slot f :=
        ⟨hs.inv.withCurrent p, hp, hz, hslot0, hvacant, hf, hhi, h0⟩
      rcases hst.copyMem regs pid with ⟨_, _, herr⟩ |
        ⟨ldt, m', _, _, ⟨hok, _⟩ | ⟨hfail, _, hmap, hdir, _⟩⟩
      · rw [State.started, childPtr, hcopy] at herr
        cases herr
      · rw [State.started, childPtr, hcopy] at hok
        cases hok
        exact absurd rfl hret
      · rw [State.started, childPtr, hcopy] at hfail
        cases hfail
        exact ⟨hmap, hdir⟩
  · obtain ⟨p, hp, hz, rfl⟩ := State.onCpu_spec ht
    obtain ⟨s', tr, hok, _⟩ := (hs.inv.withCurrent p).doExit hp h2 hz code
    exact ⟨s', tr, hok⟩

/-- Task 1 forks, and the child exits. -/
theorem frames_owned_child_exits :
    ∃ s, Run (Steps State.next) scheduledBoot.state
        [.fork 0 zeroRegs, .fork 1 zeroRegs, .exit 2 0] s ∧
      (∀ f, scheduledBoot.Managed f →
        (s.mem.memMap (f - 256) = 0 ∧ ∀ o, holds s.unionFrame s.mem o ≠ some f) ∨
          (s.mem.memMap (f - 256) = 1 ∧ ∃! o, holds s.unionFrame s.mem o = some f)) ∧
      ∃ t s' ret, s.onCpu 1 = some t ∧ t.copyProcess zeroRegs = .ok (s', ret) := by
  obtain ⟨s, hrun, hstage⟩ := run_manyChildren (n := 1) (by decide)
  rw [schedInit_bootOf16MB] at hrun
  have hrun : Run (Steps State.next) scheduledBoot.state
      [.fork 0 zeroRegs, .fork 1 zeroRegs, .exit 2 0] s := hrun
  obtain ⟨hframes, hforks, -⟩ := frames_owned hrun
  obtain ⟨p, hp, -⟩ := hstage.init
  have honcpu := State.onCpu_of hp (hstage.tree.init p hp).2
  have hfree := hstage.free
  have hpage : s.mem.getFreePage ≠ none := Mem.freeFrames_pos.mp (by omega)
  obtain ⟨s', ret, hok, -⟩ := hforks 1 _ zeroRegs (by decide) honcpu hpage
  exact ⟨s, hrun, hframes, _, s', ret, honcpu, hok⟩

/-- The pids of the tasks are distinct, every task but `task0` has a living father, a
father learns of each zombie in the step that makes it his, and `tell_father` always finds
him. -/
theorem process_tree {b : Boot} {ls : List Label} {s : State}
    (h : Run (Steps State.next) b.state ls s) :
    (∀ i j p q, s.tasksPtr i = some p → s.tasksPtr j = some q →
      (s.task p).pid = (s.task q).pid → i = j) ∧
    (∀ i p, i ≠ 0 → s.tasksPtr i = some p →
      ∃ j q, s.tasksPtr j = some q ∧ (s.task q).pid = (s.task p).father ∧
        (s.task q).state ≠ .zombie) ∧
    (∀ l s' i p, s.next l = some s' → s.tasksPtr i = some p → Bereaves s s' p →
      FatherTold s' p) ∧
    (∀ nr t code, 2 ≤ nr.val → s.onCpu nr = some t →
      ∃ s₁ s' tr, t.beginExit code = .ok s₁ ∧ t.doExit code = .ok (s', tr) ∧
        ((s₁.task s₁.current).father = 0 ∨
          ∃ q, s₁.findPidTask (s₁.task s₁.current).father = some q) ∧
        s'.tasksPtr = s.tasksPtr) ∧
    ∀ p, s.tasksPtr 1 = some p → (s.task p).pid = 1 := by
  obtain ⟨hs, ht⟩ := Boot.tree_of_run h
  refine ⟨ht.pids, ht.father, fun l s' i p hl hp hb => (ht.step hs hl).2 i p hp hb,
    fun nr t code h2 honcpu => ?_, fun p hp => (ht.init p hp).1⟩
  obtain ⟨p, hp, hz, rfl⟩ := State.onCpu_spec honcpu
  have ht' : Tree { s with toTasks := { s.toTasks with current := p } } :=
    ⟨ht.pids, ht.father, ht.idle, ht.positive, ht.init, ht.last, ht.first⟩
  obtain ⟨s₁, s', tr, hbegin, _, hfound, hok, hptr, _⟩ :=
    ht'.doExit ⟨hs.inv.withCurrent p, hs.init⟩ hp h2 hz code
  exact ⟨s₁, s', tr, hbegin, hok, hfound, hptr⟩

/-- Task 1 forks, and the child exits: its father lives and has the signal. -/
theorem process_tree_child_exits :
    ∃ s p, Run (Steps State.next) scheduledBoot.state
        [.fork 0 zeroRegs, .fork 1 zeroRegs, .exit 2 0] s ∧
      s.tasksPtr 2 = some p ∧ (s.task p).state = .zombie ∧
      ∃ j q, s.tasksPtr j = some q ∧ (s.task q).pid = (s.task p).father ∧
        (s.task q).state ≠ .zombie ∧ (j ≠ 0 → Tasks.HasSignal (s.task q) SIGCHLD) := by
  obtain ⟨s, hrun, hgrown⟩ := run_fills (n := 0) (by decide)
  rw [schedInit_bootOf16MB] at hrun
  have hrun : Run (Steps State.next) scheduledBoot.state
      [.fork 0 zeroRegs, .fork 1 zeroRegs] s := hrun
  obtain ⟨p, hp, hlive⟩ := hgrown.child 2 rfl
  obtain ⟨s', hexit, hstage⟩ := hgrown.exit (by decide) (show (2 : Fin NUMBER_OF_TASKS).val = 2 from rfl)
  have hrun' := hrun.snoc hexit
  have hp' : s'.tasksPtr 2 = some p := by
    obtain ⟨t, ht, hres⟩ := Option.bind_eq_some_iff.mp
      (show (s.onCpu 2).bind (fun t => State.result (t.doExit 0)) = some s' from hexit)
    obtain ⟨tr, hok⟩ := State.result_eq_some hres
    obtain ⟨_, _, _, _, hok', _, hptr⟩ :=
      (process_tree hrun).2.2.2.1 2 t 0 (by decide) ht
    cases hok.symm.trans hok'
    rw [hptr, hp]
  obtain ⟨_, hfather, -⟩ := process_tree hrun'
  have hzombie := hstage.ended 2 p (by decide) hp'
  obtain ⟨j, q, hq, hpid, hz⟩ := hfather 2 p (by decide) hp'
  have htold := (process_tree hrun).2.2.1 _ _ 2 p hexit hp (Or.inl ⟨hlive, hzombie⟩)
  exact ⟨s', p, hrun', hp', hzombie, j, q, hq, hpid, hz, fun hj => htold j q hj hq hpid⟩

end Kernel
end CherryOS
