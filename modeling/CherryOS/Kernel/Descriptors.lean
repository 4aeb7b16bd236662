import CherryOS.Kernel.ManyTasks

/-!
# The descriptors of the tasks

Slot `nr` has two entries in the descriptor table, `_TSS(nr)` and `_LDT(nr)`.  `head.s`
reserves entries for 64 tasks behind its own three and loads `64 * 8 + 1` as the limit of
the table.  Forks and exits keep each entry on the record of its task, whatever the slot,
and no two slots share one; but the limit ends with entry 63, which slot 29 has.
-/

namespace CherryOS
namespace Kernel

open Mm Lib

/-- The entries that `head.s` reserves: null, code, data and `times 64 * 2`. -/
def GDT_ENTRIES : Nat := 3 + 64 * 2

/-- The limit in `gdtr_48`. -/
def GDTR_LIMIT : Nat := 64 * 8 + 1

/-- The sizes of `struct tss` and of the three descriptors of an LDT. -/
def TSS_SIZE : Nat := 104
def LDT_SIZE : Nat := 3 * 8

/-! ## Reading a descriptor back -/

/-- A descriptor with the base `addr`, the limit `limit` and the access byte `access`. -/
def sysDesc (addr limit access : U32) : SegDesc :=
  { low32 := ((addr &&& 0xFFFF) <<< 16) ||| limit,
    high32 := (((addr &&& 0xFF000000) >>> 24) <<< 24) ||| access ||| ((addr &&& 0xFF0000) >>> 16) }

theorem low_add (addr : U32) {limit : U32} (hl : limit <<< 16 >>> 16 = limit) :
    ((addr &&& 0xFFFF) <<< 16) + limit = ((addr &&& 0xFFFF) <<< 16) ||| limit := by
  refine BitVec.add_eq_or_of_and_eq_zero _ _ ?_
  ext i hi
  rw [← hl]
  simp
  omega

theorem or_access (x d e n y : U32) : x ||| d ||| e ||| n ||| y = x ||| (d ||| e ||| n) ||| y := by
  rw [BitVec.or_assoc x, BitVec.or_assoc x]

theorem tssDesc_eq (addr : U32) : tssDesc addr DPL_0 = sysDesc addr 104 0x8900 := by
  rw [tssDesc, sysDesc, low_add addr (by decide), or_access]
  rfl

theorem ldtDesc_eq (addr : U32) : ldtDesc addr DPL_0 = sysDesc addr 32 0x8200 := by
  rw [ldtDesc, sysDesc, low_add addr (by decide), or_access]
  rfl

/-- The mask of the bits from `lo` to `hi - 1`. -/
theorem mask_bit {mask : U32} {lo hi : Nat}
    (h : ∀ i : Fin 32, mask.getLsbD i = (decide (lo ≤ i.val) && decide (i.val < hi))) (hhi : hi ≤ 32)
    (i : Nat) : mask.getLsbD i = (decide (lo ≤ i) && decide (i < hi)) := by
  by_cases hi' : i < 32
  · exact h ⟨i, hi'⟩
  · rw [BitVec.getLsbD_of_ge _ _ (by omega)]
    simp
    omega

theorem byte0_bit (i : Nat) : (0xFF : U32).getLsbD i = (decide (0 ≤ i) && decide (i < 8)) :=
  mask_bit (by decide) (by decide) i

theorem half0_bit (i : Nat) : (0xFFFF : U32).getLsbD i = (decide (0 ≤ i) && decide (i < 16)) :=
  mask_bit (by decide) (by decide) i

theorem byte2_bit (i : Nat) : (0xFF0000 : U32).getLsbD i = (decide (16 ≤ i) && decide (i < 24)) :=
  mask_bit (by decide) (by decide) i

theorem byte3_bit (i : Nat) : (0xFF000000 : U32).getLsbD i = (decide (24 ≤ i) && decide (i < 32)) :=
  mask_bit (by decide) (by decide) i

theorem byte1_bit (i : Nat) : (0xFF00 : U32).getLsbD i = (decide (8 ≤ i) && decide (i < 16)) :=
  mask_bit (by decide) (by decide) i

theorem access_bit (i : Nat) : (0xFFFF00 : U32).getLsbD i = (decide (8 ≤ i) && decide (i < 24)) :=
  mask_bit (by decide) (by decide) i

theorem getSegmentBase_sysDesc (addr : U32) {limit access : U32} (hl : limit &&& 0xFFFF = limit)
    (ha : access &&& 0xFFFF00 = access) : getSegmentBase (sysDesc addr limit access) = addr := by
  refine BitVec.eq_of_getLsbD_eq fun i hi => ?_
  have hi : i < 32 := hi
  rw [← hl, ← ha, getSegmentBase, sysDesc]
  simp only [BitVec.getLsbD_or, BitVec.getLsbD_shiftLeft, BitVec.getLsbD_and,
    BitVec.getLsbD_ushiftRight, byte0_bit, half0_bit, byte2_bit, byte3_bit, access_bit, hi]
  interval_cases i <;> simp

theorem segmentLimit_sysDesc (addr : U32) {limit access : U32} (hl : limit &&& 0xFFFF = limit)
    (ha : access &&& 0xFF00 = access) : segmentLimit (sysDesc addr limit access) = limit := by
  have hhigh : ∀ i, 16 ≤ i → i < 24 → (sysDesc addr limit access).high32.getLsbD i = false := by
    intro i hlo hhi
    rw [← ha, sysDesc]
    simp only [BitVec.getLsbD_or, BitVec.getLsbD_shiftLeft, BitVec.getLsbD_and,
      BitVec.getLsbD_ushiftRight, byte1_bit, byte2_bit, byte3_bit]
    interval_cases i <;> simp
  have hmask : ∀ (mask : U32) (lo hi : Nat), 16 ≤ lo → hi ≤ 24 →
      (∀ i, mask.getLsbD i = (decide (lo ≤ i) && decide (i < hi))) →
      (sysDesc addr limit access).high32 &&& mask = 0 := by
    intro mask lo hi hlo hhi hm
    refine BitVec.eq_of_getLsbD_eq fun i _ => ?_
    rw [BitVec.getLsbD_and, hm]
    by_cases hin : lo ≤ i ∧ i < hi
    · rw [hhigh i (by omega) (by omega)]
      simp
    · rcases not_and_or.mp hin with h | h <;> simp [h]
  have hg : (sysDesc addr limit access).high32 &&& 0x00800000 = 0 :=
    hmask _ 23 24 (by omega) (by omega) (mask_bit (by decide) (by decide))
  have hraw : (sysDesc addr limit access).high32 &&& 0x000F0000 = 0 :=
    hmask _ 16 20 (by omega) (by omega) (mask_bit (by decide) (by decide))
  have hlow : (sysDesc addr limit access).low32 &&& 0xFFFF = limit := by
    refine BitVec.eq_of_getLsbD_eq fun i hi => ?_
    rw [← hl, sysDesc]
    simp only [BitVec.getLsbD_or, BitVec.getLsbD_shiftLeft, BitVec.getLsbD_and, half0_bit]
    by_cases h : i < 16 <;> simp [h]
  rw [segmentLimit]
  simp only [hg, hraw, hlow]
  simp

theorem getSegmentBase_tssDesc (addr : U32) : getSegmentBase (tssDesc addr DPL_0) = addr := by
  rw [tssDesc_eq]
  exact getSegmentBase_sysDesc addr (by decide) (by decide)

theorem getSegmentBase_ldtDesc (addr : U32) : getSegmentBase (ldtDesc addr DPL_0) = addr := by
  rw [ldtDesc_eq]
  exact getSegmentBase_sysDesc addr (by decide) (by decide)

theorem segmentLimit_tssDesc (addr : U32) : segmentLimit (tssDesc addr DPL_0) = 104 := by
  rw [tssDesc_eq]
  exact segmentLimit_sysDesc addr (by decide) (by decide)

theorem segmentLimit_ldtDesc (addr : U32) : segmentLimit (ldtDesc addr DPL_0) = 32 := by
  rw [ldtDesc_eq]
  exact segmentLimit_sysDesc addr (by decide) (by decide)

/-! ## Entries of a slot -/

/-- The entry of the table that a selector names. -/
def entryOf (selector : Nat) : Nat := selector >>> 3

theorem entryOf_tssSelector (nr : Nat) : entryOf (tssSelector nr) = nr * 2 + 4 := by
  rw [entryOf, tssSelector, Nat.shiftLeft_eq, Nat.shiftRight_eq_div_pow]
  exact Nat.mul_div_cancel _ (by decide)

theorem entryOf_ldtSelector (nr : Nat) : entryOf (ldtSelector nr) = nr * 2 + 5 := by
  rw [entryOf, ldtSelector, Nat.shiftLeft_eq, Nat.shiftRight_eq_div_pow]
  exact Nat.mul_div_cancel _ (by decide)

/-- The eight bytes of an entry lie in the reserved storage and below the loaded limit. -/
def InTable (entry : Nat) : Prop := entry < GDT_ENTRIES ∧ 8 * entry + 7 ≤ GDTR_LIMIT

/-- The descriptor has the base `addr`, and its limit covers `size` bytes. -/
def Describes (d : SegDesc) (addr : U32) (size : Nat) : Prop :=
  getSegmentBase d = addr ∧ size ≤ (segmentLimit d).toNat + 1

/-- The two entries of the slot `nr`, which holds the task `p`. -/
structure Coherent (s : State) (nr : Fin NUMBER_OF_TASKS) (p : TaskPtr) : Prop where
  tssInTable : InTable (entryOf (tssSelector nr))
  ldtInTable : InTable (entryOf (ldtSelector nr))
  tss : Describes (s.gdt (entryOf (tssSelector nr))) (s.taskAddr p + BitVec.ofNat 32 TSS_OFFSET)
    TSS_SIZE
  ldt : Describes (s.gdt (entryOf (ldtSelector nr))) (s.taskAddr p + BitVec.ofNat 32 LDT_OFFSET)
    LDT_SIZE
  apart : entryOf (tssSelector nr) ≠ entryOf (ldtSelector nr)
  others : ∀ j q, j ≠ nr → s.tasksPtr j = some q →
    ∀ e, e = entryOf (tssSelector j) ∨ e = entryOf (ldtSelector j) →
      e ≠ entryOf (tssSelector nr) ∧ e ≠ entryOf (ldtSelector nr)
  fixed : ∀ e < 3, e ≠ entryOf (tssSelector nr) ∧ e ≠ entryOf (ldtSelector nr)

/-- The entries of each slot in use are on its task. -/
def Described (s : State) : Prop := ∀ nr p, s.tasksPtr nr = some p →
  s.gdt (nr * 2 + 4) = tssDesc (s.taskAddr p + BitVec.ofNat 32 TSS_OFFSET) DPL_0 ∧
    s.gdt (nr * 2 + 5) = ldtDesc (s.taskAddr p + BitVec.ofNat 32 LDT_OFFSET) DPL_0

/-- Where a task lies depends on the image of the kernel only. -/
theorem taskAddr_congr {s s' : State} (himg : s'.img = s.img) (p : TaskPtr) :
    s'.taskAddr p = s.taskAddr p := by
  cases p with
  | task0 => exact congrArg Image.task0 himg
  | frame a => rfl

namespace Described

theorem schedInit (b : Boot) : Described b.state.schedInit := by
  intro nr p hp
  by_cases hnr : nr = 0
  · subst hnr
    have hp0 : b.state.schedInit.tasksPtr 0 = some .task0 := rfl
    rw [hp0] at hp
    cases hp
    exact ⟨rfl, rfl⟩
  · have hnone : b.state.schedInit.tasksPtr nr = none := if_neg hnr
    rw [hnone] at hp
    cases hp

/-- A step that keeps the descriptors and fills no slot. -/
theorem of_slots {s s' : State} (h : Described s) (hgdt : s'.gdt = s.gdt) (himg : s'.img = s.img)
    (hptr : ∀ i p, s'.tasksPtr i = some p → s.tasksPtr i = some p) : Described s' := by
  intro nr p hp
  rw [hgdt, taskAddr_congr himg]
  exact h nr p (hptr nr p hp)

theorem fork {s s' : State} (h : Described s) (hs : ForkShape s s') (himg : s'.img = s.img) :
    Described s' := by
  cases hs with
  | refused _ hptr hgdt _ => exact h.of_slots hgdt himg fun i p hp => by rwa [hptr] at hp
  | dropped _ _ _ hptr hgdt _ => exact h.of_slots hgdt himg fun i p hp => by rwa [hptr] at hp
  | child nr page _ _ _ _ hptr hgdt _ =>
    intro j p hp
    rw [taskAddr_congr himg, hgdt, setLdtDesc, setTssDesc, FIRST_LDT_DESC_INDEX, FIRST_TSS_DESC_INDEX]
    by_cases hj : j = nr
    · subst hj
      rw [hptr, Function.update_self] at hp
      cases hp
      rw [show j.val * 2 + 4 = 4 + j.val * 2 by omega, show j.val * 2 + 5 = 4 + 1 + j.val * 2 by omega,
        Function.update_of_ne (by omega), Function.update_self, Function.update_self]
      exact ⟨rfl, rfl⟩
    · rw [hptr, Function.update_of_ne hj] at hp
      have hval : j.val ≠ nr.val := fun hc => hj (Fin.ext hc)
      rw [Function.update_of_ne (by omega), Function.update_of_ne (by omega),
        Function.update_of_ne (by omega), Function.update_of_ne (by omega)]
      exact h j p hp

theorem step {s s' : State} {l : Label} (h : Described s) (hl : s.next l = some s') :
    Described s' := by
  cases State.next_cases hl with
  | fork p _ _ hok =>
    obtain ⟨hshape, himg⟩ := State.copyProcess_shape hok
    exact fork (s := { s with toTasks := { s.toTasks with current := p } }) h hshape himg
  | exit p _ _ _ hok =>
    have hshape := ExitShape.doExit hok
    exact h.of_slots hshape.gdt hshape.img hshape.slots
  | store _ => exact h.of_slots rfl rfl fun _ _ hp => hp

/-- The slots whose entries lie below the limit are those up to 29. -/
theorem coherent_iff {s : State} (h : Described s) {nr : Fin NUMBER_OF_TASKS} {p : TaskPtr}
    (hp : s.tasksPtr nr = some p) : Coherent s nr p ↔ nr.val ≤ 29 := by
  constructor
  · intro hc
    have := hc.ldtInTable.2
    rw [entryOf_ldtSelector, GDTR_LIMIT] at this
    omega
  · intro hnr
    obtain ⟨htss, hldt⟩ := h nr p hp
    refine ⟨?_, ?_, ?_, ?_, ?_, fun j q hj _ e he => ?_, fun e he => ?_⟩
    · rw [InTable, entryOf_tssSelector, GDT_ENTRIES, GDTR_LIMIT]
      omega
    · rw [InTable, entryOf_ldtSelector, GDT_ENTRIES, GDTR_LIMIT]
      omega
    · rw [entryOf_tssSelector, htss, Describes, getSegmentBase_tssDesc, segmentLimit_tssDesc]
      exact ⟨rfl, by decide⟩
    · rw [entryOf_ldtSelector, hldt, Describes, getSegmentBase_ldtDesc, segmentLimit_ldtDesc]
      exact ⟨rfl, by decide⟩
    · rw [entryOf_tssSelector, entryOf_ldtSelector]
      omega
    · rw [entryOf_tssSelector, entryOf_ldtSelector] at he ⊢
      have hval : j.val ≠ nr.val := fun hc => hj (Fin.ext hc)
      omega
    · rw [entryOf_tssSelector, entryOf_ldtSelector]
      omega

end Described

/-- Over any run of forks and exits, the entries of a slot in use are in the table, on its
own task and its alone, if and only if the slot is one of the first thirty. -/
theorem descriptors_coherent_iff {b : Boot} {ls : List Label} {s : State}
    (h : Run (Steps State.next) b.state.schedInit ls s) {nr : Fin NUMBER_OF_TASKS} {p : TaskPtr}
    (hp : s.tasksPtr nr = some p) : Coherent s nr p ↔ nr.val ≤ 29 :=
  (h.invariant (P := Described) (Described.schedInit b) fun _ _ _ hs hl => hs.step hl).coherent_iff hp

/-- Task 0 forks, then task 1 forks 28 times; the children exit, but for the last, which has
slot 29 and the last entry below the limit. -/
theorem descriptors_coherent_iff_slot29 : ∃ s,
    Run (Steps State.next) bootOf16MB.state.schedInit (manyChildren 27 ++ [.fork 1 zeroRegs]) s ∧
      ∃ p, s.tasksPtr 29 = some p ∧ (s.task p).state ≠ .zombie ∧ Coherent s 29 p := by
  obtain ⟨s, hrun, hgrown⟩ := run_fills (n := 27) (by decide)
  obtain ⟨p, hp, hlive⟩ := hgrown.child 29 rfl
  exact ⟨s, hrun, p, hp, hlive, (descriptors_coherent_iff hrun hp).mpr (by decide)⟩

/-- Task 0 forks, then task 1 forks 29 times; the children exit, but for the last, which
has slot 30 and an LDT beyond the limit. -/
theorem slot_thirty_beyond_limit : ∃ s,
    Run (Steps State.next) bootOf16MB.state.schedInit (manyChildren 28 ++ [.fork 1 zeroRegs]) s ∧
      ∃ p, s.tasksPtr 30 = some p ∧ (s.task p).state ≠ .zombie ∧ ¬ Coherent s 30 p := by
  obtain ⟨s, hrun, hgrown⟩ := run_fills (n := 28) (by decide)
  obtain ⟨p, hp, hlive⟩ := hgrown.child 30 rfl
  refine ⟨s, hrun, p, hp, hlive, fun hc => ?_⟩
  have := hc.ldtInTable.2
  exact absurd this (by decide)

end Kernel
end CherryOS
