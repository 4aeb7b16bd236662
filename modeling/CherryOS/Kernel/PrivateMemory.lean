import CherryOS.Kernel.ProcessTree
import CherryOS.Kernel.ForkCopies
import CherryOS.Kernel.ExitTeardown
import CherryOS.Kernel.ManyTasks
import CherryOS.Mm.UserBytes

/-!
# Private memories

User code reads and writes through the segment limit and the page tables of its task.  From
task 2 on what it finds there behaves as a memory of its own: a fork copies it, an exit
drops it, and nothing that any other task or the kernel does to its own data changes it.
`Memories` is that picture, one partial function from offsets to bytes for each slot that has
a task, and `State.memories` reads it off the page tables.

Tasks 0 and 1 run the code of the kernel: the window of the first is all of memory, that of
the second its first megabyte.  They are not part of the picture, but for their forks.
-/

namespace CherryOS
namespace Kernel

open Mm Lib

/-- What the tasks do to memory.  `kernel` is a store into the data of the kernel. -/
inductive Access
  | fork (nr : Fin NUMBER_OF_TASKS) (regs : ForkRegs)
  | exit (nr : Fin NUMBER_OF_TASKS) (code : Int32)
  | write (nr : Fin NUMBER_OF_TASKS) (off : U32) (c : BitVec 8)
  | kernel (w : Nat) (v : U32)

namespace State

/-- The physical address of offset `off` in the data segment of the task in a slot: the limit
of the segment, then the page tables.  The kernel makes every entry of a user page writable,
so a read and a write reach the same bytes. -/
def userAddr (s : State) (nr : Fin NUMBER_OF_TASKS) (off : U32) : Option U32 :=
  match s.tasksPtr nr with
  | none => none
  | some p =>
    if (s.task p).state ≠ .zombie ∧ off ≤ getSegmentLimit (s.task p).ldt 0x0017 then
      s.mem.translate (getSegmentBase ((s.task p).ldt 2) + off)
    else none

def userByte (s : State) (nr : Fin NUMBER_OF_TASKS) (off : U32) : Option (BitVec 8) :=
  (s.userAddr nr off).map s.mem.byteAt

/-- The words of the kernel's own data: outside the page directory, they lie in no frame of the
allocator, or in that of a task's record and stack. -/
def KernelWord (s : State) (w : Nat) : Prop :=
  1024 ≤ w ∧ (w / 1024 < 256 ∨ 4096 ≤ w / 1024 ∨ s.mem.memMap (w / 1024 - 256) = NOT_EXIST ∨
    ∃ nr, s.unionFrame nr = some (w / 1024))

instance (s : State) (w : Nat) : Decidable (s.KernelWord w) := inferInstanceAs (Decidable (_ ∧ _))

def access (s : State) : Access → Option State
  | .fork nr regs => s.next (.fork nr regs)
  | .exit nr code => s.next (.exit nr code)
  | .write nr off c =>
    if 2 ≤ nr.val then (s.userAddr nr off).map fun a => { s with mem := s.mem.setByte a c } else none
  | .kernel w v => if s.KernelWord w then some { s with mem := s.mem.setWord w v } else none

end State

/-! ## The picture -/

/-- The memory of each task, and `none` for a slot without a task. -/
abbrev Memories := Fin NUMBER_OF_TASKS → Option (U32 → Option (BitVec 8))

/-- No byte can be reached. -/
def noMemory : U32 → Option (BitVec 8) := fun _ => none

/-- Task 0 alone is there at the start. -/
def Memories.start : Memories := fun nr => if nr = 0 then some noMemory else none

/-- Each task has its own memory.  A fork that fails changes nothing; one that succeeds gives a
vacant slot a task, and this has a copy of the parent's memory, if the parent is a task with a
memory. -/
inductive Memories.Step (v : Memories) : Access → Memories → Prop
  | refused (nr : Fin NUMBER_OF_TASKS) (regs : ForkRegs) : Step v (.fork nr regs) v
  | child (nr new : Fin NUMBER_OF_TASKS) (regs : ForkRegs) (x : U32 → Option (BitVec 8))
      (hnew : v new = none) (hx : 2 ≤ nr.val → v nr = some x) :
      Step v (.fork nr regs) (Function.update v new (some x))
  | exit (nr : Fin NUMBER_OF_TASKS) (code : Int32) (hnr : v nr ≠ none) :
      Step v (.exit nr code) (Function.update v nr (some noMemory))
  | write (nr : Fin NUMBER_OF_TASKS) (off : U32) (c : BitVec 8) (x : U32 → Option (BitVec 8))
      (hx : v nr = some x) (hoff : x off ≠ none) :
      Step v (.write nr off c) (Function.update v nr (some (Function.update x off (some c))))
  | kernel (w : Nat) (u : U32) : Step v (.kernel w u) v

/-- What a task from slot 2 on has for a memory. -/
def State.memory (s : State) (nr : Fin NUMBER_OF_TASKS) : U32 → Option (BitVec 8) :=
  if 2 ≤ nr.val then s.userByte nr else noMemory

def State.memories (s : State) : Memories := fun nr => (s.tasksPtr nr).map fun _ => s.memory nr

theorem State.memories_of_task {s : State} {nr : Fin NUMBER_OF_TASKS} {p : TaskPtr}
    (hp : s.tasksPtr nr = some p) : s.memories nr = some (s.memory nr) := by
  rw [memories, hp, Option.map_some]

theorem State.memories_of_vacant {s : State} {nr : Fin NUMBER_OF_TASKS}
    (h : s.tasksPtr nr = none) : s.memories nr = none := by
  rw [memories, h, Option.map_none]

/-! ## What a live task reaches -/

section reaches

variable {managed : Nat → Prop} {s s' : State} {nr : Fin NUMBER_OF_TASKS} {off a : U32}

theorem Parent.entry {n : Nat} (h : Parent s nr n) (hnr : nr ≠ 0) :
    ∀ k < 16, s.mem.phys (16 * nr.val + k) = 0 ∨ Table (s.mem.phys (16 * nr.val + k)) := by
  intro k hk
  by_cases hkn : k < n
  · exact Or.inr ((h.present k hkn).2 hnr)
  · exact Or.inl (h.rest k (by omega) hk)

theorem KInv.userAddr_eq_some (h : KInv managed s) (hnr : nr ≠ 0) (off a : U32) :
    s.userAddr nr off = some a ↔ ∃ p, s.tasksPtr nr = some p ∧ (s.task p).state ≠ .zombie ∧
      off ≤ getSegmentLimit (s.task p).ldt 0x0017 ∧ ∃ k j x, s.mem.Reaches nr off a k j x := by
  unfold State.userAddr
  cases hp : s.tasksPtr nr with
  | none => simp
  | some p =>
    dsimp only
    by_cases hc : (s.task p).state ≠ .zombie ∧ off ≤ getSegmentLimit (s.task p).ldt 0x0017
    · obtain ⟨n, hn⟩ := h.running hp hc.1
      have hbase : getSegmentBase ((s.task p).ldt 2) = windowBase nr := hn.base
      have hlt := (hn.limit_lt hc.2).2
      have htr := translate_eq_some (a := a) nr.isLt hlt (hn.entry hnr)
      rw [if_pos hc, hbase]
      constructor
      · exact fun ha => ⟨p, rfl, hc.1, hc.2, htr.mp ha⟩
      · exact fun ⟨_, _, _, _, hr⟩ => htr.mpr hr
    · rw [if_neg hc]
      refine iff_of_false (fun ha => nomatch ha) fun ⟨q, hq, hz, hle, _⟩ => hc ?_
      cases hq
      exact ⟨hz, hle⟩

theorem State.userByte_of_addr {x : U32} (h : s.userAddr nr off = some x) :
    s.userByte nr off = some (s.mem.byteAt x) := by
  rw [userByte, h, Option.map_some]

theorem State.userByte_none (h : ∀ p, s.tasksPtr nr = some p → (s.task p).state = .zombie) :
    s.userByte nr = noMemory := by
  funext off
  have hnone : s.userAddr nr off = none := by
    unfold userAddr
    split
    · rfl
    · rename_i p hp
      rw [if_neg fun hc => hc.1 (h p hp)]
  rw [userByte, hnone]
  rfl

/-- A step that keeps the words of a window and the record of its task keeps what the task
reads. -/
theorem KInv.userByte_same (h : KInv managed s) (h' : KInv managed s') (hnr : nr ≠ 0)
    (hptr : s'.tasksPtr nr = s.tasksPtr nr)
    (htask : ∀ p, s.tasksPtr nr = some p → (s'.task p).ldt = (s.task p).ldt ∧
      ((s'.task p).state = .zombie ↔ (s.task p).state = .zombie))
    (hsame : Mem.SameWindow s.unionFrame s.mem s'.mem nr) : s'.userByte nr = s.userByte nr := by
  funext off
  have haddr : ∀ a, s'.userAddr nr off = some a ↔ s.userAddr nr off = some a := by
    intro a
    rw [h.userAddr_eq_some hnr, h'.userAddr_eq_some hnr, hptr]
    constructor
    · rintro ⟨p, hp, hz, hle, k, j, x, hr⟩
      obtain ⟨hldt, hstate⟩ := htask p hp
      rw [hldt] at hle
      exact ⟨p, hp, fun hc => hz (hstate.mpr hc), hle, k, j, x, (hsame.reaches nr.isLt).mp hr⟩
    · rintro ⟨p, hp, hz, hle, k, j, x, hr⟩
      obtain ⟨hldt, hstate⟩ := htask p hp
      rw [← hldt] at hle
      exact ⟨p, hp, fun hc => hz (hstate.mp hc), hle, k, j, x, (hsame.reaches nr.isLt).mpr hr⟩
  cases ha : s.userAddr nr off with
  | none =>
    have ha' : s'.userAddr nr off = none := by
      by_contra hne
      obtain ⟨a, ha'⟩ := Option.ne_none_iff_exists'.mp hne
      rw [(haddr a).mp ha'] at ha
      cases ha
    rw [State.userByte, State.userByte, ha, ha']
    rfl
  | some a =>
    obtain ⟨_, _, _, _, k, j, x, hr⟩ := (h.userAddr_eq_some hnr _ _).mp ha
    rw [State.userByte_of_addr ha, State.userByte_of_addr ((haddr a).mpr ha),
      hsame.byteAt nr.isLt hr]

/-- So a step keeps the memory of a slot when it keeps the words of the window, or there is no
memory. -/
theorem KInv.memories_same (h : KInv managed s) (h' : KInv managed s')
    (hptr : s'.tasksPtr nr = s.tasksPtr nr)
    (htask : ∀ p, s.tasksPtr nr = some p → (s'.task p).ldt = (s.task p).ldt ∧
      ((s'.task p).state = .zombie ↔ (s.task p).state = .zombie))
    (hsame : ∀ p, 2 ≤ nr.val → s.tasksPtr nr = some p → (s.task p).state ≠ .zombie →
      Mem.SameWindow s.unionFrame s.mem s'.mem nr) : s'.memories nr = s.memories nr := by
  rw [State.memories, State.memories, hptr]
  refine congrArg (fun x => (s.tasksPtr nr).map fun _ => x) ?_
  unfold State.memory
  by_cases h2 : 2 ≤ nr.val
  · rw [if_pos h2, if_pos h2]
    have hnr : nr ≠ 0 := by
      rintro rfl
      exact absurd h2 (by decide)
    by_cases hlive : ∃ p, s.tasksPtr nr = some p ∧ (s.task p).state ≠ .zombie
    · obtain ⟨p, hp, hz⟩ := hlive
      exact h.userByte_same h' hnr hptr htask (hsame p h2 hp hz)
    · have hdead : ∀ p, s.tasksPtr nr = some p → (s.task p).state = .zombie := by
        intro p hp
        by_contra hz
        exact hlive ⟨p, hp, hz⟩
      rw [State.userByte_none hdead, State.userByte_none]
      intro p hp
      rw [hptr] at hp
      exact (htask p hp).2.mpr (hdead p hp)
  · rw [if_neg h2, if_neg h2]

end reaches

/-! ## fork -/

section fork

variable {managed : Nat → Prop} {s s' : State} {i : Fin NUMBER_OF_TASKS}

/-- A fork leaves the windows of all slots alone but that of the one it has found. -/
theorem KInv.fork_same (h : KInv managed s) (hi : s.tasksPtr i = some s.current)
    (hlive : (s.task s.current).state ≠ .zombie) (hmem : ForkMemory s s') {j : Fin NUMBER_OF_TASKS}
    (h2 : 2 ≤ j.val) (hj : ∀ nr, s.findEmptySlot = some nr → j ≠ nr) :
    Mem.SameWindow s.unionFrame s.mem s'.mem j := by
  obtain ⟨n, hparent⟩ := h.parent hi hlive
  have hn : n ≤ 4 := by rcases hparent.size with rfl | rfl <;> omega
  have hent := hparent.entries
  have hbase := hparent.base
  have hj64 : j.val < 64 := j.isLt
  have hi64 : i.val < 64 := i.isLt
  -- the frame of the new task was free
  have htaken : ∀ {page : U32} {m : Mem} {nr : Fin NUMBER_OF_TASKS},
      s.findEmptySlot = some nr → s.mem.getFreePage = some (page, m) →
      ∃ u, MmInv managed u m ∧ Mem.SameWindow s.unionFrame s.mem m j ∧
        ∀ w, m.WindowWord u j w ↔ s.mem.WindowWord s.unionFrame j w := by
    intro page m nr hslot hpage
    obtain ⟨u, hm, hdir, hholds, _⟩ := h.unionTaken hi hslot hpage
    obtain ⟨f, hlo, hhi, h0, -, rfl⟩ := Mem.getFreePage_some hpage
    refine ⟨u, hm, h.mm.taken_same hlo hhi h0 h2 hj64, fun w => or_congr Iff.rfl ?_⟩
    refine exists_congr fun o => exists_congr fun d => and_congr_right fun hod => ?_
    rw [hholds o d hod]
  cases hmem with
  | refused _ hmem _ =>
    rw [hmem]
    exact fun _ _ => rfl
  | init page m hslot hpage hmem _ =>
    obtain ⟨u, hm, hsame, hword⟩ := htaken hslot hpage
    exact hsame.trans (hm.initTask1Paging_same hmem h2 hj64) fun w => (hword w).mpr
  | copied nr page m hslot h1 hpage hmem _ =>
    obtain ⟨u, hm, hsame, hword⟩ := htaken hslot hpage
    have hne : j.val ≠ nr.val := fun hc => hj nr hslot (Fin.ext hc)
    exact hsame.trans (hm.copyPageTables_same nr.isLt (by omega) hmem h2 hj64 hne)
      fun w => (hword w).mpr
  | dropped nr page m m₁ m₂ ret hslot h1 hpage hcopy hfree hmem _ =>
    obtain ⟨u, hm, hsame, hword⟩ := htaken hslot hpage
    obtain ⟨u', hm', hdir, hholds, hzero, hne', hnr2⟩ := h.unionTaken hi hslot hpage
    have hnr64 : nr.val < 64 := nr.isLt
    have hne : j.val ≠ nr.val := fun hc => hj nr hslot (Fin.ext hc)
    obtain ⟨m', ret', hm₁, hinv, hon, hpart, _⟩ := hm'.copyWindow hi64 hnr64
      (fun hc => hne' (Fin.ext hc)) (by omega) hent
      (fun k hk => by rw [hdir _ (by omega)]; exact (hparent.present k hk).1)
      (fun k hk => hzero k (by omega))
    have hcopied := hm.copyPageTables_same hnr64 (by omega) hcopy h2 hj64 hne
    rw [hbase, hm₁] at hcopy
    obtain ⟨rfl, -⟩ := Prod.ext_iff.mp (Except.ok.inj hcopy)
    have hfreed := hinv.freePageTables_same hnr64 (by omega) (by rwa [hent]) hfree h2 hj64 hne
    -- the window has the words in `m'` that it has in `m`
    have hword' : ∀ w, m.WindowWord u j w → m'.WindowWord u' j w := by
      intro w hw
      refine ((hword w).mp hw).imp_right fun ⟨o, d, hod, hin, ho⟩ => ⟨o, d, hod, hin, ?_⟩
      rw [hon.holds o fun e he ⟨k, hk, heq⟩ => ?_, hholds o d hod, ho]
      rw [hod] at he
      cases he
      obtain ⟨l, hl, heq'⟩ := hin
      omega
    intro w hw
    rw [hmem, hfreed w (hword' w ((hword w).mpr hw)), hcopied w ((hword w).mpr hw), hsame w hw]

/-- A child has as many directory entries as its parent. -/
theorem KInv.childWindow (h : KInv managed s) (hi : s.tasksPtr i = some s.current)
    (hmem : ForkMemory s s') {nr : Fin NUMBER_OF_TASKS} (hold : s.tasksPtr nr = none)
    (hnew : s'.tasksPtr nr ≠ none) (hnr : 2 ≤ nr.val) {n : Nat} (hp : Parent s i n) :
    (∀ k < n, s'.mem.phys (16 * nr.val + k) &&& 1 ≠ 0) ∧
      ∀ k, n ≤ k → k < 16 → s'.mem.phys (16 * nr.val + k) = 0 := by
  have hi64 : i.val < 64 := i.isLt
  have hnr64 : nr.val < 64 := nr.isLt
  have hn : n ≤ 4 := by rcases hp.size with rfl | rfl <;> omega
  have h1 : nr ≠ 1 := by
    rintro rfl
    exact absurd hnr (by decide)
  obtain ⟨page, m, hslot, hpage, hcopy⟩ := hmem.copy_of_new hold hnew h1
  obtain ⟨u, hm, hdir, -, hzero, hne, -⟩ := h.unionTaken hi hslot hpage
  obtain ⟨m', ret, hm', -, hon, -, hall⟩ := hm.copyWindow hi64 hnr64
    (fun hc => hne (Fin.ext hc)) (by omega) hp.entries
    (fun k hk => by rw [hdir _ (by omega)]; exact (hp.present k hk).1)
    (fun k hk => hzero k (by omega))
  rw [hp.base, hm'] at hcopy
  obtain ⟨rfl, hret⟩ := Prod.ext_iff.mp (Except.ok.inj hcopy)
  refine ⟨fun k hk => ?_, fun k hnk hk => ?_⟩
  · rw [(hall hret k hk).1]
    decide
  · rw [hon.dir _ (by omega) fun ⟨l, hl, hc⟩ => by omega, hzero k hk]

theorem KInv.childSize (h : KInv managed s) (hi : s.tasksPtr i = some s.current)
    (hmem : ForkMemory s s') {nr : Fin NUMBER_OF_TASKS} (hold : s.tasksPtr nr = none)
    {q : TaskPtr} (hnew : s'.tasksPtr nr = some q) (hnr : 2 ≤ nr.val) {n n' : Nat}
    (hp : Parent s i n) (hp' : Parent (s'.running q) nr n') : n' = n := by
  obtain ⟨hpres, hzero⟩ := h.childWindow hi hmem hold
    (by rw [hnew]; exact Option.some_ne_none q) hnr hp
  rcases hp.size with rfl | rfl
  · rcases hp'.size with rfl | rfl
    · rfl
    · exact absurd (hzero 1 (by omega) (by omega)) fun h0 => by
        have := (hp'.present 1 (by omega)).1
        rw [show (s'.running q).mem = s'.mem from rfl, h0] at this
        exact this (by decide)
  · rcases hp'.size with rfl | rfl
    · exact absurd (hpres 1 (by omega)) (by
        rw [show s'.mem.phys (16 * nr.val + 1) = 0 from hp'.rest 1 (by omega) (by omega)]
        decide)
    · rfl

/-- What a fork of a task from slot 2 on has copied. -/
theorem KInv.childCopied (h : KInv managed s) (hi : s.tasksPtr i = some s.current)
    (hmem : ForkMemory s s') {nr : Fin NUMBER_OF_TASKS}
    (hold : s.tasksPtr nr = none) (hnew : s'.tasksPtr nr ≠ none) (h2 : 2 ≤ i.val)
    (hnr : 2 ≤ nr.val) {n : Nat} (hp : Parent s i n) :
    ∀ k < n, ∀ j < 1024, s'.mem.phys (s'.mem.entryWord (16 * nr.val + k) j) &&& 1 = 1 ↔
      s.mem.phys (s.mem.entryWord (16 * i.val + k) j) &&& 1 = 1 := by
  have hi64 : i.val < 64 := i.isLt
  have hnr64 : nr.val < 64 := nr.isLt
  have hn : n ≤ 4 := by rcases hp.size with rfl | rfl <;> omega
  have hne : i ≠ nr := by
    rintro rfl
    rw [hi] at hold
    cases hold
  have h1 : nr ≠ 1 := by
    rintro rfl
    exact absurd hnr (by decide)
  have hframes := h.parentFrames hp h2
  obtain ⟨page, m, -, hpage, hcopy⟩ := hmem.copy_of_new hold hnew h1
  obtain ⟨f, hlo, hhi, h0, _, rfl⟩ := Mem.getFreePage_some hpage
  have hcopy := Mem.copyDirEnts_of_copyPageTables hcopy
  rw [hp.entries, hp.base] at hcopy
  have hready := hframes.inUse.ready hn hne hlo hhi h0
  have hcopies := Mem.copyDirEnts_copies (· < 1024) hready hcopy hready.target
  intro k hk j hj
  have hpres := hcopies.present k (List.mem_range.mpr hk) j hj
  rwa [MmInv.wordAt_window hnr64, hframes.inUse.taken_entry hi64 hn hlo hhi h0 hk hj] at hpres

/-- The child of a task from slot 2 on reads what its parent reads. -/
theorem KInv.child_reads (h : KInv managed s) (h' : KInv managed s')
    (hi : s.tasksPtr i = some s.current) (hlive : (s.task s.current).state ≠ .zombie)
    (hmem : ForkMemory s s') {nr : Fin NUMBER_OF_TASKS} (hold : s.tasksPtr nr = none)
    {p : TaskPtr} (hnew : s'.tasksPtr nr = some p) (hrun : (s'.task p).state ≠ .zombie)
    (h2 : 2 ≤ i.val) (hnr : 2 ≤ nr.val) : s'.userByte nr = s.userByte i := by
  have hi64 : i.val < 64 := i.isLt
  have hnr64 : nr.val < 64 := nr.isLt
  have hsome : s'.tasksPtr nr ≠ none := by
    rw [hnew]
    exact fun hc => nomatch hc
  have hi0 : i ≠ 0 := by
    rintro rfl
    exact absurd h2 (by decide)
  have hnr0 : nr ≠ 0 := by
    rintro rfl
    exact absurd hnr (by decide)
  obtain ⟨n, hp⟩ := h.parent hi hlive
  obtain ⟨n', hp'⟩ := h'.running hnew hrun
  have hentry := h.childCopied hi hmem hold hsome h2 hnr hp
  have hn : n' = n := h.childSize hi hmem hold hnew hnr hp hp'
  have hlimit : getSegmentLimit (s'.task p).ldt 0x0017 = s.dataLimit := by
    have := hp'.limit
    rwa [hn, ← hp.limit] at this
  funext off
  by_cases hoff : off ≤ s.dataLimit
  · have haddr : s.userAddr i off = s.mem.translate (s.dataBase + off) := by
      unfold State.userAddr
      rw [hi]
      exact if_pos ⟨hlive, hoff⟩
    have haddr' : s'.userAddr nr off = s'.mem.translate (windowBase nr + off) := by
      unfold State.userAddr
      rw [hnew]
      dsimp only
      rw [if_pos ⟨hrun, by rwa [hlimit]⟩]
      exact congrArg (fun b => s'.mem.translate (b + off)) hp'.base
    cases ha : s.mem.translate (s.dataBase + off) with
    | some a =>
      obtain ⟨a', ha', hbyte⟩ :=
        copies_of_two_le h hi hlive hmem hold hsome hnr h2 off hoff a ha
      rw [State.userByte_of_addr (haddr.trans ha), State.userByte_of_addr (haddr'.trans ha'), hbyte]
    | none =>
      obtain ⟨hlt, hlt26⟩ := hp.limit_lt hoff
      have ho := Offset.of_lt hlt26
      have hk : off.toNat / 2 ^ 22 < n := by omega
      have hnone : s'.mem.translate (windowBase nr + off) = none := by
        rw [hp.base, ho.translate_table hi64 ((hp.present _ hk).2 hi0)] at ha
        have ht : Table (s'.mem.phys (16 * nr.val + off.toNat / 2 ^ 22)) :=
          (hp'.present _ (hn ▸ hk)).2 hnr0
        rw [ho.translate_table hnr64 ht, if_neg]
        intro hc
        rw [if_pos ((hentry _ hk _ ho.tab).mp hc)] at ha
        cases ha
      rw [State.userByte, State.userByte, haddr, haddr', ha, hnone]
      rfl
  · have hno : s.userAddr i off = none := by
      unfold State.userAddr
      rw [hi]
      exact if_neg fun hc => hoff hc.2
    have hno' : s'.userAddr nr off = none := by
      unfold State.userAddr
      rw [hnew]
      exact if_neg fun hc => hoff (by rw [← hlimit]; exact hc.2)
    rw [State.userByte, State.userByte, hno, hno']
    rfl

/-- A fork is a step of the picture. -/
theorem Sound.fork_memories {regs : ForkRegs} (hs : Sound managed s)
    (hstep : s.next (.fork i regs) = some s') :
    Memories.Step s.memories (.fork i regs) s'.memories := by
  have hs' := hs.step hstep
  cases State.next_cases hstep with
  | @fork _ _ _ ret p hp hz hok =>
    have hinv := hs.inv.withCurrent p
    have hmem := State.copyProcess_memory hok
    have hout := hinv.copyProcess hp hz regs
    have hsame : ∀ j q, 2 ≤ j.val → s.tasksPtr j = some q →
        Mem.SameWindow s.unionFrame s.mem s'.mem j := by
      intro j q h2 hq
      refine hinv.fork_same hp hz hmem h2 fun nr hslot hc => ?_
      have hvacant : s.tasksPtr nr = none := (findEmptySlot_spec hslot).2.1
      rw [← hc, hq] at hvacant
      cases hvacant
    rw [hok] at hout
    cases hout with
    | tableFull pid _ _ =>
      exact .refused i regs
    | failed t _ hptr htask _ _ _ _ =>
      have heq : s'.memories = s.memories := funext fun j => by
        refine hs.inv.memories_same hs'.inv (congrFun hptr j) (fun q hq => ?_)
          fun q h2 hq _ => hsame j q h2 hq
        rw [htask j q hq]
        exact ⟨rfl, Iff.rfl⟩
      rw [heq]
      exact .refused i regs
    | child t nr pid q _ hnr hnone _ _ hfresh hptr htask _ _ hrun _ =>
      have hvacant : s.tasksPtr nr = none := hnone
      have hnew : s'.tasksPtr nr = some q := by rw [hptr, Function.update_self]
      have hother : ∀ j, j ≠ nr → s'.memories j = s.memories j := by
        intro j hj
        have hptrj : s'.tasksPtr j = s.tasksPtr j := by
          rw [hptr, Function.update_of_ne hj]
        refine hs.inv.memories_same hs'.inv hptrj (fun r hr => ?_)
          fun r h2 hr _ => hsame j r h2 hr
        rw [htask r fun hc => hfresh j (hc ▸ hr)]
        exact ⟨rfl, Iff.rfl⟩
      have heq : s'.memories = Function.update s.memories nr (some (s'.memory nr)) := by
        funext j
        by_cases hj : j = nr
        · rw [hj, Function.update_self, State.memories_of_task hnew]
        · rw [Function.update_of_ne hj, hother j hj]
      rw [heq]
      refine .child i nr regs _ (State.memories_of_vacant hvacant) fun h2 => ?_
      -- the first child is that of task 0
      have hnr2 : 2 ≤ nr.val := by
        have hi0 : i ≠ 0 := by
          rintro rfl
          exact absurd h2 (by decide)
        have hnr0 : nr.val ≠ 0 := fun hc => hnr (Fin.ext hc)
        have hnr1 : nr.val ≠ 1 := fun hc => by
          have h1 : nr = 1 := Fin.ext hc
          exact hs.init i hi0 (by rw [hp]; exact Option.some_ne_none p) (h1 ▸ hvacant)
        omega
      rw [State.memories_of_task hp, State.memory, State.memory, if_pos hnr2, if_pos h2]
      exact congrArg some
        (hinv.child_reads hs'.inv hp hz hmem hvacant hnew (by rw [hrun]; decide) h2 hnr2).symm

end fork

/-! ## exit -/

/-- The second teardown of an exit finds nothing. -/
theorem State.TearsDown.freeWindows {s : State} {nr : Nat} {m : Mem} (h : s.TearsDown nr)
    (hfree : s.freeWindows = .ok m) :
    s.mem.freePageTables (getSegmentBase ((s.task s.current).ldt 1))
      (getSegmentLimit (s.task s.current).ldt 0x000F) = .ok m := by
  obtain ⟨m', hfirst, hsecond, _⟩ := h
  unfold State.freeWindows at hfree
  dsimp only at hfree
  rw [hfirst, ok_bind, hsecond] at hfree
  rw [hfirst, hfree]

theorem Sound.exit_memories {managed : Nat → Prop} {s s' : State} {i : Fin NUMBER_OF_TASKS}
    {code : Int32} (hs : Sound managed s) (ht : Tree s)
    (hstep : s.next (.exit i code) = some s') :
    Memories.Step s.memories (.exit i code) s'.memories := by
  have hs' := hs.step hstep
  have hi64 : i.val < 64 := i.isLt
  cases State.next_cases hstep with
  | @exit _ _ _ tr p h2 hp hz hok =>
    have hinv : KInv managed (s.running p) := hs.inv.withCurrent p
    have ht' : Tree (s.running p) :=
      ⟨ht.pids, ht.father, ht.idle, ht.positive, ht.init, ht.last, ht.first⟩
    obtain ⟨s₁, t, tr', _, hex, _, hok', hptr, _, htask, _⟩ :=
      ht'.doExit ⟨hinv, hs.init⟩ hp h2 hz code
    cases hok.symm.trans hok'
    -- the words that the teardown leaves alone
    obtain ⟨limit, n, _, hn, _, _, hbc, _, hlim, hent, _, _, hpres, _⟩ :=
      (hinv.live i p hp hz).segments hi64
    obtain ⟨m, hfree, hphys⟩ := State.doExit_memory hok
    have hfirst := (hinv.tearsDown hp h2 hz).freeWindows hfree
    rw [show (s.running p).current = p from rfl, hbc, hlim] at hfirst
    have hsame : ∀ j : Fin NUMBER_OF_TASKS, 2 ≤ j.val → j ≠ i →
        Mem.SameWindow s.unionFrame s.mem s'.mem j := by
      intro j hj2 hj w hw
      rw [hphys]
      refine hinv.mm.freePageTables_same hi64 (by omega) (fun k hk => ?_) hfirst hj2 j.isLt
        (fun hc => hj (Fin.ext hc)) w hw
      rw [hent] at hk
      exact Or.inr ((hpres k hk).2 (by omega))
    have hother : ∀ j, j ≠ i → s'.memories j = s.memories j := by
      intro j hj
      refine hs.inv.memories_same hs'.inv (congrFun hptr j) (fun q hq => ?_)
        fun q hj2 _ _ => hsame j hj2 hj
      have hne : q ≠ p := fun hc => hj (hinv.ptr_inj (hc ▸ hq) hp)
      exact ⟨(htask q).1.ldt.trans (hex.keeps q).ldt, by rw [(htask q).2.2, hex.state q hne]; rfl⟩
    have hself : s'.memories i = some noMemory := by
      rw [State.memories_of_task (show s'.tasksPtr i = some p by rw [hptr]; exact hp),
        State.memory, if_pos h2]
      refine congrArg some (State.userByte_none fun q hq => ?_)
      rw [hptr] at hq
      have hqp : q = p := Option.some.inj (hq.symm.trans hp)
      rw [hqp]
      exact (htask p).2.2.mpr hex.self
    have heq : s'.memories = Function.update s.memories i (some noMemory) := by
      funext j
      by_cases hj : j = i
      · rw [hj, Function.update_self, hself]
      · rw [Function.update_of_ne hj, hother j hj]
    rw [heq]
    refine .exit i code ?_
    rw [State.memories_of_task hp]
    exact Option.some_ne_none _

/-! ## Stores -/

section store

variable {managed : Nat → Prop} {s : State} {i j : Fin NUMBER_OF_TASKS} {off off' a : U32} {w : Nat}

/-- What a user address leads to is a page of the allocator that its own window holds. -/
theorem KInv.user_page (h : KInv managed s) (h2 : 2 ≤ i.val) (ha : s.userAddr i off = some a) :
    managed (a.toNat / 4096) ∧ ∃ k j x, s.mem.Reaches i off a k j x ∧
      holds s.unionFrame s.mem (.tabEntry (16 * i.val + k) j) = some (a.toNat / 4096) := by
  have hi0 : i ≠ 0 := by
    rintro rfl
    exact absurd h2 (by decide)
  obtain ⟨_, _, _, _, k, j, x, hr⟩ := (h.userAddr_eq_some hi0 _ _).mp ha
  have ho := hr.holds i.isLt s.unionFrame
  refine ⟨(h.mm.named _ _ ho).resolve_right fun ⟨j', hj'⟩ => ?_, k, j, x, hr, ho⟩
  have := (Owner.tabEntry.inj hj').1
  omega

/-- No byte of memory is two user addresses. -/
theorem KInv.userAddr_inj (h : KInv managed s) (h2 : 2 ≤ i.val) (h2' : 2 ≤ j.val)
    (ha : s.userAddr i off = some a) (ha' : s.userAddr j off' = some a) : i = j ∧ off = off' := by
  obtain ⟨hm, k, t, x, hr, ho⟩ := h.user_page h2 ha
  obtain ⟨_, k', t', x', hr', ho'⟩ := h.user_page h2' ha'
  obtain ⟨hk, rfl⟩ := Owner.tabEntry.inj (h.mm.balanced.alone _ _ _ hm ho ho')
  have := hr.offset.dir
  have := hr'.offset.dir
  obtain rfl : i = j := Fin.ext (by omega)
  obtain rfl : k = k' := by omega
  have hx : x = x' := by
    have := hr.addr
    have := hr'.addr
    omega
  refine ⟨rfl, BitVec.eq_of_toNat_eq ?_⟩
  rw [hr.offset.sum, hr'.offset.sum, hx]

/-- A word that no window holds belongs to none from slot 2 on. -/
theorem KInv.window_kept (h : KInv managed s) (h1024 : 1024 ≤ w)
    (hno : ∀ o d, o.dir = some d → InWindow j 16 d → managed (w / 1024) →
      holds s.unionFrame s.mem o ≠ some (w / 1024)) (h2 : 2 ≤ j.val) (v : U32) :
    Mem.SameWindow s.unionFrame s.mem (s.mem.setWord w v) j := by
  intro x hx
  rw [Mem.setWord_phys, if_neg]
  rintro rfl
  rcases h.mm.windowWord h2 hx with ⟨k, hk, heq⟩ | ⟨o, d, hod, hin, ho, hm⟩
  · have hj : j.val < 64 := j.isLt
    omega
  · exact hno o d hod hin hm ho

/-- A store outside the page tables changes no translation. -/
theorem State.Plain.reaches {m : Mem} (hw : State.Plain m w) (v : U32) {nr k t x : Nat}
    (hnr : nr < 64) (hk : k < 16) :
    (m.setWord w v).Reaches nr off a k t x ↔ m.Reaches nr off a k t x := by
  have hdir := hw.dir v (d := 16 * nr + k) (by omega)
  have hent : t < 1024 → Table (m.phys (16 * nr + k)) →
      (m.setWord w v).phys ((m.setWord w v).entryWord (16 * nr + k) t) =
        m.phys (m.entryWord (16 * nr + k) t) := by
    intro ht htab
    rw [entryWord_congr hdir, Mem.setWord_phys, if_neg]
    rintro rfl
    exact hw.2 _ (by omega) htab (MmInv.entryWord_frame ht).symm
  constructor
  · rintro ⟨ho, htab, hp, haddr⟩
    rw [hdir] at htab
    rw [hent ho.tab htab] at hp haddr
    exact ⟨ho, htab, hp, haddr⟩
  · rintro ⟨ho, htab, hp, haddr⟩
    have he := hent ho.tab htab
    exact ⟨ho, by rwa [hdir], by rwa [he], by rwa [he]⟩

theorem Sound.write_memories {s' : State} {c : BitVec 8} (hs : Sound managed s)
    (hstep : s.access (.write i off c) = some s') :
    Sound managed s' ∧ Memories.Step s.memories (.write i off c) s'.memories ∧
      ∃ l, s.next l = some s' := by
  rw [State.access] at hstep
  split at hstep
  · rename_i h2
    have hi0 : i ≠ 0 := by
      rintro rfl
      exact absurd h2 (by decide)
    obtain ⟨a, ha, rfl⟩ := Option.map_eq_some_iff.mp hstep
    obtain ⟨hm, k, t, x, hr, ho⟩ := hs.inv.user_page h2 ha
    have hframe : a.toNat / 4 / 1024 = a.toNat / 4096 := Nat.div_div_eq_div_mul _ _ _
    have hlow := (hs.inv.mm.range _ hm).1
    -- user code cannot reach a table, and so the store is one that the kernel survives
    have hplain : State.Plain s.mem (a.toNat / 4) := by
      refine ⟨by omega, fun d hd ht hc => ?_⟩
      rw [hframe] at hc
      have := hs.inv.mm.balanced.alone _ _ _ hm ho (hc ▸ holds_dirEntry hd ht)
      cases this
    have hnext : s.next (.store (a.toNat / 4) (leWord (Function.update
        (leByte (s.mem.phys (a.toNat / 4))) (a.toNat % 4) c))) =
          some { s with mem := s.mem.setByte a c } := if_pos hplain
    have hs' := hs.step hnext
    have hother : ∀ j, j ≠ i → State.memories { s with mem := s.mem.setByte a c } j =
        s.memories j := by
      intro j hj
      refine hs.inv.memories_same hs'.inv rfl (fun _ _ => ⟨rfl, Iff.rfl⟩) fun q hj2 _ _ => ?_
      refine hs.inv.window_kept hplain.1 (fun o d hod hin _ ho' => ?_) hj2 _
      rw [hframe] at ho'
      rw [← hs.inv.mm.balanced.alone _ _ _ hm ho ho'] at hod
      cases hod
      obtain ⟨l, hl, heq⟩ := hin
      have := hr.offset.dir
      exact hj (Fin.ext (by omega))
    have haddr : ∀ off', State.userAddr { s with mem := s.mem.setByte a c } i off' =
        s.userAddr i off' := by
      refine fun off' => Option.ext fun b => ?_
      have hiff := hs.inv.userAddr_eq_some hi0 off' b
      have hiff' := hs'.inv.userAddr_eq_some hi0 off' b
      rw [hiff, hiff']
      refine exists_congr fun p => and_congr_right fun _ => and_congr_right fun _ =>
        and_congr_right fun _ => exists_congr fun k => exists_congr fun t => exists_congr fun x => ?_
      by_cases hk : k < 16
      · exact hplain.reaches _ i.isLt hk
      · exact iff_of_false (fun hr => hk hr.offset.dir) fun hr => hk hr.offset.dir
    obtain ⟨p, hp, _⟩ := (hs.inv.userAddr_eq_some hi0 off a).mp ha
    have hself : State.memory { s with mem := s.mem.setByte a c } i =
        Function.update (s.memory i) off (some c) := by
      funext off'
      rw [State.memory, State.memory, if_pos h2, if_pos h2]
      by_cases hoff : off' = off
      · rw [hoff, Function.update_self, State.userByte_of_addr ((haddr off).trans ha),
          byteAt_setByte_self]
      · rw [Function.update_of_ne hoff, State.userByte, State.userByte, haddr]
        refine Option.map_congr fun b hb => byteAt_setByte_ne fun hc => ?_
        rw [hc] at hb
        exact hoff (hs.inv.userAddr_inj h2 h2 hb ha).2
    have heq : State.memories { s with mem := s.mem.setByte a c } =
        Function.update s.memories i (some (Function.update (s.memory i) off (some c))) := by
      funext j
      by_cases hj : j = i
      · rw [hj, Function.update_self, ← hself]
        exact State.memories_of_task (s := { s with mem := s.mem.setByte a c }) hp
      · rw [Function.update_of_ne hj, hother j hj]
    refine ⟨hs', ?_, _, hnext⟩
    rw [heq]
    refine .write i off c _ (State.memories_of_task hp) ?_
    rw [State.memory, if_pos h2, State.userByte_of_addr ha]
    exact Option.some_ne_none _
  · cases hstep

theorem Sound.kernel_memories {s' : State} {v : U32} (hs : Sound managed s)
    (hstep : s.access (.kernel w v) = some s') :
    Sound managed s' ∧ Memories.Step s.memories (.kernel w v) s'.memories ∧
      ∃ l, s.next l = some s' := by
  rw [State.access] at hstep
  split at hstep
  · rename_i hw
    cases hstep
    have hno : ∀ o d, o.dir = some d → managed (w / 1024) →
        holds s.unionFrame s.mem o ≠ some (w / 1024) := by
      intro o d hod hm ho
      have hrange := hs.inv.mm.range _ hm
      rcases hw.2 with hlow | hhigh | hmap | ⟨nr, hnr⟩
      · omega
      · omega
      · rw [hs.inv.mm.memMap_of_holds hm ho] at hmap
        exact absurd hmap (by decide)
      · have hu : holds s.unionFrame s.mem (.taskUnion nr) = some (w / 1024) := hnr
        rw [hs.inv.mm.balanced.alone _ _ _ hm ho hu] at hod
        cases hod
    have hplain : State.Plain s.mem w := by
      refine ⟨hw.1, fun d hd ht hc => ?_⟩
      exact hno (.dirEntry d) d rfl (hc ▸ hs.inv.mm.table_managed hd ht) (hc ▸ holds_dirEntry hd ht)
    have hnext : s.next (.store w v) = some { s with mem := s.mem.setWord w v } := if_pos hplain
    have hs' := hs.step hnext
    have heq : State.memories { s with mem := s.mem.setWord w v } = s.memories := funext fun j => by
      refine hs.inv.memories_same hs'.inv rfl (fun _ _ => ⟨rfl, Iff.rfl⟩) fun q h2 _ _ => ?_
      exact hs.inv.window_kept hw.1 (fun o d hod _ => hno o d hod) h2 v
    refine ⟨hs', ?_, _, hnext⟩
    rw [heq]
    exact .kernel w v
  · cases hstep

end store

/-! ## Runs -/

theorem access_step {managed : Nat → Prop} {s s' : State} {l : Access} (hs : Sound managed s)
    (ht : Tree s) (hl : s.access l = some s') :
    Sound managed s' ∧ Tree s' ∧ Memories.Step s.memories l s'.memories := by
  cases l with
  | fork nr regs =>
    have hnext : s.next (.fork nr regs) = some s' := hl
    exact ⟨hs.step hnext, (ht.step hs hnext).1, hs.fork_memories hnext⟩
  | exit nr code =>
    have hnext : s.next (.exit nr code) = some s' := hl
    exact ⟨hs.step hnext, (ht.step hs hnext).1, hs.exit_memories ht hnext⟩
  | write nr off c =>
    obtain ⟨hs', hmem, l, hnext⟩ := hs.write_memories hl
    exact ⟨hs', (ht.step hs hnext).1, hmem⟩
  | kernel w v =>
    obtain ⟨hs', hmem, l, hnext⟩ := hs.kernel_memories hl
    exact ⟨hs', (ht.step hs hnext).1, hmem⟩

theorem Boot.memories (b : Boot) : b.state.memories = Memories.start := by
  funext nr
  by_cases h0 : nr = 0
  · have hp : b.state.tasksPtr nr = some .task0 := if_pos h0
    rw [State.memories_of_task hp, Memories.start, if_pos h0, State.memory, if_neg]
    rw [h0]
    decide
  · have hp : b.state.tasksPtr nr = none := if_neg h0
    rw [State.memories_of_vacant hp, Memories.start, if_neg h0]

theorem Boot.access_run {b : Boot} {ls : List Access} {s : State}
    (h : Run (Steps State.access) b.state ls s) :
    Sound b.Managed s ∧ Tree s ∧ Run Memories.Step Memories.start ls s.memories := by
  induction h with
  | nil => exact ⟨b.sound, b.tree, by rw [b.memories]; exact Run.nil⟩
  | snoc _ hl ih =>
    obtain ⟨hs, ht, hrun⟩ := ih
    obtain ⟨hs', ht', hstep⟩ := access_step hs ht hl
    exact ⟨hs', ht', Run.snoc hrun hstep⟩

/-- Whatever the tasks do, what they find in memory is what they would find in memories of
their own: over the whole run, and in each step from there. -/
theorem memories_private {b : Boot} {ls : List Access} {s : State}
    (h : Run (Steps State.access) b.state ls s) :
    Run Memories.Step Memories.start ls s.memories ∧
      ∀ l s', s.access l = some s' → Memories.Step s.memories l s'.memories := by
  obtain ⟨hs, ht, hrun⟩ := b.access_run h
  exact ⟨hrun, fun l s' hl => (access_step hs ht hl).2.2⟩

/-- Task 1 forks, and its child has one directory entry and a first byte. -/
theorem run_child : ∃ s q, Run (Steps State.access) scheduledBoot.state
    [.fork 0 zeroRegs, .fork 1 zeroRegs] s ∧ Grown 2 s ∧ s.tasksPtr 2 = some q ∧
      (s.task q).state ≠ .zombie ∧ Parent (s.running q) 2 1 ∧ s.userAddr 2 0 ≠ none := by
  obtain ⟨s, hs, hstage⟩ := stage_two
  rw [schedInit_bootOf16MB] at hs
  obtain ⟨s', hs', hgrown⟩ := hstage.fork (by decide) (by decide)
  have hrun : Run (Steps State.next) scheduledBoot.state [.fork 0 zeroRegs] s := Run.single hs
  obtain ⟨hsound, hfirst⟩ := scheduledBoot.firstWindows_of_run hrun
  have hsound' := hsound.step hs'
  obtain ⟨t, ht, hres⟩ := Option.bind_eq_some_iff.mp hs'
  obtain ⟨ret, hok⟩ := State.result_eq_some hres
  have hmem := State.copyProcess_memory hok
  obtain ⟨p, hp, hz, rfl⟩ := State.onCpu_spec ht
  obtain ⟨q, hq, _⟩ := hgrown.child 2 rfl
  have hinv := hsound.inv.withCurrent p
  have hold := hstage.vacant 2 (by decide)
  obtain ⟨n, hparent⟩ := hsound.inv.running hp hz
  obtain ⟨x, g, hx, hg, hdir, hent, _⟩ := init_page_copied hinv (hfirst.withCurrent p)
    hparent (by rw [show _ = _ from hp]; exact Option.some_ne_none p) hmem hold
    (by rw [hq]; exact Option.some_ne_none q) (show 2 ≤ (2 : Fin NUMBER_OF_TASKS).val by decide)
  obtain ⟨hframex, hpresx, hlargex⟩ := frameAddr_entry hx
  obtain ⟨hframeg, hpresg, _⟩ := frameAddr_entry hg
  -- the child is alive, for the window of a zombie is empty
  have hlive : (s'.task q).state ≠ .zombie := by
    intro hzombie
    have h0 := hsound'.inv.empty 2 (by decide) (fun r hr => by
      rw [hq] at hr
      cases hr
      exact hzombie) 0 (by decide)
    rw [Nat.add_zero, hdir] at h0
    rw [h0] at hpresx
    exact absurd hpresx (by decide)
  have hchild : Parent (s'.running q) 2 1 := by
    obtain ⟨n', hchild⟩ := hsound'.inv.running hq hlive
    obtain ⟨r, hr, hldt⟩ := hstage.init
    obtain rfl : r = p := Option.some.inj (hr.symm.trans hp)
    have hone : n = 1 :=
      hparent.entries.symm.trans (Stage.entries_of_userSeg hsound.inv hp hz hldt)
    rwa [hinv.childSize hp hmem hold hq (by decide) hparent hchild, hone] at hchild
  have hword : s'.mem.entryWord (16 * (2 : Fin NUMBER_OF_TASKS).val + 0) 0 = x * 1024 := by
    rw [Nat.add_zero, Mem.entryWord, hdir, hframex, Nat.add_zero]
  have hreach : s'.mem.Reaches (2 : Fin NUMBER_OF_TASKS) 0 (Mem.frameAddr g) 0 0 0 := by
    refine ⟨⟨by decide, by decide, by decide, by decide⟩, ?_, ?_, ?_⟩
    · rw [Nat.add_zero, hdir]
      exact ⟨hpresx, hlargex⟩
    · rw [hword, hent, hpresg]
    · rw [hword, hent, hframeg, Mem.frameAddr_toNat hg, Nat.add_zero]
  have haddr : s'.userAddr 2 0 = some (Mem.frameAddr g) :=
    (hsound'.inv.userAddr_eq_some (by decide) _ _).mpr ⟨q, hq, hlive, Nat.zero_le _, 0, 0, 0, hreach⟩
  exact ⟨s', q, Run.snoc (Run.single hs) hs', hgrown, hq, hlive, hchild,
    by rw [haddr]; exact Option.some_ne_none _⟩

/-- The child writes to the first byte of its window, and forks. -/
theorem child_forks : ∃ s s', Run (Steps State.access) scheduledBoot.state
    [.fork 0 zeroRegs, .fork 1 zeroRegs, .write 2 0 7] s ∧ s.userByte 2 0 = some 7 ∧
      s.access (.fork 2 zeroRegs) = some s' ∧ s.tasksPtr 2 ≠ none ∧ s.tasksPtr 3 = none ∧
      s'.tasksPtr 3 ≠ none := by
  obtain ⟨s, q, hrun, hgrown, hq, hlive, hchild, hbyte⟩ := run_child
  obtain ⟨a, ha⟩ := Option.ne_none_iff_exists'.mp hbyte
  have hwrite : s.access (.write 2 0 7) = some { s with mem := s.mem.setByte a 7 } := by
    show (if 2 ≤ (2 : Fin NUMBER_OF_TASKS).val then
      (s.userAddr 2 0).map fun a => { s with mem := s.mem.setByte a 7 } else none) = _
    rw [if_pos (by decide), ha, Option.map_some]
  obtain ⟨t, ht⟩ : ∃ t, t = ({ s with mem := s.mem.setByte a 7 } : State) := ⟨_, rfl⟩
  rw [← ht] at hwrite
  obtain ⟨hsound, hstep, l, hnext⟩ := hgrown.sound.write_memories hwrite
  have hfirst := hgrown.first.step hgrown.sound hnext
  have hptr : t.tasksPtr = s.tasksPtr := by rw [ht]
  have htask : t.task = s.task := by rw [ht]
  have hseven : t.userByte 2 0 = some 7 := by
    have hmem : t.memories 2 = some (t.memory 2) := State.memories_of_task (by rw [hptr, hq])
    generalize t.memories = v at hstep hmem
    cases hstep with
    | write _ _ _ x hx _ =>
      rw [Function.update_self] at hmem
      have h0 := congrFun (Option.some.inj hmem) 0
      rw [Function.update_self] at h0
      exact h0.symm
  have h3 : s.tasksPtr 3 = none := hgrown.vacant 3 (by decide)
  have hslot : t.findEmptySlot = some 3 := by
    refine Tasks.findEmptySlot_eq_some.mpr ⟨by decide, by rw [hptr, h3], fun j _ hj => ?_⟩
    rw [hptr]
    by_cases hj2 : j.val < 2
    · exact hgrown.taken j hj2
    · have hj3 : j.val < 3 := hj
      rw [show j = 2 from Fin.ext (show j.val = 2 by omega), hq]
      exact Option.some_ne_none q
  -- the tables are those of tasks 1 and 2
  have htable : ∀ d < 1024, Table (t.mem.phys d) → d = 16 ∨ d ∈ ({32} : Finset Nat) := by
    intro d hd htab
    obtain ⟨i, p, n, k, hi0, hp, hz, hparent, hk, hdk⟩ := hsound.inv.table_slot hfirst hd htab
    have hent := hparent.entries
    rw [hptr] at hp
    rw [htask] at hz
    have hlt : i.val < 3 := by
      by_contra hge
      rw [hgrown.vacant i (by omega)] at hp
      cases hp
    have hne : i.val ≠ 0 := fun hc => hi0 (Fin.ext hc)
    have hone : n = 1 := by
      refine hent.symm.trans ?_
      rw [show (t.running p).dataLimit = getSegmentLimit (s.task p).ldt 0x0017 by rw [← htask]; rfl]
      by_cases hi1 : i = 1
      · rw [hi1] at hp
        obtain ⟨r, hr, hldt⟩ := hgrown.init
        obtain rfl : r = p := Option.some.inj (hr.symm.trans hp)
        exact Stage.entries_of_userSeg hgrown.sound.inv hp hz hldt
      · have hi1 : i.val ≠ 1 := fun hc => hi1 (Fin.ext hc)
        rw [show i = 2 from Fin.ext (show i.val = 2 by omega), hq] at hp
        cases hp
        exact hchild.entries
    rw [Finset.mem_singleton]
    omega
  have hroom : 1025 * Mem.nrOfDirEnt (getSegmentLimit (t.task q).ldt 0x0017) <
      t.mem.freeFrames.card := by
    have hfree := freeFrames_ge hsound hfirst {32} htable
    rw [Finset.card_singleton] at hfree
    rw [htask, show Mem.nrOfDirEnt (getSegmentLimit (s.task q).ldt 0x0017) = 1 from hchild.entries]
    omega
  obtain ⟨s', r, hfork, hptr', _⟩ := hsound.forks (by rw [hptr, hq]) (by rwa [htask])
    (by rw [hptr]; exact hgrown.taken 1 (by decide)) hslot hroom zeroRegs
  refine ⟨t, s', Run.snoc hrun hwrite, hseven, hfork, by rw [hptr, hq]; exact Option.some_ne_none q,
    by rw [hptr, h3], ?_⟩
  rw [hptr', Function.update_self]
  exact Option.some_ne_none r

/-- The child of the child reads what its parent wrote. -/
theorem memories_private_grandchild : ∃ s v, Run (Steps State.access) scheduledBoot.state
    [.fork 0 zeroRegs, .fork 1 zeroRegs, .write 2 0 7, .fork 2 zeroRegs] s ∧
      s.memories 3 = some v ∧ v 0 = some 7 := by
  obtain ⟨s, s', hrun, hbyte, hfork, h2, h3, h3'⟩ := child_forks
  have hstep := (memories_private hrun).2 _ _ hfork
  obtain ⟨p, hp⟩ := Option.ne_none_iff_exists'.mp h2
  obtain ⟨q, hq⟩ := Option.ne_none_iff_exists'.mp h3'
  have hnew := State.memories_of_task hq
  have hvacant := State.memories_of_vacant h3
  refine ⟨s', s'.memory 3, hrun.snoc hfork, hnew, ?_⟩
  generalize s'.memories = v at hstep hnew
  cases hstep with
  | refused =>
    rw [hvacant] at hnew
    cases hnew
  | child _ new _ x _ hx =>
    have hnr : 3 = new := by
      by_contra hne
      rw [Function.update_of_ne hne, hvacant] at hnew
      cases hnew
    rw [hnr, Function.update_self] at hnew
    rw [hnr, ← Option.some.inj hnew,
      ← Option.some.inj ((State.memories_of_task hp).symm.trans (hx (by decide)))]
    exact hbyte

/-- User code of the tasks from slot 2 on reaches pages of the allocator that one entry of one
of its tables holds and nothing else does, so neither the page directory, nor a page table, nor
the record of a task; and no byte of memory is two user addresses. -/
theorem user_pages_owned {b : Boot} {ls : List Access} {s : State}
    (h : Run (Steps State.access) b.state ls s) :
    (∀ i off a, 2 ≤ i.val → s.userAddr i off = some a →
      b.Managed (a.toNat / 4096) ∧ s.mem.memMap (a.toNat / 4096 - 256) = 1 ∧
        ∃ k j, k < 16 ∧ ∀ o, holds s.unionFrame s.mem o = some (a.toNat / 4096) ↔
          o = .tabEntry (16 * i.val + k) j) ∧
    ∀ i j off off' a, 2 ≤ i.val → 2 ≤ j.val → s.userAddr i off = some a →
      s.userAddr j off' = some a → i = j ∧ off = off' := by
  have hinv := (b.access_run h).1.inv
  refine ⟨fun i off a h2 ha => ?_, fun i j off off' a h2 h2' ha ha' =>
    hinv.userAddr_inj h2 h2' ha ha'⟩
  obtain ⟨hm, k, j, x, hr, ho⟩ := hinv.user_page h2 ha
  refine ⟨hm, hinv.mm.memMap_of_holds hm ho, k, j, hr.offset.dir, fun o => ⟨fun ho' => ?_, ?_⟩⟩
  · exact hinv.mm.balanced.alone _ _ _ hm ho' ho
  · rintro rfl
    exact ho

theorem user_pages_owned_child : ∃ s a, Run (Steps State.access) scheduledBoot.state
    [.fork 0 zeroRegs, .fork 1 zeroRegs, .write 2 0 7] s ∧ s.userAddr 2 0 = some a ∧
      scheduledBoot.Managed (a.toNat / 4096) ∧
      ∃ k j, k < 16 ∧ ∀ o, holds s.unionFrame s.mem o = some (a.toNat / 4096) ↔
        o = .tabEntry (16 * 2 + k) j := by
  obtain ⟨s, _, hrun, hbyte, _⟩ := child_forks
  have hbyte : (s.userAddr 2 0).map s.mem.byteAt = some 7 := hbyte
  obtain ⟨a, ha, _⟩ := Option.map_eq_some_iff.mp hbyte
  obtain ⟨hm, _, howner⟩ := (user_pages_owned hrun).1 2 0 a (by decide) ha
  exact ⟨s, a, hrun, ha, hm, howner⟩

end Kernel
end CherryOS
