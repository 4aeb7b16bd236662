import CherryOS.Kernel.Frames
import CherryOS.Kernel.ForkShape
import CherryOS.Mm.DeepCopy
import CherryOS.Mm.Teardown

/-!
# What fork and exit do to memory

`ForkMemory` lists what a call of `copy_process` that returns has done to memory, and
`State.doExit_memory` does the same for `do_exit`.  Either call changes one window.  So the
directory entries of the kernel stay what `head.s` has made them, and the table of task 1
keeps the entry that maps the first page: `FirstWindows`.
-/

namespace CherryOS
namespace Kernel

open Mm Lib

namespace State

/-- The base that `copy_mem` hands to `copy_page_tables`. -/
def dataBase (s : State) : U32 := getSegmentBase ((s.task s.current).ldt 2)

theorem beginChild_dataBase (regs : ForkRegs) (nr : Fin NUMBER_OF_TASKS) (page : U32)
    (s : State) : (beginChild regs nr page s).dataBase = s.dataBase := by
  have hcur : (beginChild regs nr page s).current = s.current := rfl
  rw [dataBase, hcur, beginChild_task, dataBase]
  split <;> rfl

theorem copyMem_memory {nr : Fin NUMBER_OF_TASKS} {p : TaskPtr} {s s' : State} {ret : Int32}
    (h : s.copyMem nr p = .ok (s', ret)) :
    (nr = 1 ∧ s.mem.initTask1Paging = .ok s'.mem ∧ ret = 0) ∨
      (nr ≠ 1 ∧ s.mem.copyPageTables s.dataBase (windowBase nr) s.dataLimit = .ok (s'.mem, 0) ∧
        ret = 0) ∨
      (nr ≠ 1 ∧ ret ≠ 0 ∧ ∃ m r, s.mem.copyPageTables s.dataBase (windowBase nr) s.dataLimit =
        .ok (m, r) ∧ m.freePageTables (windowBase nr) s.dataLimit = .ok s'.mem) := by
  unfold copyMem at h
  dsimp only at h
  split at h
  · cases h
  · split at h
    · cases h
    · split at h
      · rename_i h1
        obtain ⟨m, hm, heq⟩ := bind_eq_ok h
        cases heq
        exact Or.inl ⟨h1, hm, rfl⟩
      · rename_i h1
        obtain ⟨⟨m, r⟩, hcopy, heq⟩ := bind_eq_ok h
        dsimp only at heq
        split at heq
        · obtain ⟨m', hfree, heq'⟩ := bind_eq_ok heq
          cases heq'
          exact Or.inr (Or.inr ⟨h1, show (-ENOMEM : Int32) ≠ 0 by decide, m, r, hcopy, hfree⟩)
        · rename_i hr
          cases heq
          rw [not_not.mp hr] at hcopy
          exact Or.inr (Or.inl ⟨h1, hcopy, rfl⟩)

end State

/-- What a call of `copy_process` that returns has done to memory. -/
inductive ForkMemory (s s' : State) : Prop
  | refused (hslot : s.findEmptySlot = none) (hmem : s'.mem = s.mem)
      (hptr : s'.tasksPtr = s.tasksPtr)
  | init (page : U32) (m : Mem) (hslot : s.findEmptySlot = some 1)
      (hpage : s.mem.getFreePage = some (page, m)) (hmem : m.initTask1Paging = .ok s'.mem)
      (hptr : s'.tasksPtr = Function.update s.tasksPtr 1 (some (.frame page)))
  | copied (nr : Fin NUMBER_OF_TASKS) (page : U32) (m : Mem) (hslot : s.findEmptySlot = some nr)
      (h1 : nr ≠ 1) (hpage : s.mem.getFreePage = some (page, m))
      (hmem : m.copyPageTables s.dataBase (windowBase nr) s.dataLimit = .ok (s'.mem, 0))
      (hptr : s'.tasksPtr = Function.update s.tasksPtr nr (some (.frame page)))
  | dropped (nr : Fin NUMBER_OF_TASKS) (page : U32) (m m₁ m₂ : Mem) (ret : Int32)
      (hslot : s.findEmptySlot = some nr) (h1 : nr ≠ 1)
      (hpage : s.mem.getFreePage = some (page, m))
      (hcopy : m.copyPageTables s.dataBase (windowBase nr) s.dataLimit = .ok (m₁, ret))
      (hfree : m₁.freePageTables (windowBase nr) s.dataLimit = .ok m₂)
      (hmem : s'.mem.phys = m₂.phys) (hptr : s'.tasksPtr = s.tasksPtr)

namespace State

theorem copyProcess_memory {regs : ForkRegs} {s s' : State} {ret : Int32}
    (h : s.copyProcess regs = .ok (s', ret)) : ForkMemory s s' := by
  cases copyProcess_path h with
  | full pid hslot hs _ =>
    rw [hs]
    exact .refused hslot rfl rfl
  | dropped pid nr page mem t r hslot hpage hcopy hr hdrop _ =>
    obtain ⟨m, hfree, hs, hptr⟩ := dropChild_spec (slot_of_findEmptySlot hslot).1
      (copyMem_shape hcopy).tasksPtr hdrop
    have hout := copyMem_memory hcopy
    rw [beginChild_dataBase, beginChild_dataLimit] at hout
    rcases hout with ⟨_, _, h0⟩ | ⟨_, _, h0⟩ | ⟨h1, _, m₁, r₁, hcopy₁, hfree₁⟩
    · exact absurd h0 hr
    · exact absurd h0 hr
    · refine .dropped nr page mem m₁ t.mem r₁ hslot h1 hpage hcopy₁ hfree₁ ?_ hptr
      rw [hs]
      exact Mem.freePage_phys hfree
  | child pid nr page mem t hslot hpage hcopy hs _ =>
    have hptr : t.tasksPtr = Function.update s.tasksPtr nr (some (.frame page)) :=
      (copyMem_shape hcopy).tasksPtr
    have hout := copyMem_memory hcopy
    rw [beginChild_dataBase, beginChild_dataLimit] at hout
    rw [hs]
    rcases hout with ⟨h1, hinit, _⟩ | ⟨h1, hcopy₁, _⟩ | ⟨_, hne, _⟩
    · subst h1
      exact .init page mem hslot hpage hinit hptr
    · exact .copied nr page mem hslot h1 hpage hcopy₁ hptr
    · exact absurd rfl hne

/-- `do_exit` changes memory by the two teardowns of the window and, in the use counts, by
the release of the record. -/
theorem doExit_memory {code : Int32} {s s' : State} {tr : Transfer}
    (h : s.doExit code = .ok (s', tr)) : ∃ m, s.freeWindows = .ok m ∧ s'.mem.phys = m.phys := by
  obtain ⟨s₁, hbegin, h⟩ := bind_eq_ok h
  obtain ⟨⟨s₂, tr₂⟩, htell, h⟩ := bind_eq_ok h
  obtain ⟨m, hfree, hm⟩ := bind_eq_ok hbegin
  have hs₁ : s₁.mem = m := by rw [← Except.ok.inj hm]
  have hs₂ : s₂.mem.phys = s₁.mem.phys := by
    unfold tellFather at htell
    split at htell
    · cases htell
      rfl
    · split at htell
      · exact congrArg (fun r : State × Transfer => r.1.mem.phys) (Except.ok.inj htell).symm
      · unfold release at htell
        split at htell
        · cases htell
        · obtain ⟨m', hpage, hm'⟩ := bind_eq_ok htell
          have heq := congrArg (fun r : State × Transfer => r.1.mem.phys) (Except.ok.inj hm').symm
          exact heq.trans (Mem.freePage_phys hpage)
  refine ⟨m, hfree, ?_⟩
  rw [← hs₁, ← hs₂]
  cases tr₂ with
  | switchTo nr => rw [show s' = s₂ from (congrArg Prod.fst (Except.ok.inj h)).symm]
  | back => rw [show s' = s₂.schedule.1 from (congrArg Prod.fst (Except.ok.inj h)).symm, schedule]

end State

/-! ## The windows a call leaves alone -/

/-- What belongs to a directory entry depends on the words of memory only. -/
theorem holds_of_phys {u u' : Fin NUMBER_OF_TASKS → Option Nat} {m m' : Mem} {o : Owner} {d : Nat}
    (ho : o.dir = some d) (h : m'.phys = m.phys) : holds u' m' o = holds u m o :=
  holds_congr ho (by rw [h]) fun _ _ _ _ _ => by rw [h]

/-- A directory entry and what belongs to it are the same in both states. -/
def SameEntry (s s' : State) (d : Nat) : Prop :=
  s'.mem.phys d = s.mem.phys d ∧
    ∀ o, o.dir = some d → holds s'.unionFrame s'.mem o = holds s.unionFrame s.mem o

theorem SameEntry.of_mem {s s' : State} (h : s'.mem.phys = s.mem.phys) (d : Nat) :
    SameEntry s s' d := ⟨by rw [h], fun _ ho => holds_of_phys ho h⟩

theorem SameEntry.of_onlyIn {s s' : State} {D : Nat → Prop} {u : Fin NUMBER_OF_TASKS → Option Nat}
    {m m' : Mem} (hon : OnlyIn D u m m') (hphys : s'.mem.phys = m'.phys) {d : Nat} (hd : d < 1024)
    (hout : ¬ D d) (hdir : m.phys d = s.mem.phys d)
    (hholds : ∀ o, o.dir = some d → holds u m o = holds s.unionFrame s.mem o) :
    SameEntry s s' d := by
  refine ⟨by rw [hphys, hon.dir d hd hout, hdir], fun o ho => ?_⟩
  rw [holds_of_phys (u := u) ho hphys, hon.holds o fun e he hD => ?_, hholds o ho]
  rw [ho] at he
  cases he
  exact hout hD

/-- The segments of the parent in slot `i`. -/
structure Parent (s : State) (i : Fin NUMBER_OF_TASKS) (n : Nat) : Prop where
  base : s.dataBase = windowBase i
  limit : s.dataLimit = if n = 4 then 0xFFFFFF else 0xFFFFF
  entries : Mem.nrOfDirEnt s.dataLimit = n
  size : n = 1 ∨ n = 4
  present : ∀ k < n, s.mem.phys (16 * i.val + k) &&& 1 ≠ 0 ∧
    (i ≠ 0 → Table (s.mem.phys (16 * i.val + k)))
  rest : ∀ k, n ≤ k → k < 16 → s.mem.phys (16 * i.val + k) = 0

theorem KInv.parent {managed : Nat → Prop} {s : State} (h : KInv managed s)
    {i : Fin NUMBER_OF_TASKS} (hi : s.tasksPtr i = some s.current)
    (hlive : (s.task s.current).state ≠ .zombie) : ∃ n, Parent s i n := by
  obtain ⟨limit, n, hl, hc, hd, hpres, hzero⟩ := h.live i _ hi hlive
  have hul : UserLimit limit := by
    rcases hl with ⟨h, _⟩ | ⟨h, _⟩
    · exact Or.inl h
    · exact Or.inr h
  have hlimit : s.dataLimit = if limit = 0xFFF then 0xFFFFFF else 0xFFFFF := by
    show segmentLimit ((s.task s.current).ldt 2) = _
    rw [hd, segmentLimit_userSeg hul (Or.inr rfl) i.isLt]
  have hbase : s.dataBase = windowBase i := by
    rw [State.dataBase, hd, getSegmentBase_userSeg hul (Or.inr rfl) i.isLt]
  refine ⟨n, hbase, ?_, ?_, ?_, fun k hk => ⟨(hpres k hk).1, fun h0 => (hpres k hk).2 ?_⟩, hzero⟩
  · rw [hlimit]
    rcases hl with ⟨rfl, rfl⟩ | ⟨rfl, rfl⟩ <;> rfl
  · rw [hlimit]
    rcases hl with ⟨rfl, rfl⟩ | ⟨rfl, rfl⟩ <;> decide
  · rcases hl with ⟨_, rfl⟩ | ⟨_, rfl⟩ <;> decide
  · exact fun hc => h0 (Fin.ext hc)

/-- The task with this record gets the CPU. -/
def State.running (s : State) (p : TaskPtr) : State :=
  { s with toTasks := { s.toTasks with current := p } }

theorem KInv.running {managed : Nat → Prop} {s : State} (h : KInv managed s)
    {nr : Fin NUMBER_OF_TASKS} {p : TaskPtr} (hp : s.tasksPtr nr = some p)
    (hz : (s.task p).state ≠ .zombie) : ∃ n, Parent (s.running p) nr n :=
  (h.withCurrent p).parent (s := s.running p) hp hz

/-- Once the frame of the child is taken, its window is still empty. -/
theorem KInv.unionTaken {managed : Nat → Prop} {s : State} (h : KInv managed s)
    {i : Fin NUMBER_OF_TASKS} (hi : s.tasksPtr i = some s.current) {nr : Fin NUMBER_OF_TASKS}
    {page : U32} {m : Mem} (hslot : s.findEmptySlot = some nr)
    (hpage : s.mem.getFreePage = some (page, m)) :
    ∃ u, MmInv managed u m ∧ (∀ e < 1024, m.phys e = s.mem.phys e) ∧
      (∀ o e, o.dir = some e → holds u m o = holds s.unionFrame s.mem o) ∧
      (∀ k < 16, m.phys (16 * nr.val + k) = 0) ∧ i ≠ nr ∧ (nr ≠ 1 → 2 ≤ nr.val) := by
  obtain ⟨hnr0, hvacant, _⟩ := findEmptySlot_spec hslot
  rcases h.mm.getFreePage with hno | ⟨f, hf, _, h0, hsome⟩
  · rw [hno] at hpage
    cases hpage
  · rw [hsome] at hpage
    cases hpage
    have hunion : s.unionFrame nr = none := by rw [Tasks.unionFrame, hvacant]
    obtain ⟨hm, hdir, hsame⟩ := h.mm.takeUnion hunion hf h0
    have hnr64 : nr.val < 64 := nr.isLt
    refine ⟨_, hm, hdir, fun o e ho => hsame o ?_, fun k hk => ?_, ?_, fun h1 => ?_⟩
    · rintro rfl
      cases ho
    · rw [hdir _ (by omega)]
      refine h.empty nr hnr0 (fun p hp => ?_) k hk
      rw [hvacant] at hp
      cases hp
    · rintro rfl
      rw [hi] at hvacant
      cases hvacant
    · have : nr.val ≠ 0 := fun hc => hnr0 (Fin.ext hc)
      have : nr.val ≠ 1 := fun hc => h1 (Fin.ext hc)
      omega

/-- Outside the window of the new slot a fork leaves the directory as it was. -/
theorem KInv.copyProcess_outside {managed : Nat → Prop} {s s' : State} (h : KInv managed s)
    {i : Fin NUMBER_OF_TASKS} (hi : s.tasksPtr i = some s.current)
    (hlive : (s.task s.current).state ≠ .zombie) {regs : ForkRegs} {ret : Int32}
    (hok : s.copyProcess regs = .ok (s', ret)) {d : Nat} (hd : d < 1024)
    (hout : ∀ nr, s.findEmptySlot = some nr → ¬ InWindow nr 16 d) : SameEntry s s' d := by
  have hi64 : i.val < 64 := i.isLt
  obtain ⟨n, hparent⟩ := h.parent hi hlive
  have hn : n ≤ 4 := by rcases hparent.size with rfl | rfl <;> omega
  have hbase := hparent.base
  have hent := hparent.entries
  have hpres := hparent.present
  cases State.copyProcess_memory hok with
  | refused _ hmem _ => exact SameEntry.of_mem (by rw [hmem]) d
  | init page m hslot hpage hmem _ =>
    obtain ⟨u, hm, hdir, hholds, hzero, _, _⟩ := h.unionTaken hi hslot hpage
    rcases hm.initTask1Paging (hzero 0 (by omega)) with ⟨_, herr⟩ | ⟨m', hm', _, hon, _⟩
    · rw [herr] at hmem
      cases hmem
    · rw [hm'] at hmem
      refine SameEntry.of_onlyIn hon (by rw [Except.ok.inj hmem]) hd (fun hin => ?_) (hdir d hd)
        fun o ho => hholds o d ho
      obtain ⟨k, hk, hdk⟩ := hin
      exact hout 1 hslot ⟨k, by omega, hdk⟩
  | copied nr page m hslot h1 hpage hmem _ =>
    obtain ⟨u, hm, hdir, hholds, hzero, hne, h2⟩ := h.unionTaken hi hslot hpage
    have hnr64 : nr.val < 64 := nr.isLt
    obtain ⟨m', ret', hm', _, hon, _⟩ := hm.copyWindow hi64 hnr64 (fun hc => hne (Fin.ext hc))
      (by omega) hent (fun k hk => by rw [hdir _ (by omega)]; exact (hpres k hk).1)
      (fun k hk => hzero k (by omega))
    rw [hbase, hm'] at hmem
    have hm₁ : m' = s'.mem := (Prod.ext_iff.mp (Except.ok.inj hmem)).1
    refine SameEntry.of_onlyIn hon (by rw [hm₁]) hd
      (fun hin => ?_) (hdir d hd) fun o ho => hholds o d ho
    obtain ⟨k, hk, hdk⟩ := hin
    exact hout nr hslot ⟨k, by omega, hdk⟩
  | dropped nr page m m₁ m₂ ret₁ hslot h1 hpage hcopy hfree hmem _ =>
    obtain ⟨u, hm, hdir, hholds, hzero, hne, h2⟩ := h.unionTaken hi hslot hpage
    have hnr64 : nr.val < 64 := nr.isLt
    obtain ⟨m', ret', hm', hinv, hon, hpart, _⟩ := hm.copyWindow hi64 hnr64
      (fun hc => hne (Fin.ext hc)) (by omega) hent
      (fun k hk => by rw [hdir _ (by omega)]; exact (hpres k hk).1)
      (fun k hk => hzero k (by omega))
    rw [hbase, hm'] at hcopy
    have hm₁ : m₁ = m' := (Prod.ext_iff.mp (Except.ok.inj hcopy)).1.symm
    obtain ⟨m'', hm'', _, hon'', _⟩ := hinv.freeWindow hnr64 (h2 h1) (by omega) hent hpart
    rw [hm₁, hm''] at hfree
    refine SameEntry.of_onlyIn (hon.trans hon'') (by rw [hmem, Except.ok.inj hfree]) hd
      (fun hin => ?_) (hdir d hd) fun o ho => hholds o d ho
    obtain ⟨k, hk, hdk⟩ := hin
    exact hout nr hslot ⟨k, by omega, hdk⟩

/-- Outside the window of its slot an exit leaves the directory as it was. -/
theorem KInv.doExit_outside {managed : Nat → Prop} {s s' : State} (h : KInv managed s)
    {i : Fin NUMBER_OF_TASKS} (hi : s.tasksPtr i = some s.current) (h2 : 2 ≤ i.val)
    (hlive : (s.task s.current).state ≠ .zombie) {code : Int32} {tr : Transfer}
    (hok : s.doExit code = .ok (s', tr)) {d : Nat} (hd : d < 1024) (hout : ¬ InWindow i 16 d) :
    SameEntry s s' d := by
  obtain ⟨m, hfree, hphys⟩ := State.doExit_memory hok
  obtain ⟨m', hm', _, hon, _⟩ := h.freeWindows hi h2 hlive
  rw [hm'] at hfree
  rw [← Except.ok.inj hfree] at hphys
  exact SameEntry.of_onlyIn hon hphys hd hout rfl fun _ _ => rfl

/-! ## The first two windows -/

/-- The directory entries of the kernel are those of `head.s`, and the table of task 1 maps
the first page of memory first, and nothing above the first megabyte. -/
structure FirstWindows (s : State) : Prop where
  kernel : ∀ d < 4, s.mem.phys d = Mem.bootDir d
  init : s.tasksPtr 1 ≠ none → holds s.unionFrame s.mem (.tabEntry 16 0) = some 0
  low : ∀ j f, holds s.unionFrame s.mem (.tabEntry 16 j) = some f → f < 256

theorem FirstWindows.of_same {s s' : State} (h : FirstWindows s)
    (hkernel : ∀ d < 4, SameEntry s s' d) (hinit : SameEntry s s' 16)
    (hptr : s'.tasksPtr 1 ≠ none → s.tasksPtr 1 ≠ none) : FirstWindows s' := by
  refine ⟨fun d hd => ?_, fun h1 => ?_, fun j f hf => ?_⟩
  · rw [(hkernel d hd).1, h.kernel d hd]
  · rw [hinit.2 _ rfl, h.init (hptr h1)]
  · rw [hinit.2 _ rfl] at hf
    exact h.low j f hf

theorem FirstWindows.withCurrent {s : State} (h : FirstWindows s) (p : TaskPtr) :
    FirstWindows { s with toTasks := { s.toTasks with current := p } } :=
  ⟨h.kernel, h.init, h.low⟩

/-- `init_task1_paging` maps the first page first, and nothing above the first megabyte. -/
theorem initTask1Paging_first {m m' : Mem} (h : m.initTask1Paging = .ok m')
    (u : Fin NUMBER_OF_TASKS → Option Nat) : holds u m' (.tabEntry 16 0) = some 0 ∧
      ∀ j g, holds u m' (.tabEntry 16 j) = some g → g < 256 := by
  unfold Mem.initTask1Paging at h
  split at h
  · cases h
  · rename_i page m₁ hpage
    obtain ⟨f, hlo, hhi, _, rfl, rfl⟩ := Mem.getFreePage_some hpage
    obtain ⟨hframe, hpres, hlarge⟩ := frameAddr_entry hhi
    obtain ⟨_, hphys⟩ := MmInv.foldl_setWord (m.taken f) (f * 1024) (1024 / 4)
      (fun i => BitVec.ofNat 32 (i * 0x1000) ||| 7) (Mem.frameAddr f) (Mem.wordAt_frame hhi)
    have hm' := (Except.ok.inj h).symm
    have hdir : m'.phys 16 = Mem.frameAddr f ||| 7 := by
      rw [hm', Mem.setWord_phys, if_pos rfl]
    have hword : ∀ j, m'.entryWord 16 j = f * 1024 + j := by
      intro j
      rw [Mem.entryWord, hdir, hframe]
    have hent : ∀ j < 1024, m'.phys (m'.entryWord 16 j) =
        if j < 256 then Mem.frameAddr j ||| 7 else 0 := by
      intro j hj
      rw [hword, hm', Mem.setWord_phys, if_neg (by omega), hphys]
      split
      · rw [if_pos (by omega), Nat.add_sub_cancel_left]
        rfl
      · rw [if_neg (by omega)]
        exact if_pos (Mem.frame_div hj)
    refine ⟨?_, fun j g hg => ?_⟩
    · have h0 : m'.phys (m'.entryWord 16 0) = 7 := hent 0 (by decide)
      rw [holds_tabEntry (by omega) (by omega) (by rw [hdir]; exact ⟨hpres, hlarge⟩)
        (by rw [h0]; decide), h0]
      rfl
    · rw [holds] at hg
      split at hg
      · rename_i hj
        obtain ⟨-, hj, -, hp⟩ := hj
        cases hg
        rw [hent j hj] at hp ⊢
        split
        · rename_i hlow
          rwa [(frameAddr_entry (by omega)).1]
        · rename_i hhigh
          rw [if_neg hhigh] at hp
          exact absurd hp (by decide)
      · cases hg

theorem Boot.firstWindows (b : Boot) : FirstWindows b.state :=
  ⟨fun d hd => if_pos (by omega), fun h1 => absurd rfl h1, fun j f hf => by
    rw [b.holds_none] at hf
    cases hf⟩

theorem FirstWindows.step {managed : Nat → Prop} {s s' : State} {l : Label} (h : FirstWindows s)
    (hs : Sound managed s) (hl : s.next l = some s') : FirstWindows s' := by
  have hlow : ∀ {nr : Fin NUMBER_OF_TASKS}, nr ≠ 0 → ∀ d < 4, ¬ InWindow nr 16 d := by
    intro nr hnr d hd ⟨k, hk, hdk⟩
    have : nr.val ≠ 0 := fun hc => hnr (Fin.ext hc)
    omega
  have h16 : ∀ {nr : Fin NUMBER_OF_TASKS}, nr ≠ 0 → nr ≠ 1 → ¬ InWindow nr 16 16 := by
    intro nr hnr h1 ⟨k, hk, hdk⟩
    have : nr.val ≠ 0 := fun hc => hnr (Fin.ext hc)
    have : nr.val ≠ 1 := fun hc => h1 (Fin.ext hc)
    omega
  cases State.next_cases hl with
  | @fork nr regs _ ret p hp hz hok =>
    have hsame := fun d hd => (hs.inv.withCurrent p).copyProcess_outside hp hz hok (d := d) hd
    have hkernel : ∀ d < 4, SameEntry s s' d := fun d hd =>
      hsame d (by omega) fun nr hslot => hlow (findEmptySlot_spec hslot).1 d hd
    cases State.copyProcess_memory hok with
    | init page m hslot hpage hmem hptr =>
      obtain ⟨hfirst, hbelow⟩ := initTask1Paging_first hmem s'.unionFrame
      refine ⟨fun d hd => ?_, fun _ => hfirst, hbelow⟩
      rw [(hkernel d hd).1, h.kernel d hd]
    | refused hslot _ hptr =>
      refine h.of_same hkernel (hsame 16 (by omega) fun nr hs' => ?_) fun h1 => ?_
      · rw [hslot] at hs'
        cases hs'
      · rwa [hptr] at h1
    | copied nr page m hslot h1 _ _ hptr =>
      refine h.of_same hkernel (hsame 16 (by omega) fun nr' hs' => ?_) fun hsome => ?_
      · rw [hslot] at hs'
        cases hs'
        exact h16 (findEmptySlot_spec hslot).1 h1
      · rwa [hptr, Function.update_of_ne (Ne.symm h1)] at hsome
    | dropped nr page m m₁ m₂ r hslot h1 _ _ _ _ hptr =>
      refine h.of_same hkernel (hsame 16 (by omega) fun nr' hs' => ?_) fun hsome => ?_
      · rw [hslot] at hs'
        cases hs'
        exact h16 (findEmptySlot_spec hslot).1 h1
      · rwa [hptr] at hsome
  | @exit nr code _ tr p h2 hp hz hok =>
    have hinv := hs.inv.withCurrent p
    obtain ⟨s₁, tr, hok', _, hptr⟩ := hinv.doExit hp h2 hz code
    cases hok.symm.trans hok'
    have hsame := fun d hd => hinv.doExit_outside hp h2 hz hok (d := d) hd
    have hnr0 : nr ≠ 0 := by
      rintro rfl
      exact absurd h2 (by decide)
    have hnr1 : nr ≠ 1 := by
      rintro rfl
      exact absurd h2 (by decide)
    refine h.of_same (fun d hd => hsame d (by omega) (hlow hnr0 d hd))
      (hsame 16 (by omega) (h16 hnr0 hnr1)) fun h1 => ?_
    rwa [hptr 1 (Ne.symm hnr1)] at h1
  | @store w v hw =>
    have hsame : ∀ d < 1024, SameEntry s { s with mem := s.mem.setWord w v } d :=
      fun d hd => ⟨hw.dir v hd, fun o ho => hw.holds_eq v _ ho hd⟩
    exact h.of_same (fun d hd => hsame d (by omega)) (hsame 16 (by omega)) fun h1 => h1

/-- A page table is one of the window of a task that lives. -/
theorem KInv.table_slot {managed : Nat → Prop} {s : State} (h : KInv managed s)
    (hfirst : FirstWindows s) {d : Nat} (hd : d < 1024) (ht : Table (s.mem.phys d)) :
    ∃ i p n k, i ≠ 0 ∧ s.tasksPtr i = some p ∧ (s.task p).state ≠ .zombie ∧
      Parent (s.running p) i n ∧ k < n ∧ d = 16 * i.val + k := by
  have hno : s.mem.phys d ≠ 0 := by
    intro h0
    rw [h0] at ht
    exact absurd ht (by decide)
  obtain ⟨i, hi⟩ : ∃ i : Fin NUMBER_OF_TASKS, i.val = d / 16 :=
    ⟨⟨d / 16, show d / 16 < 64 by omega⟩, rfl⟩
  have hdi : 16 * i.val + d % 16 = d := by omega
  by_cases hlive : ∃ p, s.tasksPtr i = some p ∧ (s.task p).state ≠ .zombie
  · obtain ⟨p, hp, hz⟩ := hlive
    obtain ⟨n, hn⟩ := h.running hp hz
    have hk : d % 16 < n := by
      by_contra hge
      have h0 : s.mem.phys (16 * i.val + d % 16) = 0 := hn.rest _ (by omega) (by omega)
      rw [hdi] at h0
      exact hno h0
    refine ⟨i, p, n, d % 16, fun h0 => ?_, hp, hz, hn, hk, hdi.symm⟩
    have hn4 : n ≤ 4 := by rcases hn.size with rfl | rfl <;> omega
    have hd4 : d < 4 := by
      rw [h0] at hi
      have h0 : (0 : Fin NUMBER_OF_TASKS).val = 0 := rfl
      omega
    rw [hfirst.kernel d hd4] at ht
    interval_cases d <;> exact absurd ht (by decide)
  · have hi0 : i ≠ 0 := by
      rintro rfl
      exact hlive ⟨.task0, h.slot0, h.idle⟩
    have h0 := h.empty i hi0 (fun p hp => not_not.mp fun hz => hlive ⟨p, hp, hz⟩) (d % 16)
      (by omega)
    rw [hdi] at h0
    exact absurd h0 hno

theorem Boot.firstWindows_of_run {b : Boot} {ls : List Label} {s : State}
    (h : Run (Steps State.next) b.state ls s) : Sound b.Managed s ∧ FirstWindows s :=
  h.invariant (P := fun s => Sound b.Managed s ∧ FirstWindows s) ⟨b.sound, b.firstWindows⟩
    fun _ _ _ hs hl => ⟨hs.1.step hl, hs.2.step hs.1 hl⟩

/-! ## The window of a caller -/

/-- The frames of a window's tables and pages are in use, and no table is the page directory. -/
structure WindowInUse (s : State) (i : Fin NUMBER_OF_TASKS) (n : Nat) : Prop where
  table : ∀ k < n, 1 ≤ frameOf (s.mem.phys (16 * i.val + k)) ∧
    s.mem.InUse (frameOf (s.mem.phys (16 * i.val + k)))
  page : ∀ k < n, ∀ j < 1024, s.mem.phys (s.mem.entryWord (16 * i.val + k) j) &&& 1 = 1 →
    s.mem.InUse (frameOf (s.mem.phys (s.mem.entryWord (16 * i.val + k) j)))

namespace WindowInUse

variable {s : State} {i nr : Fin NUMBER_OF_TASKS} {n f : Nat}

/-- The frame that `get_free_page` takes for the child is none of them, so the tables are
still there. -/
theorem taken_dir (hi : i.val < 64) (hn : n ≤ 4) (hlo : 256 ≤ f) (hhi : f < 4096)
    (h0 : s.mem.memMap (f - 256) = 0) {k : Nat} (hk : k < n) :
    (s.mem.taken f).phys (16 * i.val + k) = s.mem.phys (16 * i.val + k) :=
  Mem.taken_phys ((Mem.inUse_low s.mem (by omega)).ne_free hlo hhi h0)

theorem taken_entry (h : WindowInUse s i n) (hi : i.val < 64) (hn : n ≤ 4) (hlo : 256 ≤ f)
    (hhi : f < 4096) (h0 : s.mem.memMap (f - 256) = 0) {k j : Nat} (hk : k < n) (hj : j < 1024) :
    (s.mem.taken f).phys ((s.mem.taken f).entryWord
      (wordAt ((windowBase i >>> 22) * 4) k) j) =
        s.mem.phys (s.mem.entryWord (16 * i.val + k) j) := by
  rw [MmInv.wordAt_window hi, entryWord_congr (taken_dir hi hn hlo hhi h0 hk)]
  refine Mem.taken_phys (Mem.InUse.ne_free ?_ hlo hhi h0)
  rw [Mem.entryWord, Mem.frame_div hj]
  exact (h.table k hk).2

/-- So the window can be copied to that of another slot. -/
theorem ready (h : WindowInUse s i n) (hn : n ≤ 4) (hne : i ≠ nr) (hlo : 256 ≤ f) (hhi : f < 4096)
    (h0 : s.mem.memMap (f - 256) = 0) :
    Mem.DirReady (s.mem.taken f) ((windowBase i >>> 22) * 4) ((windowBase nr >>> 22) * 4)
      (List.range n) := by
  have hi64 : i.val < 64 := i.isLt
  have hnr64 : nr.val < 64 := nr.isLt
  have hval : i.val ≠ nr.val := fun hc => hne (Fin.ext hc)
  refine ⟨List.nodup_range, fun k hk => ?_, fun k hk => ?_, fun k hk => ?_,
    fun k hk j hj hpj => ?_⟩
  · have := List.mem_range.mp hk
    rw [MmInv.wordAt_window hnr64]
    omega
  · have := List.mem_range.mp hk
    rw [MmInv.wordAt_window hi64]
    refine ⟨by omega, fun l hl => ?_⟩
    have := List.mem_range.mp hl
    rw [MmInv.wordAt_window hnr64]
    omega
  · have hk := List.mem_range.mp hk
    rw [MmInv.wordAt_window hi64, taken_dir hi64 hn hlo hhi h0 hk]
    exact ⟨(h.table k hk).1, (h.table k hk).2.taken f⟩
  · have hk := List.mem_range.mp hk
    rw [h.taken_entry hi64 hn hlo hhi h0 hk hj] at hpj ⊢
    exact (h.page k hk j hj hpj).taken f

end WindowInUse

end Kernel
end CherryOS
