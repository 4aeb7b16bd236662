import CherryOS.Kernel.AddressSpace

/-!
# What fork does

`copyMem_cases` says what `copy_mem` does to the window of the new slot: it is filled, or
the copy ran out of memory and it is empty again.  `ForkOutcome` lists the ways a call of
`copy_process` can end, and `KInv.copyProcess` shows that there are no others.
-/

namespace CherryOS
namespace Kernel

open Mm Lib

/-- The state `copy_mem` leaves, with new segments for `p` and new memory. -/
def State.withSpace (s : State) (p : TaskPtr) (ldt : Fin 3 → SegDesc) (m : Mem) : State :=
  { s.setTask p { s.task p with ldt := ldt } with mem := m }

section copyMem

variable {managed : Nat → Prop} {u : Fin NUMBER_OF_TASKS → Option Nat} {s : State}
  {i nr : Fin NUMBER_OF_TASKS} {p : TaskPtr} {limit : U32} {n : Nat}

/-- The descriptors of the child. -/
def childLdt (s : State) (p : TaskPtr) (limit : U32) (nr : Nat) : Fin 3 → SegDesc :=
  ![(s.task p).ldt 0, userSeg limit 0xFA nr, userSeg limit 0xF2 nr]

/-- `copy_mem` with what the segment functions give put in. -/
theorem copyMem_eq (hul : UserLimit limit)
    (hc : (s.task s.current).ldt 1 = userSeg limit 0xFA i)
    (hd : (s.task s.current).ldt 2 = userSeg limit 0xF2 i)
    (hlim : getSegmentLimit (s.task s.current).ldt 0x000F =
      getSegmentLimit (s.task s.current).ldt 0x0017)
    (hldt : (s.task p).ldt = (s.task s.current).ldt) :
    s.copyMem nr p =
      if nr = 1 then s.mem.initTask1Paging >>= fun mem =>
        .ok (s.withSpace p (childLdt s p 0xFF nr) mem, 0)
      else s.mem.copyPageTables (windowBase i) (windowBase nr)
          (getSegmentLimit (s.task s.current).ldt 0x0017) >>= fun r =>
        if r.2 ≠ 0 then
          r.1.freePageTables (windowBase nr) (getSegmentLimit (s.task s.current).ldt 0x0017) >>=
            fun mem => .ok (s.withSpace p (childLdt s p limit nr) mem, -ENOMEM)
        else .ok (s.withSpace p (childLdt s p limit nr) r.1, 0) := by
  have hi64 : i.val < 64 := i.isLt
  have hnr64 : nr.val < 64 := nr.isLt
  have hbd : getSegmentBase ((s.task s.current).ldt 2) = windowBase i := by
    rw [hd, getSegmentBase_userSeg hul (Or.inr rfl) hi64]
  have hbase : ¬ getSegmentBase ((s.task s.current).ldt 1) ≠
      getSegmentBase ((s.task s.current).ldt 2) := by
    rw [hbd, hc, getSegmentBase_userSeg hul (Or.inl rfl) hi64]
    exact fun hc => hc rfl
  have hlimit : ¬ getSegmentLimit (s.task s.current).ldt 0x0017 <
      getSegmentLimit (s.task s.current).ldt 0x000F := by
    rw [hlim]
    exact BitVec.lt_irrefl _
  have hcode : setSegmentBase ((s.task p).ldt 1) (windowBase nr) = userSeg limit 0xFA nr := by
    rw [hldt, hc, setSegmentBase_userSeg hul (Or.inl rfl) hi64 hnr64]
  have hdata : setSegmentBase ((s.task p).ldt 2) (windowBase nr) = userSeg limit 0xF2 nr := by
    rw [hldt, hd, setSegmentBase_userSeg hul (Or.inr rfl) hi64 hnr64]
  simp only [State.copyMem]
  rw [if_neg hbase, if_neg hlimit, hcode, hdata, hbd,
    setSegmentLimit_userSeg hul (Or.inl rfl) hnr64, setSegmentLimit_userSeg hul (Or.inr rfl) hnr64]
  rfl

/-- The child in slot 1 gets a window of its own, unless there is no page for its table. -/
theorem copyMem_init (h : MmInv managed u s.mem) (h1 : nr = 1)
    (hzero : ∀ k < 16, s.mem.phys (16 * nr.val + k) = 0)
    (heq : s.copyMem nr p = s.mem.initTask1Paging >>= fun mem =>
      .ok (s.withSpace p (childLdt s p 0xFF nr) mem, 0)) :
    (s.mem.getFreePage = none ∧ s.copyMem nr p = .error (.panic "init task1 failed\n")) ∨
      ∃ ldt m', MmInv managed u m' ∧ OnlyIn (InWindow nr 16) u s.mem m' ∧
        s.copyMem nr p = .ok (s.withSpace p ldt m', 0) ∧ Window m' nr ldt := by
  have hval : nr.val = 1 := by rw [h1]; rfl
  have h16 : s.mem.phys 16 = 0 := by
    have := hzero 0 (by omega)
    rwa [hval] at this
  rcases h.initTask1Paging h16 with ⟨hno, herr⟩ | ⟨m', hm', h', hon, ht⟩
  · left
    exact ⟨hno, by rw [heq, herr]; rfl⟩
  · right
    refine ⟨_, m', h', hon.mono ?_, by rw [heq, hm']; rfl, ?_⟩
    · rw [hval]
      exact fun d ⟨k, hk, hd⟩ => ⟨k, by omega, hd⟩
    · refine ⟨0xFF, 1, Or.inr ⟨rfl, rfl⟩, rfl, rfl, fun k hk => ?_, fun k hk hk' => ?_⟩
      · have hk0 : 16 * nr.val + k = 16 := by omega
        rw [hk0]
        exact ⟨by rw [ht.1]; decide, fun _ => ht⟩
      · rw [hon.dir _ (by omega), hzero k hk']
        intro ⟨l, hl, heq⟩
        omega

/-- The child in a slot from 2 on gets a copy of the parent's window.  When the memory does
not suffice, what was copied is freed again. -/
theorem copyMem_copy (h : MmInv managed u s.mem) {size : U32} (hne : i ≠ nr) (h2 : 2 ≤ nr.val)
    (hn : n ≤ 4) (hsize : Mem.nrOfDirEnt size = n) (hlimit : limit = 0xFFF ∧ n = 4 ∨
      limit = 0xFF ∧ n = 1) (hsrc : ∀ k < n, s.mem.phys (16 * i.val + k) &&& 1 ≠ 0)
    (hzero : ∀ k < 16, s.mem.phys (16 * nr.val + k) = 0)
    (heq : s.copyMem nr p = s.mem.copyPageTables (windowBase i) (windowBase nr) size >>= fun r =>
      if r.2 ≠ 0 then r.1.freePageTables (windowBase nr) size >>= fun mem =>
        .ok (s.withSpace p (childLdt s p limit nr) mem, -ENOMEM)
      else .ok (s.withSpace p (childLdt s p limit nr) r.1, 0)) :
    ∃ ldt m', MmInv managed u m' ∧ OnlyIn (InWindow nr 16) u s.mem m' ∧
      ((s.copyMem nr p = .ok (s.withSpace p ldt m', 0) ∧ Window m' nr ldt) ∨
        (s.copyMem nr p = .ok (s.withSpace p ldt m', -ENOMEM) ∧
          (∀ k < 3840, m'.memMap k = s.mem.memMap k) ∧
          (∀ d < 1024, m'.phys d = s.mem.phys d) ∧ ∀ o, holds u m' o = holds u s.mem o)) := by
  have hnr64 : nr.val < 64 := nr.isLt
  obtain ⟨m', ret, hm', h', hon, hpart, hall⟩ := h.copyWindow i.isLt hnr64
    (fun hc => hne (Fin.ext hc)) (by omega) hsize hsrc (fun k hk => hzero k (by omega))
  rw [hm', ok_bind] at heq
  dsimp only at heq
  have hin : ∀ d, InWindow nr n d → InWindow nr 16 d := fun d ⟨k, hk, hd⟩ => ⟨k, by omega, hd⟩
  by_cases hret : ret = 0
  · refine ⟨childLdt s p limit nr, m', h', hon.mono hin,
      Or.inl ⟨by rw [heq, if_neg (not_not.mpr hret)], ?_⟩⟩
    refine ⟨limit, n, hlimit, rfl, rfl, fun k hk => ?_, fun k hk hk' => ?_⟩
    · have ht := hall hret k hk
      exact ⟨by rw [ht.1]; decide, fun _ => ht⟩
    · rw [hon.dir _ (by omega), hzero k hk']
      intro ⟨l, hl, heq⟩
      omega
  · obtain ⟨m'', hm'', h'', hon'', hz''⟩ := h'.freeWindow hnr64 h2 (by omega) hsize hpart
    have hboth := hon.trans hon''
    obtain ⟨hdir, hholds⟩ := MmInv.holds_eq_of_empty hboth (fun k hk => hzero k (by omega)) hz''
    refine ⟨childLdt s p limit nr, m'', h'', hboth.mono hin,
      Or.inr ⟨?_, fun k hk => h.memMap_eq h'' hholds hk, hdir, hholds⟩⟩
    rw [heq, if_pos hret, hm'']
    rfl

theorem copyMem_cases (h : MmInv managed u s.mem) (hne : i ≠ nr) (hnr : nr ≠ 0)
    (hw : Window s.mem i (s.task s.current).ldt)
    (hldt : (s.task p).ldt = (s.task s.current).ldt)
    (hzero : ∀ k < 16, s.mem.phys (16 * nr.val + k) = 0) :
    (nr = 1 ∧ s.mem.getFreePage = none ∧
        s.copyMem nr p = .error (.panic "init task1 failed\n")) ∨
      ∃ ldt m', MmInv managed u m' ∧ OnlyIn (InWindow nr 16) u s.mem m' ∧
        ((s.copyMem nr p = .ok (s.withSpace p ldt m', 0) ∧ Window m' nr ldt) ∨
          (s.copyMem nr p = .ok (s.withSpace p ldt m', -ENOMEM) ∧ nr ≠ 1 ∧
            (∀ k < 3840, m'.memMap k = s.mem.memMap k) ∧
            (∀ d < 1024, m'.phys d = s.mem.phys d) ∧ ∀ o, holds u m' o = holds u s.mem o)) := by
  obtain ⟨limit, n, hul, hn, hc, hd, _, _, hlim, hent, hone, hfour, hpres, _⟩ :=
    hw.segments i.isLt
  have heq : s.copyMem nr p = _ := copyMem_eq hul hc hd hlim hldt
  by_cases h1 : nr = 1
  · rw [if_pos h1] at heq
    rcases copyMem_init h h1 hzero heq with ⟨hno, herr⟩ | ⟨ldt, m', h', hon, hok, hwin⟩
    · exact Or.inl ⟨h1, hno, herr⟩
    · exact Or.inr ⟨ldt, m', h', hon, Or.inl ⟨hok, hwin⟩⟩
  · rw [if_neg h1] at heq
    have h2 : 2 ≤ nr.val := by
      have hnr0 : nr.val ≠ 0 := fun hc => hnr (Fin.ext hc)
      have hnr1 : nr.val ≠ 1 := fun hc => h1 (Fin.ext hc)
      omega
    have hlimit : limit = 0xFFF ∧ n = 4 ∨ limit = 0xFF ∧ n = 1 :=
      hul.imp (fun hl => ⟨hl, hfour hl⟩) fun hl => ⟨hl, hone hl⟩
    obtain ⟨ldt, m', h', hon, hres | ⟨hfail, hmap, hdir, hholds⟩⟩ :=
      copyMem_copy h hne h2 hn hent hlimit (fun k hk => (hpres k hk).1) hzero heq
    · exact Or.inr ⟨ldt, m', h', hon, Or.inl hres⟩
    · exact Or.inr ⟨ldt, m', h', hon, Or.inr ⟨hfail, h1, hmap, hdir, hholds⟩⟩

end copyMem

theorem findEmptySlot_spec {s : Tasks} {nr : Fin NUMBER_OF_TASKS}
    (h : s.findEmptySlot = some nr) :
    nr ≠ 0 ∧ s.tasksPtr nr = none ∧ (s.tasksPtr 1 = none → nr = 1) := by
  have hnone : s.tasksPtr nr = none := by simpa using List.find?_some h
  refine ⟨Tasks.mem_userSlots.mp (List.mem_of_find?_eq_some h), hnone, fun h1 => ?_⟩
  have hhead : Tasks.userSlots.head? = some 1 := by
    unfold Tasks.userSlots
    decide +kernel
  obtain ⟨l, hl⟩ := List.head?_eq_some_iff.mp hhead
  rw [Tasks.findEmptySlot, hl, List.find?_cons, h1] at h
  exact (Option.some.inj h).symm

/-- The ways a call of `copy_process` can end. -/
inductive ForkOutcome (managed : Nat → Prop) (s : State) : Except Fault (State × Int32) → Prop
  | tableFull (pid : Int32) : s.findEmptySlot = none →
      s.findPid (NUMBER_OF_TASKS + 1) s.lastPid = some pid →
      ForkOutcome managed s (.ok ({ s with lastPid := pid }, -EAGAIN))
  | noUnion : s.mem.getFreePage = none → ForkOutcome managed s (.error .nullStore)
  | noInit : s.tasksPtr 1 = none →
      ForkOutcome managed s (.error (.panic "init task1 failed\n"))
  | failed (s' : State) : KInv managed s' → s'.tasksPtr = s.tasksPtr →
      (∀ nr q, s.tasksPtr nr = some q → s'.task q = s.task q) →
      (∀ i < 3840, s'.mem.memMap i = s.mem.memMap i) →
      (∀ d < 1024, s'.mem.phys d = s.mem.phys d) → s.tasksPtr 1 ≠ none →
      s.findPid (NUMBER_OF_TASKS + 1) s.lastPid = some s'.lastPid →
      ForkOutcome managed s (.ok (s', -EAGAIN))
  | child (s' : State) (nr : Fin NUMBER_OF_TASKS) (pid : Int32) (p : TaskPtr) :
      KInv managed s' → nr ≠ 0 → s.tasksPtr nr = none → (s.tasksPtr 1 = none → nr = 1) →
      s.findPid (NUMBER_OF_TASKS + 1) s.lastPid = some pid →
      (∀ j, s.tasksPtr j ≠ some p) → s'.tasksPtr = Function.update s.tasksPtr nr (some p) →
      (∀ q, q ≠ p → s'.task q = s.task q) → (s'.task p).pid = pid →
      (s'.task p).father = (s.task s.current).pid → (s'.task p).state = .running →
      s'.lastPid = pid → ForkOutcome managed s (.ok (s', pid))

/-- The task in slot `i` is forking; the fork has found slot `nr` and the frame `f`. -/
structure Started (managed : Nat → Prop) (s : State) (i nr : Fin NUMBER_OF_TASKS) (f : Nat) :
    Prop where
  inv : KInv managed s
  cur : s.tasksPtr i = some s.current
  live : (s.task s.current).state ≠ .zombie
  slot : nr ≠ 0
  vacant : s.tasksPtr nr = none
  frame : managed f
  small : f < 4096
  free : s.mem.memMap (f - 256) = 0

/-- The state in which `copy_process` calls `copy_mem`. -/
def State.started (s : State) (regs : ForkRegs) (pid : Int32) (nr : Fin NUMBER_OF_TASKS)
    (f : Nat) : State :=
  State.beginChild regs nr (Mem.frameAddr f) { s with lastPid := pid, mem := s.mem.taken f }

/-- The record of the child. -/
def childPtr (f : Nat) : TaskPtr := .frame (Mem.frameAddr f)

namespace Started

variable {managed : Nat → Prop} {s : State} {i nr : Fin NUMBER_OF_TASKS} {f : Nat}

theorem fresh (h : Started managed s i nr f) (j : Fin NUMBER_OF_TASKS) :
    s.tasksPtr j ≠ some (childPtr f) := h.inv.fresh h.frame h.small h.free j

theorem parent_ne (h : Started managed s i nr f) : s.current ≠ childPtr f :=
  fun hc => h.fresh i (hc ▸ h.cur)

theorem slot_ne (h : Started managed s i nr f) : i ≠ nr := by
  intro hc
  have := h.cur
  rw [hc, h.vacant] at this
  cases this

theorem task (s : State) (regs : ForkRegs) (pid : Int32) (nr : Fin NUMBER_OF_TASKS) (f : Nat)
    (q : TaskPtr) : (s.started regs pid nr f).task q =
      if q = childPtr f then State.childTask nr (Mem.frameAddr f) regs pid (s.task s.current)
      else s.task q := Tasks.setTask_task _ _ _ _

theorem unionFrame_none (h : Started managed s i nr f) : s.unionFrame nr = none := by
  rw [Tasks.unionFrame, h.vacant]

theorem unionFrame_child (h : Started managed s i nr f) {s' : State}
    (hptr : s'.tasksPtr = Function.update s.tasksPtr nr (some (childPtr f))) :
    s'.unionFrame = Function.update s.unionFrame nr (some f) := by
  funext j
  rw [Tasks.unionFrame, hptr]
  by_cases hj : j = nr
  · rw [hj, Function.update_self, Function.update_self]
    show some ((Mem.frameAddr f).toNat / 4096) = some f
    rw [Mem.frameAddr_toNat h.small, Nat.mul_div_cancel _ (by decide)]
  · rw [Function.update_of_ne hj, Function.update_of_ne hj, Tasks.unionFrame]

/-- The frame of the child is taken; nothing else has changed hands. -/
theorem taken (h : Started managed s i nr f) :
    MmInv managed (Function.update s.unionFrame nr (some f)) (s.mem.taken f) ∧
      (∀ d < 1024, (s.mem.taken f).phys d = s.mem.phys d) ∧
      ∀ o, o ≠ .taskUnion nr → holds (Function.update s.unionFrame nr (some f)) (s.mem.taken f) o =
        holds s.unionFrame s.mem o :=
  h.inv.mm.takeUnion h.unionFrame_none h.frame h.free

theorem copyMem (h : Started managed s i nr f) (regs : ForkRegs) (pid : Int32) :
    (nr = 1 ∧ (s.mem.taken f).getFreePage = none ∧
        (s.started regs pid nr f).copyMem nr (childPtr f) =
          .error (.panic "init task1 failed\n")) ∨
      ∃ ldt m', MmInv managed (Function.update s.unionFrame nr (some f)) m' ∧
        OnlyIn (InWindow nr 16) (Function.update s.unionFrame nr (some f)) (s.mem.taken f) m' ∧
        (((s.started regs pid nr f).copyMem nr (childPtr f) =
            .ok ((s.started regs pid nr f).withSpace (childPtr f) ldt m', 0) ∧ Window m' nr ldt) ∨
          ((s.started regs pid nr f).copyMem nr (childPtr f) =
            .ok ((s.started regs pid nr f).withSpace (childPtr f) ldt m', -ENOMEM) ∧ nr ≠ 1 ∧
            (∀ k < 3840, m'.memMap k = (s.mem.taken f).memMap k) ∧
            (∀ d < 1024, m'.phys d = (s.mem.taken f).phys d) ∧
            ∀ o, holds (Function.update s.unionFrame nr (some f)) m' o =
              holds (Function.update s.unionFrame nr (some f)) (s.mem.taken f) o)) := by
  obtain ⟨hm₁, hdir₁, _⟩ := h.taken
  have hi64 : i.val < 64 := i.isLt
  have hnr64 : nr.val < 64 := nr.isLt
  have hcur : ((s.started regs pid nr f).task s.current) = s.task s.current := by
    rw [task, if_neg h.parent_ne]
  refine copyMem_cases (s := s.started regs pid nr f) hm₁ h.slot_ne h.slot ?_ ?_ fun k hk => ?_
  · show Window (s.mem.taken f) i ((s.started regs pid nr f).task s.current).ldt
    rw [hcur]
    exact (h.inv.live i _ h.cur h.live).congr fun k hk => hdir₁ _ (by omega)
  · show ((s.started regs pid nr f).task (childPtr f)).ldt =
      ((s.started regs pid nr f).task s.current).ldt
    rw [hcur, task, if_pos rfl]
    rfl
  · show (s.mem.taken f).phys (16 * nr.val + k) = 0
    rw [hdir₁ _ (by omega)]
    refine h.inv.empty nr h.slot (fun q hq => ?_) k hk
    rw [h.vacant] at hq
    cases hq

/-- The child that `copy_mem` has given a window takes its place in the table. -/
theorem child (h : Started managed s i nr f) {s' : State} {ldt : Fin 3 → SegDesc} {t : TaskStruct}
    (hm : MmInv managed (Function.update s.unionFrame nr (some f)) s'.mem)
    (hon : OnlyIn (InWindow nr 16) (Function.update s.unionFrame nr (some f)) (s.mem.taken f) s'.mem)
    (hwin : Window s'.mem nr ldt)
    (hptr : s'.tasksPtr = Function.update s.tasksPtr nr (some (childPtr f)))
    (htask : ∀ q, s'.task q =
      if q = childPtr f then { t with ldt := ldt, state := .running } else s.task q) :
    KInv managed s' := by
  obtain ⟨_, hdir₁, _⟩ := h.taken
  have hother : ∀ j q, j ≠ nr → s'.tasksPtr j = some q →
      s.tasksPtr j = some q ∧ s'.task q = s.task q := by
    intro j q hj hq
    rw [hptr, Function.update_of_ne hj] at hq
    have hqp : q ≠ childPtr f := fun hc => h.fresh j (hc ▸ hq)
    exact ⟨hq, by rw [htask, if_neg hqp]⟩
  have hwindows : ∀ j : Fin NUMBER_OF_TASKS, j ≠ nr → ∀ k < 16,
      s'.mem.phys (16 * j.val + k) = s.mem.phys (16 * j.val + k) := by
    intro j hj k hk
    have hj64 : j.val < 64 := j.isLt
    rw [outside_window hon le_rfl hj64 (fun hc => hj (Fin.ext hc)) k hk, hdir₁ _ (by omega)]
  refine ⟨by rw [h.unionFrame_child hptr]; exact hm, ?_, ?_, fun j q hj hq => ?_,
    fun j q hq hz => ?_, fun j hj hall k hk => ?_⟩
  · rw [hptr, Function.update_of_ne (Ne.symm h.slot), h.inv.slot0]
  · rw [htask, if_neg (fun hc => by cases hc)]
    exact h.inv.idle
  · by_cases hjn : j = nr
    · rw [hjn, hptr, Function.update_self] at hq
      cases hq
      exact ⟨f, h.small, rfl⟩
    · exact h.inv.frame j q hj (hother j q hjn hq).1
  · by_cases hjn : j = nr
    · rw [hjn, hptr, Function.update_self] at hq
      cases hq
      rw [hjn, htask, if_pos rfl]
      exact hwin
    · obtain ⟨hq₀, htq⟩ := hother j q hjn hq
      rw [htq] at hz ⊢
      exact (h.inv.live j q hq₀ hz).congr (hwindows j hjn)
  · have hjn : j ≠ nr := by
      intro hc
      have := hall (childPtr f) (by rw [hc, hptr, Function.update_self])
      rw [htask, if_pos rfl] at this
      cases this
    rw [hwindows j hjn k hk]
    refine h.inv.empty j hj (fun q hq => ?_) k hk
    have hq' : s'.tasksPtr j = some q := by rw [hptr, Function.update_of_ne hjn, hq]
    rw [← (hother j q hjn hq').2]
    exact hall q hq'

end Started

/-- `copy_process` from the frame of the child on. -/
theorem State.copyProcess_started {s : State} {pid : Int32} {nr : Fin NUMBER_OF_TASKS} {f : Nat}
    (hpid : s.findPid (NUMBER_OF_TASKS + 1) s.lastPid = some pid) (hslot : s.findEmptySlot = some nr)
    (hpage : s.mem.getFreePage = some (Mem.frameAddr f, s.mem.taken f)) (regs : ForkRegs) :
    s.copyProcess regs = ((s.started regs pid nr f).copyMem nr (childPtr f) >>= fun r =>
      if r.2 ≠ 0 then r.1.dropChild nr (Mem.frameAddr f) >>= fun s' => .ok (s', -EAGAIN)
      else .ok (r.1.finishChild nr (Mem.frameAddr f),
        (r.1.finishChild nr (Mem.frameAddr f)).lastPid)) := by
  rw [State.copyProcess, State.findEmptyProcess_of hpid, hslot]
  simp only [ok_bind, hpage]
  rfl

namespace Started

variable {managed : Nat → Prop} {s : State} {i nr : Fin NUMBER_OF_TASKS} {f : Nat}
  {pid : Int32} {m : Mem}

/-- With a window for the child the call returns its pid. -/
theorem finished (h : Started managed s i nr f) (regs : ForkRegs) {ldt : Fin 3 → SegDesc}
    (hfirst : s.tasksPtr 1 = none → nr = 1)
    (hpid : s.findPid (NUMBER_OF_TASKS + 1) s.lastPid = some pid)
    (hm : MmInv managed (Function.update s.unionFrame nr (some f)) m)
    (hon : OnlyIn (InWindow nr 16) (Function.update s.unionFrame nr (some f)) (s.mem.taken f) m)
    (hwin : Window m nr ldt) :
    ForkOutcome managed s (.ok (((s.started regs pid nr f).withSpace (childPtr f) ldt m).finishChild
      nr (Mem.frameAddr f), pid)) := by
  obtain ⟨s', hs'⟩ : ∃ s', s' = ((s.started regs pid nr f).withSpace (childPtr f) ldt
    m).finishChild nr (Mem.frameAddr f) := ⟨_, rfl⟩
  have htask : ∀ q, s'.task q = if q = childPtr f then
      { (s.started regs pid nr f).task (childPtr f) with ldt := ldt, state := .running }
      else s.task q := by
    intro q
    have hq₁ := task s regs pid nr f q
    rw [hs']
    by_cases hq : q = childPtr f
    · rw [if_pos hq, hq]
      simp [State.finishChild, State.withSpace, State.setTask, Tasks.setTask, childPtr]
    · rw [if_neg hq] at hq₁ ⊢
      rw [← hq₁]
      rw [childPtr] at hq
      simp [State.finishChild, State.withSpace, State.setTask, Tasks.setTask, childPtr, hq]
  have hmem : s'.mem = m := by rw [hs']; rfl
  have hptr : s'.tasksPtr = Function.update s.tasksPtr nr (some (childPtr f)) := by
    rw [hs']
    rfl
  have hlast : s'.lastPid = pid := by rw [hs']; rfl
  have hinv := h.child (by rwa [hmem]) (by rwa [hmem]) (by rwa [hmem]) hptr htask
  rw [← hs']
  refine .child s' nr pid (childPtr f) hinv h.slot h.vacant hfirst hpid h.fresh hptr
    (fun q hq => ?_) ?_ ?_ ?_ hlast
  · rw [htask, if_neg hq]
  · rw [htask, if_pos rfl, task, if_pos rfl]
    rfl
  · rw [htask, if_pos rfl, task, if_pos rfl]
    rfl
  · rw [htask, if_pos rfl]

/-- When the window could not be filled the child's frame is given back, and all is as it was
before but for the pid. -/
theorem dropped (h : Started managed s i nr f) (regs : ForkRegs) (ldt : Fin 3 → SegDesc)
    (h1 : s.tasksPtr 1 ≠ none)
    (hpid : s.findPid (NUMBER_OF_TASKS + 1) s.lastPid = some pid)
    (hm : MmInv managed (Function.update s.unionFrame nr (some f)) m)
    (hdir : ∀ d < 1024, m.phys d = (s.mem.taken f).phys d)
    (hholds : ∀ o, holds (Function.update s.unionFrame nr (some f)) m o =
      holds (Function.update s.unionFrame nr (some f)) (s.mem.taken f) o) :
    ∃ s', ((s.started regs pid nr f).withSpace (childPtr f) ldt m).dropChild nr
        (Mem.frameAddr f) = .ok s' ∧ ForkOutcome managed s (.ok (s', -EAGAIN)) := by
  obtain ⟨_, hdir₁, hsame₁⟩ := h.taken
  obtain ⟨m', hfree, hphys, hm', hsame⟩ := hm.freeUnion
    (Function.update_self nr (some f) s.unionFrame) (Mem.frameAddr_toNat h.small)
  have hunion : Function.update (Function.update s.unionFrame nr (some f)) nr none =
      s.unionFrame := by
    rw [Function.update_idem, Function.update_eq_self_iff, h.unionFrame_none]
  rw [hunion] at hm' hsame
  obtain ⟨s', hs'⟩ : ∃ s', s' = { ((s.started regs pid nr f).withSpace (childPtr f) ldt
    m).setSlot nr none with mem := m' } := ⟨_, rfl⟩
  have hdrop : ((s.started regs pid nr f).withSpace (childPtr f) ldt m).dropChild nr
      (Mem.frameAddr f) = .ok s' := by
    show (m.freePage (Mem.frameAddr f) >>= _) = _
    rw [hfree, ok_bind, hs']
  have hptr : s'.tasksPtr = s.tasksPtr := by
    have : s'.tasksPtr =
        Function.update (Function.update s.tasksPtr nr (some (childPtr f))) nr none := by
      rw [hs']
      rfl
    rw [this, Function.update_idem, Function.update_eq_self_iff, h.vacant]
  have htask : ∀ j q, s.tasksPtr j = some q → s'.task q = s.task q := by
    intro j q hq
    have hqp : q ≠ childPtr f := fun hc => h.fresh j (hc ▸ hq)
    rw [hs']
    show ((s.started regs pid nr f).toTasks.setTask (childPtr f) _).task q = _
    rw [Tasks.setTask_task, if_neg hqp, task, if_neg hqp]
  have hmem : s'.mem = m' := by rw [hs']
  have hunion' : s'.unionFrame = s.unionFrame := by
    funext j
    rw [Tasks.unionFrame, hptr, Tasks.unionFrame]
  have hdir' : ∀ d < 1024, s'.mem.phys d = s.mem.phys d := by
    intro d hd
    rw [hmem, hphys, hdir d hd, hdir₁ d hd]
  have hinv : KInv managed s' := by
    refine h.inv.congr (by rw [hunion', hmem]; exact hm') hptr hdir' fun j q hq => ?_
    rw [htask j q hq]
    exact ⟨rfl, Iff.rfl⟩
  have hlast : s'.lastPid = pid := by rw [hs']; rfl
  refine ⟨s', hdrop, .failed s' hinv hptr htask (fun k hk => ?_) hdir' h1 (by rw [hlast, hpid])⟩
  rw [hmem]
  refine h.inv.mm.memMap_eq hm' (fun o => ?_) hk
  by_cases ho : o = .taskUnion nr
  · rw [ho, holds_taskUnion, holds_taskUnion]
  · rw [hsame o ho, hholds o, hsame₁ o ho]

end Started

theorem KInv.copyProcess {managed : Nat → Prop} {s : State} (h : KInv managed s)
    {i : Fin NUMBER_OF_TASKS} (hi : s.tasksPtr i = some s.current)
    (hlive : (s.task s.current).state ≠ .zombie) (regs : ForkRegs) :
    ForkOutcome managed s (s.copyProcess regs) := by
  obtain ⟨pid, hpid⟩ := s.findPid_isSome s.lastPid
  have hfind := State.findEmptyProcess_of hpid
  cases hslot : s.findEmptySlot with
  | none =>
    have hres : s.copyProcess regs = .ok ({ s with lastPid := pid }, -EAGAIN) := by
      rw [State.copyProcess, hfind, hslot]
      rfl
    rw [hres]
    exact .tableFull pid hslot hpid
  | some nr =>
    obtain ⟨hnr, hnone, hfirst⟩ := findEmptySlot_spec hslot
    rcases h.mm.getFreePage with hno | ⟨f, hf, hhi, h0, hpage⟩
    · have hres : s.copyProcess regs = .error .nullStore := by
        rw [State.copyProcess, hfind, hslot]
        simp only [ok_bind, hno]
      rw [hres]
      exact .noUnion hno
    · have hst : Started managed s i nr f := ⟨h, hi, hlive, hnr, hnone, hf, hhi, h0⟩
      have hres := State.copyProcess_started hpid hslot hpage regs
      rcases hst.copyMem regs pid with ⟨h1, _, herr⟩ |
        ⟨ldt, m, hm, hon, ⟨hok, hwin⟩ | ⟨hfail, hne1, _, hdir, hholds⟩⟩
      · rw [hres, herr, error_bind]
        exact .noInit (by rwa [h1] at hnone)
      · rw [hres, hok, ok_bind, if_neg (not_not.mpr rfl)]
        exact hst.finished regs hfirst hpid hm hon hwin
      · obtain ⟨s', hdrop, houtcome⟩ := hst.dropped regs ldt (fun h1 => hne1 (hfirst h1))
          hpid hm hdir hholds
        have hret : -ENOMEM ≠ 0 := by decide
        rw [hres, hfail, ok_bind, if_pos hret, hdrop, ok_bind]
        exact houtcome

end Kernel
end CherryOS
