import CherryOS.Kernel.CallRuns
import CherryOS.Kernel.FindEmptyProcess
import CherryOS.Kernel.ManyTasks
import CherryOS.Kernel.SigMask

/-!
# Whole lives

No slot of the task table is given up: `release` is for a zombie whose father is not there,
and every father is.  So 63 forks succeed in a run at most, and then all of them fail.

`do_signal` looks at the signals that are pending and blocked.  Only `sys_ssetmask` and the
delivery of a signal block any, so in a run without `sys_ssetmask` nothing is ever delivered:
what is pending stays so, and a task dies by its own call of exit alone.
-/

namespace CherryOS
namespace Kernel

open Lib Mm SystemCall

/-- Who is in the table keeps its slot, and its record is related to what it was. -/
def Lasts (R : Fin NUMBER_OF_TASKS → TaskStruct → TaskStruct → Prop) (s s' : State) : Prop :=
  ∀ i p, s.tasksPtr i = some p → s'.tasksPtr i = some p ∧ R i (s.task p) (s'.task p)

namespace Lasts

variable {R : Fin NUMBER_OF_TASKS → TaskStruct → TaskStruct → Prop} {s t u : State}

theorem refl (hR : ∀ i x, R i x x) (s : State) : Lasts R s s := fun i _ hp => ⟨hp, hR i _⟩

theorem trans (hR : ∀ i x y z, R i x y → R i y z → R i x z) (h : Lasts R s t)
    (h' : Lasts R t u) : Lasts R s u := by
  intro i p hp
  obtain ⟨ht, hst⟩ := h i p hp
  obtain ⟨hu, htu⟩ := h' i p ht
  exact ⟨hu, hR i _ _ _ hst htu⟩

theorem mono {R' : Fin NUMBER_OF_TASKS → TaskStruct → TaskStruct → Prop} (h : Lasts R s t)
    (hR : ∀ i x y, R i x y → R' i x y) : Lasts R' s t :=
  fun i p hp => ⟨(h i p hp).1, hR i _ _ (h i p hp).2⟩

theorem of_calm {C : TaskStruct → TaskStruct → Prop} (h : s.Calm C t)
    (hR : ∀ i x y, C x y → R i x y) : Lasts R s t := by
  intro i p hp
  rw [h.tasks.tasksPtr]
  exact ⟨hp, hR i _ _ (h.tasks.task p)⟩

end Lasts

def SamePid (_ : Fin NUMBER_OF_TASKS) (x y : TaskStruct) : Prop := y.pid = x.pid

theorem SamePid.refl (i : Fin NUMBER_OF_TASKS) (x : TaskStruct) : SamePid i x x := rfl

theorem SamePid.trans (i : Fin NUMBER_OF_TASKS) (x y z : TaskStruct) (h : SamePid i x y)
    (h' : SamePid i y z) : SamePid i x z := Eq.trans h' h

/-! ## Forks -/

section
variable {managed : Nat → Prop} {s s' : State} {i : Fin NUMBER_OF_TASKS} {regs : ForkRegs}
  {ret : Int32}

/-- A fork leaves the tasks that are there alone. -/
theorem Healthy.fork_lasts (h : Healthy managed s) (hr : s.Runs i)
    (hok : s.copyProcess regs = .ok (s', ret)) : Lasts (fun _ x y => y = x) s s' := by
  have hout := h.sound.inv.copyProcess hr.slot hr.live regs
  rw [hok] at hout
  intro j p hp
  cases hout with
  | tableFull pid _ _ => exact ⟨hp, rfl⟩
  | failed _ _ hptr htask _ _ _ _ => exact ⟨by rw [hptr]; exact hp, htask j p hp⟩
  | child _ nr pid q _ _ hnone _ _ hnew hptr htask _ _ _ _ =>
    have hpq : p ≠ q := fun hc => hnew j (hc ▸ hp)
    have hjnr : j ≠ nr := by
      intro hc
      rw [hc, hnone] at hp
      cases hp
    refine ⟨?_, htask p hpq⟩
    rw [hptr, Function.update_of_ne hjnr]
    exact hp

/-- A fork fails and leaves the table as it is, or fills a slot with a task whose pid it
returns. -/
theorem Healthy.fork_result (h : Healthy managed s) (hr : s.Runs i)
    (hok : s.copyProcess regs = .ok (s', ret)) :
    (ret = -EAGAIN ∧ s'.tasksPtr = s.tasksPtr) ∨
      0 < ret.toInt ∧ ∃ j p, s.tasksPtr j = none ∧
        s'.tasksPtr = Function.update s.tasksPtr j (some p) ∧ (s'.task p).pid = ret := by
  have hout := h.sound.inv.copyProcess hr.slot hr.live regs
  rw [hok] at hout
  cases hout with
  | tableFull pid _ _ => exact Or.inl ⟨rfl, rfl⟩
  | failed _ _ hptr _ _ _ _ _ => exact Or.inl ⟨rfl, hptr⟩
  | child _ nr pid q _ _ hnone _ hpid _ hptr _ hq _ _ _ =>
    exact Or.inr ⟨(h.tree.newPid h.sound hpid).2.1, nr, q, hnone, hptr, hq⟩

/-- When the table is full a fork fails. -/
theorem State.copyProcess_full (hfull : s.findEmptySlot = none) (regs : ForkRegs) :
    ∃ pid, s.copyProcess regs = .ok ({ s with lastPid := pid }, -EAGAIN) := by
  obtain ⟨pid, hpid⟩ := s.findPid_isSome s.lastPid
  refine ⟨pid, ?_⟩
  rw [State.copyProcess, State.findEmptyProcess_of hpid, hfull]
  rfl

end

/-! ## The table over a run -/

/-- The slots in use. -/
def State.used (s : State) : Finset (Fin NUMBER_OF_TASKS) :=
  Finset.univ.filter fun i => (s.tasksPtr i).isSome

namespace State

variable {s t : State}

theorem used_congr (h : t.tasksPtr = s.tasksPtr) : t.used = s.used := by
  rw [used, used, h]

/-- A slot that was vacant is filled. -/
theorem used_fill {j : Fin NUMBER_OF_TASKS} {p : TaskPtr} (hj : s.tasksPtr j = none)
    (h : t.tasksPtr = Function.update s.tasksPtr j (some p)) : t.used.card = s.used.card + 1 := by
  have hused : t.used = insert j s.used := by
    ext i
    rw [used, Finset.mem_filter, h, Finset.mem_insert, used, Finset.mem_filter]
    by_cases hij : i = j
    · rw [hij, Function.update_self]
      simp
    · rw [Function.update_of_ne hij]
      simp [hij]
  have hvacant : j ∉ s.used := by
    rw [used, Finset.mem_filter, hj]
    simp
  rw [hused, Finset.card_insert_of_notMem hvacant]

end State

namespace SigState

/-- Whether an event is a fork that makes a child. -/
def givesBirth (s : SigState) : KernelEvent → Bool
  | .call nr eax regs =>
    decide ((KernelEvent.call nr eax regs).Asks nr .sysFork) &&
      ((s.onCpu nr).bind fun t => (t.serve .sysFork regs).toOption).any
        fun r => r.2 ≠ (-EAGAIN).toBitVec
  | _ => false

/-- The children that the events make, one after the other. -/
def births (s : SigState) : List KernelEvent → Nat
  | [] => 0
  | e :: es => (s.givesBirth e).toNat + (((s.after e).map fun t => t.births es).getD 0)

theorem givesBirth_of_not_asks (s : SigState) {e : KernelEvent}
    (h : ∀ j, ¬ e.Asks j .sysFork) : s.givesBirth e = false := by
  cases e with
  | call nr eax regs => rw [givesBirth, decide_eq_false (h nr), Bool.false_and]
  | _ => rfl

theorem givesBirth_of_serve {s t u : SigState} {nr : Fin NUMBER_OF_TASKS} {eax v : U32}
    {regs : ForkRegs} (ha : (KernelEvent.call nr eax regs).Asks nr .sysFork)
    (ht : s.onCpu nr = some t) (hok : t.serve .sysFork regs = .ok (u, v)) :
    s.givesBirth (.call nr eax regs) = decide (v ≠ (-EAGAIN).toBitVec) := by
  rw [givesBirth, decide_eq_true ha, ht, Option.bind_some, hok]
  rfl

end SigState

section
variable {managed : Nat → Prop} {s s' : SigState} {e : KernelEvent}

theorem Healthy.after_lasts (h : Healthy managed s.toState) (hs : s.after e = some s') :
    Lasts SamePid s.toState s'.toState := by
  rcases h.after hs with ⟨hstay, -⟩ | ⟨nr, eax, regs, t, v, -, -, ht, hok⟩
  · intro i p hp
    rw [hstay.slots]
    exact ⟨hp, hstay.pid p⟩
  · obtain ⟨hcalm, hr⟩ := SigState.onCpu_spec ht
    obtain ⟨u, ret, hcopy, rfl, -⟩ := SigState.serve_fork hok
    have hfork := (h.onCpu ht).healthy.fork_lasts hr hcopy
    have hcpu : Lasts SamePid s.toState t.toState := .of_calm hcalm fun _ _ _ hxy => hxy.pid
    refine hcpu.trans SamePid.trans (hfork.mono fun _ x y hxy => ?_)
    rw [SamePid, hxy]

/-- A child takes one slot, and nothing else changes how many are in use. -/
theorem Healthy.after_used (h : Healthy managed s.toState) (hs : s.after e = some s') :
    s'.used.card = s.used.card + (s.givesBirth e).toNat := by
  rcases h.after hs with ⟨hstay, hno⟩ | ⟨nr, eax, regs, t, v, rfl, ha, ht, hok⟩
  · rw [s.givesBirth_of_not_asks hno, State.used_congr hstay.slots]
    rfl
  · obtain ⟨hcalm, hr⟩ := SigState.onCpu_spec ht
    have hcpu : t.used = s.used := State.used_congr hcalm.tasks.tasksPtr
    rw [SigState.givesBirth_of_serve ha ht hok, ← hcpu]
    obtain ⟨u, ret, hcopy, rfl, rfl⟩ := SigState.serve_fork hok
    rcases (h.onCpu ht).healthy.fork_result hr hcopy with ⟨rfl, hptr⟩ | ⟨hpos, j, p, hj, hptr, -⟩
    · have hused : u.used = t.used := State.used_congr hptr
      rw [decide_eq_false (not_not.mpr rfl)]
      exact congrArg Finset.card hused
    · have hret : ret ≠ -EAGAIN := by
        intro hc
        rw [hc] at hpos
        exact absurd hpos (by decide)
      have hbits : ret.toBitVec ≠ (-EAGAIN).toBitVec := fun hc => hret (Int32.toBitVec_inj.mp hc)
      rw [decide_eq_true hbits]
      exact State.used_fill hj hptr

theorem Healthy.births (h : Healthy managed s.toState) {es : List KernelEvent}
    (hs : replay SigState.after s es = some s') : s'.used.card = s.used.card + s.births es := by
  induction es generalizing s with
  | nil =>
    cases hs
    rfl
  | cons e es ih =>
    obtain ⟨t, ht, hrest⟩ := Option.bind_eq_some_iff.mp hs
    rw [ih (h.step ht) hrest, h.after_used ht, SigState.births, ht, Nat.add_assoc]
    rfl

end

theorem Boot.used (b : Boot) (u : UserMem) : (b.sigState u).used = {0} := by
  ext i
  have hslot : (b.sigState u).tasksPtr i = if i = 0 then some .task0 else none := rfl
  rw [State.used, Finset.mem_filter, hslot, Finset.mem_singleton]
  by_cases hi : i = 0
  · simp [hi]
  · simp [hi]

/-- Whatever happens, the children of a run are there for ever, in the slots of their own:
there are 63 of them at most, and after that no fork succeeds. -/
theorem children_bounded {b : Boot} {u : UserMem} {es es' : List KernelEvent} {s s' : SigState}
    (h : Run (Steps SigState.after) (b.sigState u) es s)
    (h' : Run (Steps SigState.after) s es' s') :
    s.used.card = 1 + (b.sigState u).births es ∧ (b.sigState u).births es ≤ 63 ∧
    (∀ i p, s.tasksPtr i = some p →
      s'.tasksPtr i = some p ∧ (s'.task p).pid = (s.task p).pid) ∧
    ((b.sigState u).births es = 63 → ∀ nr t regs, s'.onCpu nr = some t →
      ∃ t', t.serve .sysFork regs = .ok (t', (-EAGAIN).toBitVec) ∧ t'.toTasks = t.toTasks) := by
  have hs := Healthy.of_run h
  have hlasts : Lasts SamePid s.toState s'.toState := by
    refine (h'.invariant (P := fun t : SigState => Healthy b.Managed t.toState ∧
      Lasts SamePid s.toState t.toState) ⟨hs, .refl SamePid.refl _⟩ ?_).2
    intro t e t' ht he
    exact ⟨ht.1.step he, ht.2.trans SamePid.trans (ht.1.after_lasts he)⟩
  have hused : s.used.card = 1 + (b.sigState u).births es := by
    have hrun := Healthy.births (s := b.sigState u) ⟨b.sound, b.tree⟩ (replay_of_run h)
    rwa [b.used, Finset.card_singleton] at hrun
  have hcard : s.used.card ≤ 64 := s.used.card_le_univ.trans_eq (Fintype.card_fin _)
  refine ⟨hused, by omega, hlasts, fun h63 nr t regs ht => ?_⟩
  have hall : s.used = Finset.univ := by
    rw [← Finset.card_eq_iff_eq_univ, hused, h63]
    rfl
  have hfull : t.findEmptySlot = none := by
    refine Tasks.findEmptySlot_eq_none.mpr fun j _ hj => ?_
    have hmem : j ∈ s.used := by
      rw [hall]
      exact Finset.mem_univ j
    obtain ⟨p, hp⟩ := Option.isSome_iff_exists.mp (Finset.mem_filter.mp hmem).2
    rw [(SigState.onCpu_spec ht).1.tasks.tasksPtr, (hlasts j p hp).1] at hj
    cases hj
  obtain ⟨pid, hcopy⟩ := State.copyProcess_full hfull regs
  rw [SigState.serve, hcopy]
  exact ⟨_, rfl, rfl⟩

/-- A step of the process tree as a call. -/
theorem SigState.after_of_next {s : SigState} {l : Label} {t : State}
    (h : s.toState.next l = some t)
    (hl : (∃ nr regs, l = .fork nr regs) ∨ ∃ nr, l = .exit nr 0) :
    ∃ e, s.after e = some { s with toState := t } := by
  rcases hl with ⟨nr, regs, rfl⟩ | ⟨nr, rfl⟩
  · obtain ⟨u, hu, hres⟩ := Option.bind_eq_some_iff.mp h
    obtain ⟨ret, hok⟩ := State.result_eq_some hres
    refine ⟨.call nr 2 regs, ?_⟩
    have hserve : SigState.serve .sysFork regs { s with toState := u } =
        .ok ({ s with toState := t }, ret.toBitVec) := by
      rw [serve]
      simp only [hok]
      rfl
    rw [after, onCpu, hu, Option.map_some, Option.bind_some, callBy, if_neg (by decide),
      show systemCallTable (2 : U32).toNat = some .sysFork from rfl, Option.bind_some,
      if_neg fun hc => Syscall.noConfusion hc.1, hserve]
    rfl
  · rw [State.next] at h
    split at h
    · rename_i h2
      obtain ⟨u, hu, hres⟩ := Option.bind_eq_some_iff.mp h
      obtain ⟨tr, hok⟩ := State.result_eq_some hres
      refine ⟨.call nr 1 zeroRegs, ?_⟩
      have hserve : SigState.serve .sysExit zeroRegs { s with toState := u } =
          .ok ({ s with toState := t }, 0) := by
        have hstatus : exitStatus (.ofBitVec zeroRegs.ebx) = 0 := by decide
        rw [serve]
        simp only [hstatus, hok]
        rfl
      rw [after, onCpu, hu, Option.map_some, Option.bind_some, callBy, if_neg (by decide),
        show systemCallTable (1 : U32).toNat = some .sysExit from rfl, Option.bind_some,
        if_neg (by omega), hserve]
      rfl
    · cases h

theorem SigState.run_of_next {s : SigState} {ls : List Label} {t : State}
    (h : Run (Steps State.next) s.toState ls t)
    (hls : ∀ l ∈ ls, (∃ nr regs, l = .fork nr regs) ∨ ∃ nr, l = .exit nr 0) :
    ∃ es, Run (Steps SigState.after) s es { s with toState := t } := by
  induction h with
  | nil => exact ⟨[], .nil⟩
  | snoc _ hl ih =>
    obtain ⟨es, hes⟩ := ih fun l hl => hls l (List.mem_append_left _ hl)
    obtain ⟨e, he⟩ := SigState.after_of_next (s := { s with toState := _ }) hl
      (hls _ (List.mem_append_right _ List.mem_cons_self))
    exact ⟨es ++ [e], hes.snoc he⟩

theorem manyChildren_calls (n : Nat) : ∀ l ∈ manyChildren n,
    (∃ nr regs, l = .fork nr regs) ∨ ∃ nr, l = .exit nr 0 := by
  intro l hl
  rcases List.mem_cons.mp hl with rfl | hl
  · exact Or.inl ⟨_, _, rfl⟩
  · obtain ⟨i, -, hi⟩ := List.mem_flatMap.mp hl
    rcases List.mem_pair.mp hi with rfl | rfl
    · exact Or.inl ⟨_, _, rfl⟩
    · exact Or.inr ⟨_, rfl⟩

/-- Task 1 has 62 children, and its next fork is refused. -/
theorem children_bounded_full :
    ∃ es s, Run (Steps SigState.after) (scheduledBoot.sigState fun _ => 0) es s ∧
      (scheduledBoot.sigState fun _ => 0).births es = 63 ∧
      ∃ t t', s.onCpu 1 = some t ∧ t.serve .sysFork zeroRegs = .ok (t', (-EAGAIN).toBitVec) := by
  obtain ⟨r, hrun, hstage⟩ := run_manyChildren (le_refl 62)
  rw [schedInit_bootOf16MB] at hrun
  obtain ⟨es, hes⟩ := SigState.run_of_next (s := scheduledBoot.sigState fun _ => 0) hrun
    (manyChildren_calls 62)
  obtain ⟨hcard, -, -, hlast⟩ := children_bounded hes .nil
  have hbirths : (scheduledBoot.sigState fun _ => 0).births es = 63 := by
    have hall : r.used = Finset.univ := by
      refine Finset.filter_true_of_mem fun j _ => Option.isSome_iff_ne_none.mpr ?_
      exact hstage.taken j j.isLt
    have hfull : r.used.card = 64 := by
      rw [hall, Finset.card_univ, Fintype.card_fin]
      rfl
    have hused : r.used.card = 1 + _ := hcard
    omega
  obtain ⟨p, hp, -⟩ := hstage.init
  have honcpu := State.onCpu_of hp (hstage.tree.init p hp).2
  obtain ⟨t', hserve, -⟩ := hlast hbirths 1 _ zeroRegs (congrArg (Option.map _) honcpu)
  exact ⟨es, _, hes, hbirths, _, t', congrArg (Option.map _) honcpu, hserve⟩

/-! ## Signals that nobody hears -/

/-- Pending signals stay so, and only who is in `dies` becomes a zombie. -/
structure Unheeded (dies : Fin NUMBER_OF_TASKS → Prop) (i : Fin NUMBER_OF_TASKS)
    (x y : TaskStruct) : Prop where
  signal : ∀ sig, Tasks.HasSignal x sig → Tasks.HasSignal y sig
  zombie : y.state = .zombie → x.state = .zombie ∨ dies i

namespace Unheeded

variable {dies : Fin NUMBER_OF_TASKS → Prop}

theorem refl (i : Fin NUMBER_OF_TASKS) (x : TaskStruct) : Unheeded dies i x x :=
  ⟨fun _ => id, Or.inl⟩

theorem trans (i : Fin NUMBER_OF_TASKS) (x y z : TaskStruct) (h : Unheeded dies i x y)
    (h' : Unheeded dies i y z) : Unheeded dies i x z where
  signal sig hx := h'.signal sig (h.signal sig hx)
  zombie hz := by
    rcases h'.zombie hz with hy | hd
    · exact h.zombie hy
    · exact Or.inr hd

theorem mono {dies' : Fin NUMBER_OF_TASKS → Prop} (hd : ∀ i, dies i → dies' i)
    (i : Fin NUMBER_OF_TASKS) (x y : TaskStruct) (h : Unheeded dies i x y) :
    Unheeded dies' i x y := ⟨h.signal, fun hz => (h.zombie hz).imp_right (hd i)⟩

theorem of_unheard (i : Fin NUMBER_OF_TASKS) (x y : TaskStruct) (h : Unheard x y) :
    Unheeded dies i x y := ⟨fun _ => h.hasSignal, fun hz => Or.inl (h.zombie.mp hz)⟩

end Unheeded

/-- Nothing is blocked. -/
def Unmasked (t : TaskStruct) : Prop := t.blocked = 0

theorem Unmasked.inherits {t t' : TaskStruct} (h : Inherits t t') (ht : Unmasked t) :
    Unmasked t' := h.blocked.trans ht

/-- With nothing blocked `do_signal` finds nothing to do. -/
theorem SigState.doSignal_unmasked {s : SigState} (h : Unmasked s.cur) (regs : SignalRegs) :
    s.doSignal regs = .ok (s, regs) := by
  have hnone : pendingSignal s.cur = none := by
    have hzero : s.cur.signal &&& s.cur.blocked = 0 := by
      rw [show s.cur.blocked = 0 from h]
      exact BitVec.and_zero
    rw [pendingSignal, hzero, lowestBit_zero]
  rw [doSignal, hnone]
  split
  · rfl
  · split
    · rfl
    · rfl

theorem Everywhere.calm {s s' : State} (h : Everywhere Unmasked s) (hc : s.Calm Unheard s') :
    Everywhere Unmasked s' := by
  intro i p hp
  rw [hc.tasks.tasksPtr] at hp
  exact (hc.tasks.task p).blocked.trans (h i p hp)

section
variable {managed : Nat → Prop}

/-- Of those in the table only the caller of exit dies by it. -/
theorem Healthy.exit_lasts {s s' : State} {i : Fin NUMBER_OF_TASKS} {code : Int32} {tr : Transfer}
    (h : Healthy managed s) (hr : s.Runs i) (h2 : 2 ≤ i.val)
    (hok : s.doExit code = .ok (s', tr)) : Lasts (Unheeded (· = i)) s s' := by
  obtain ⟨t, u, tr', -, hex, -, hok', hptr, -, htask, -⟩ :=
    h.tree.doExit h.sound hr.slot h2 hr.live code
  cases hok.symm.trans hok'
  intro j p hp
  have hp' : s'.tasksPtr j = some p := by rwa [hptr]
  refine ⟨hp', fun sig hs => (hs.keeps (hex.keeps p)).keeps (htask p).1, fun hz => ?_⟩
  by_cases hcur : p = s.current
  · rw [hcur] at hp
    exact Or.inr (h.tree.pids j i _ _ hp hr.slot rfl)
  · rw [← hex.state p hcur]
    exact Or.inl ((htask p).2.2.mp hz)

variable {s s' : SigState} {e : KernelEvent}

theorem Healthy.after_unheeded (h : Healthy managed s.toState)
    (hmask : Everywhere Unmasked s.toState) (he : ∀ i, ¬ e.Asks i .sysSsetmask)
    (hs : s.after e = some s') :
    Everywhere Unmasked s'.toState ∧
      Lasts (Unheeded fun i => e.Asks i .sysExit) s.toState s'.toState := by
  have hcalm : ∀ t : State, s.toState.Calm Unheard t → Everywhere Unmasked t ∧
      Lasts (Unheeded fun i => e.Asks i .sysExit) s.toState t := fun t ht =>
    ⟨hmask.calm ht, .of_calm ht Unheeded.of_unheard⟩
  by_cases haside : e.Aside
  · exact hcalm _ (SigState.after_unheard haside hs)
  cases e with
  | call nr eax regs =>
    obtain ⟨t, ht, hs⟩ := Option.bind_eq_some_iff.mp hs
    obtain ⟨hcpu, hr⟩ := SigState.onCpu_spec ht
    obtain ⟨htmask, htlasts⟩ := hcalm _ hcpu
    have hh := (h.onCpu ht).healthy
    rcases callBy_cases hs with ⟨rfl, -⟩ | ⟨f, v, ha, hexit, hok⟩
    · exact ⟨htmask, htlasts⟩
    by_cases hfork : f = .sysFork
    · rw [hfork] at hok
      obtain ⟨u, ret, hcopy, rfl, -⟩ := SigState.serve_fork hok
      refine ⟨htmask.fork Unmasked.inherits (htmask nr _ hr.slot) (State.copyProcess_shape hcopy).1,
        htlasts.trans Unheeded.trans ((hh.fork_lasts hr hcopy).mono fun i x y hxy => ?_)⟩
      rw [hxy]
      exact .refl i x
    by_cases hexits : f = .sysExit
    · rw [hexits] at ha
      rw [hexits, SigState.serve] at hok
      obtain ⟨⟨u, tr⟩, hdo, hret⟩ := bind_eq_ok hok
      cases hret
      have hdies : ∀ i, i = nr → (KernelEvent.call nr eax regs).Asks i .sysExit := fun i hi => by
        rw [hi]
        exact ha
      exact ⟨htmask.exit Unmasked.inherits (ExitShape.doExit hdo), htlasts.trans Unheeded.trans
        ((hh.exit_lasts hr (hexit hexits) hdo).mono (Unheeded.mono hdies))⟩
    · have hmasks : f ≠ .sysSsetmask := fun hc => he nr (hc ▸ ha)
      obtain ⟨u, w, hok', hu⟩ := t.serve_unheard hr.live hfork hexits hmasks regs
      cases hok.symm.trans hok'
      exact hcalm _ (hcpu.trans hu)
  | deliver nr regs =>
    rw [SigState.after] at hs
    split at hs
    · obtain ⟨t, ht, hs⟩ := Option.bind_eq_some_iff.mp hs
      obtain ⟨hcpu, hr⟩ := SigState.onCpu_spec ht
      rw [SigState.doSignal_unmasked ((hcalm _ hcpu).1 nr _ hr.slot)] at hs
      cases hs
      exact hcalm _ hcpu
    · cases hs
  | store w v =>
    obtain ⟨t, ht, rfl⟩ := Option.map_eq_some_iff.mp hs
    rw [State.next] at ht
    split at ht
    · cases ht
      exact ⟨hmask, .refl Unheeded.refl _⟩
    · cases ht
  | _ => exact absurd trivial haside

/-- What a step keeps, a run keeps. -/
theorem Healthy.run_unheeded {es : List KernelEvent} (h : Healthy managed s.toState)
    (hmask : Everywhere Unmasked s.toState) (hno : ∀ e ∈ es, ∀ i, ¬ e.Asks i .sysSsetmask)
    (hrun : Run (Steps SigState.after) s es s') :
    Healthy managed s'.toState ∧ Everywhere Unmasked s'.toState ∧
      Lasts (Unheeded fun i => ∃ e ∈ es, e.Asks i .sysExit) s.toState s'.toState := by
  induction hrun with
  | nil => exact ⟨h, hmask, .refl Unheeded.refl _⟩
  | @snoc es t u e _ he ih =>
    obtain ⟨ht, htmask, hlasts⟩ := ih fun e he => hno e (List.mem_append_left _ he)
    obtain ⟨humask, hstep⟩ := ht.after_unheeded htmask (hno e (by simp)) he
    have hbefore : ∀ i, (∃ e ∈ es, e.Asks i .sysExit) → ∃ x ∈ es ++ [e], x.Asks i .sysExit :=
      fun i ⟨x, hx, ha⟩ => ⟨x, List.mem_append_left _ hx, ha⟩
    have hlast : ∀ i, e.Asks i .sysExit → ∃ x ∈ es ++ [e], x.Asks i .sysExit :=
      fun i ha => ⟨e, by simp, ha⟩
    exact ⟨ht.step he, humask, (hlasts.mono (Unheeded.mono hbefore)).trans Unheeded.trans
      (hstep.mono (Unheeded.mono hlast))⟩

end

/-- As long as nobody calls `sys_ssetmask`, whatever handlers and masks are installed and
whatever is sent: `do_signal` changes nothing for anybody, a signal once raised is pending for
ever, and who becomes a zombie has called exit. -/
theorem signals_unheeded {b : Boot} {u : UserMem} {es es' : List KernelEvent} {s s' : SigState}
    (h : Run (Steps SigState.after) (b.sigState u) es s) (h' : Run (Steps SigState.after) s es' s')
    (hno : ∀ e ∈ es ++ es', ∀ i, ¬ e.Asks i .sysSsetmask) :
    (∀ nr t regs, s.onCpu nr = some t → t.doSignal regs = .ok (t, regs)) ∧
    ∀ i p, s.tasksPtr i = some p → s'.tasksPtr i = some p ∧
      (∀ sig, Tasks.HasSignal (s.task p) sig → Tasks.HasSignal (s'.task p) sig) ∧
      ((s'.task p).state = .zombie →
        (s.task p).state = .zombie ∨ ∃ e ∈ es', e.Asks i .sysExit) := by
  have hstart : Everywhere Unmasked (b.sigState u).toState := .start rfl
  obtain ⟨hs, hmask, -⟩ := Healthy.run_unheeded (s := b.sigState u) ⟨b.sound, b.tree⟩ hstart
    (fun e he => hno e (List.mem_append_left _ he)) h
  obtain ⟨-, -, hlasts⟩ := hs.run_unheeded hmask
    (fun e he => hno e (List.mem_append_right _ he)) h'
  refine ⟨fun nr t regs ht => ?_, fun i p hp => ?_⟩
  · obtain ⟨hcpu, hr⟩ := SigState.onCpu_spec ht
    exact SigState.doSignal_unmasked ((hmask.calm hcpu) nr _ hr.slot) regs
  · obtain ⟨hp', hu⟩ := hlasts i p hp
    exact ⟨hp', hu.signal, hu.zombie⟩

/-- The child of `task0` sends itself SIGKILL. -/
theorem signals_unheeded_sigkill :
    ∃ s t, Run (Steps SigState.after) (bootOf16MB.sigState fun _ => 0)
        [.call 0 2 zeroRegs, .call 1 37 { zeroRegs with ebx := 1, ecx := 9 }] s ∧
      s.onCpu 1 = some t ∧ Tasks.HasSignal t.cur SIGKILL ∧
      t.doSignal userRegs = .ok (t, userRegs) := by
  have hsome : ((replay SigState.after (bootOf16MB.sigState fun _ => 0)
      [.call 0 2 zeroRegs, .call 1 37 { zeroRegs with ebx := 1, ecx := 9 }]).bind
        fun s => (s.onCpu 1).bind fun t =>
          if t.cur.signal &&& sigBit SIGKILL ≠ 0 then some t.cur.pid else none).isSome := by
    decide +kernel
  obtain ⟨p, hp⟩ := Option.isSome_iff_exists.mp hsome
  obtain ⟨s, hs, hp⟩ := Option.bind_eq_some_iff.mp hp
  obtain ⟨t, ht, hp⟩ := Option.bind_eq_some_iff.mp hp
  have hrun := run_of_replay hs
  have hno : ∀ e ∈ [KernelEvent.call 0 2 zeroRegs,
      .call 1 37 { zeroRegs with ebx := 1, ecx := 9 }] ++ [],
      ∀ i, ¬ e.Asks i .sysSsetmask := by decide
  split at hp
  · rename_i hsig
    exact ⟨s, t, hrun, ht, hsig, (signals_unheeded hrun .nil hno).1 1 t userRegs ht⟩
  · cases hp

end Kernel
end CherryOS
