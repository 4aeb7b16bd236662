import CherryOS.Kernel.Calls

/-!
# Runs of all calls

What forks and exits keep, every call and every event keeps.  A call that is in the table does
not panic, a fork only for want of a frame for the child.
-/

namespace CherryOS
namespace Kernel

open Lib Mm SystemCall

/-- What forks and exits keep. -/
structure Healthy (managed : Nat → Prop) (s : State) : Prop where
  sound : Sound managed s
  tree : Tree s

/-- The kernel stays healthy, no slot of the task table is filled or given up, and everybody
keeps its pid. -/
structure Stays (managed : Nat → Prop) (s s' : State) : Prop where
  healthy : Healthy managed s'
  slots : s'.tasksPtr = s.tasksPtr
  pid : ∀ p, (s'.task p).pid = (s.task p).pid

theorem Stays.trans {managed : Nat → Prop} {s t s' : State} (h : Stays managed s t)
    (h' : Stays managed t s') : Stays managed s s' :=
  ⟨h'.healthy, h'.slots.trans h.slots, fun p => (h'.pid p).trans (h.pid p)⟩

namespace Healthy

section
variable {managed : Nat → Prop} {s s' : State} {i : Fin NUMBER_OF_TASKS}

theorem stays (h : Healthy managed s) : Stays managed s s := ⟨h, rfl, fun _ => rfl⟩

theorem calm (h : Healthy managed s) (hc : s.Calm SameSelf s') : Stays managed s s' where
  slots := hc.tasks.tasksPtr
  pid p := (hc.tasks.task p).pid
  healthy := by
    have hptr := hc.tasks.tasksPtr
    have htask := hc.tasks.task
    have hu : s'.unionFrame = s.unionFrame := by
      funext nr
      rw [Tasks.unionFrame, hptr, Tasks.unionFrame]
    have hmm : MmInv managed s'.unionFrame s'.mem := by
      rw [hu, hc.mem]
      exact h.sound.inv.mm
    have hinv : KInv managed s' := h.sound.inv.congr hmm hptr (fun d _ => by rw [hc.mem])
      fun _ p _ => ⟨(htask p).ldt, (htask p).zombie⟩
    have htree : Tree s' := by
      refine h.tree.congr hptr
        (fun _ p _ => ⟨(htask p).pid, (htask p).father, (htask p).zombie⟩) ?_ ?_ fun h1 => ?_
      · rw [(htask .task0).pid, h.tree.idle]
      · rw [hc.lastPid]
        exact h.tree.last
      · rw [hc.lastPid, h.tree.first h1]
    refine ⟨⟨hinv, ?_⟩, htree⟩
    rw [hptr]
    exact h.sound.init

theorem next {l : Label} (h : Healthy managed s) (hl : s.next l = some s') : Healthy managed s' :=
  ⟨h.sound.step hl, (h.tree.step h.sound hl).1⟩

theorem fork (h : Healthy managed s) (hr : s.Runs i) {regs : ForkRegs} {ret : Int32}
    (hok : s.copyProcess regs = .ok (s', ret)) : Healthy managed s' := by
  have hl : s.next (.fork i regs) = some s' := by
    show (s.onCpu i).bind _ = _
    rw [hr.onCpu, Option.bind_some, hok]
    rfl
  exact h.next hl

/-- A fork after the first does not panic if it finds a frame for the child. -/
theorem forks (h : Healthy managed s) (hr : s.Runs i) (hinit : s.tasksPtr 1 ≠ none)
    (hpage : s.mem.getFreePage ≠ none) (regs : ForkRegs) :
    ∃ s' ret, s.copyProcess regs = .ok (s', ret) := by
  have hout := h.sound.inv.copyProcess hr.slot hr.live regs
  revert hout
  generalize s.copyProcess regs = r
  intro hout
  cases hout with
  | tableFull pid _ _ => exact ⟨_, _, rfl⟩
  | noUnion hno => exact absurd hno hpage
  | noInit h1 => exact absurd h1 hinit
  | failed t _ _ _ _ _ _ _ => exact ⟨_, _, rfl⟩
  | child t j pid q _ _ _ _ _ _ _ _ _ _ _ _ => exact ⟨_, _, rfl⟩

theorem exits (h : Healthy managed s) (hr : s.Runs i) (h2 : 2 ≤ i.val) (code : Int32) :
    ∃ s' tr, s.doExit code = .ok (s', tr) ∧ Stays managed s s' := by
  obtain ⟨t, s', tr, -, hex, -, hok, hslots, -, htask, -⟩ :=
    h.tree.doExit h.sound hr.slot h2 hr.live code
  have hl : s.next (.exit i code) = some s' := by
    show (if 2 ≤ i.val then (s.onCpu i).bind _ else none) = _
    rw [if_pos h2, hr.onCpu, Option.bind_some, hok]
    rfl
  exact ⟨s', tr, hok, h.next hl, hslots, fun p => (htask p).1.pid.trans (hex.keeps p).pid⟩

end

section
variable {managed : Nat → Prop} {s s' : SigState} {i : Fin NUMBER_OF_TASKS}

/-- Every call but fork returns. -/
theorem serves (h : Healthy managed s.toState) (hr : s.Runs i) {f : Syscall}
    (hfork : f ≠ .sysFork) (hexit : f = .sysExit → 2 ≤ i.val) (regs : ForkRegs) :
    ∃ s' v, s.serve f regs = .ok (s', v) ∧ Stays managed s.toState s'.toState := by
  by_cases he : f = .sysExit
  · obtain ⟨t, tr, hdo, ht⟩ := h.exits hr (hexit he) (SigState.exitStatus (.ofBitVec regs.ebx))
    rw [he, SigState.serve, hdo]
    exact ⟨_, _, rfl, ht⟩
  · obtain ⟨t, v, hok, hc⟩ := s.serve_calm hr.live hfork he regs
    exact ⟨t, v, hok, h.calm hc⟩

/-- What `do_signal` does on a signal it has chosen. -/
theorem dispose (h : Healthy managed s.toState) (hr : s.Runs i) (h2 : 2 ≤ i.val) (sig : Fin 32)
    (regs : SignalRegs) :
    ∃ s' regs', s.dispose sig regs = .ok (s', regs') ∧ Stays managed s.toState s'.toState := by
  rw [SigState.dispose]
  split
  · exact ⟨_, _, rfl, h.stays⟩
  split
  · split
    · exact ⟨_, _, rfl, h.stays⟩
    · obtain ⟨t, tr, hdo, ht⟩ := h.exits hr h2 (1 <<< Int32.ofNat (sig.val + 1))
      rw [hdo]
      cases tr with
      | switchTo nr => exact ⟨_, _, rfl, ht⟩
      | back =>
        have hc := ht.healthy.calm (SigState.runHandler_calm { s with toState := t } sig regs)
        exact ⟨_, _, rfl, ht.trans hc⟩
  · exact ⟨_, _, rfl, h.calm (s.runHandler_calm sig regs)⟩

theorem doSignal (h : Healthy managed s.toState) (hr : s.Runs i) (h2 : 2 ≤ i.val)
    (regs : SignalRegs) :
    ∃ s' regs', s.doSignal regs = .ok (s', regs') ∧ Stays managed s.toState s'.toState := by
  rw [SigState.doSignal_actsOn]
  cases s.actsOn regs with
  | none => exact ⟨_, _, rfl, h.stays⟩
  | some sig =>
    have hc : s.toState.Calm SameSelf (s.setCur (clearSignal sig s.cur)).toState :=
      s.setCur_calm ⟨rfl, rfl, rfl, Iff.rfl⟩
    have hcleared := h.calm hc
    have hr' : (s.setCur (clearSignal sig s.cur)).Runs i :=
      ⟨hr.slot, fun hz => hr.live ((hc.tasks.task _).zombie.mp hz)⟩
    obtain ⟨t, regs', hok, ht⟩ := hcleared.healthy.dispose hr' h2 sig regs
    exact ⟨t, regs', hok, hcleared.trans ht⟩

/-! ## Runs -/

theorem onCpu (h : Healthy managed s.toState) (hs : s.onCpu i = some s') :
    Stays managed s.toState s'.toState := h.calm (SigState.onCpu_spec hs).1.self

/-- A number beyond the table changes nothing, any other is that of a call. -/
theorem callBy_cases {eax : U32} {regs : ForkRegs} (hs : s.callBy i eax regs = some s') :
    (s' = s ∧ ∀ f, ¬ (KernelEvent.call i eax regs).Asks i f) ∨
      ∃ f v, (KernelEvent.call i eax regs).Asks i f ∧ (f = .sysExit → 2 ≤ i.val) ∧
        s.serve f regs = .ok (s', v) := by
  rw [SigState.callBy] at hs
  split at hs
  · rename_i hbig
    cases hs
    exact Or.inl ⟨rfl, fun f ha => ha.2.1 hbig⟩
  · rename_i hin
    obtain ⟨f, hf, hs⟩ := Option.bind_eq_some_iff.mp hs
    split at hs
    · cases hs
    · rename_i hsmall
      obtain ⟨v, hok⟩ := SigState.effect_eq_some hs
      exact Or.inr ⟨f, v, ⟨rfl, hin, hf⟩, fun he => not_lt.mp fun hi => hsmall ⟨he, hi⟩, hok⟩

/-- A step is a fork, or fills no slot. -/
theorem after (h : Healthy managed s.toState) {e : KernelEvent} (hs : s.after e = some s') :
    (Stays managed s.toState s'.toState ∧ ∀ j, ¬ e.Asks j .sysFork) ∨
      ∃ nr eax regs t v, e = .call nr eax regs ∧ e.Asks nr .sysFork ∧ s.onCpu nr = some t ∧
        t.serve .sysFork regs = .ok (s', v) := by
  by_cases he : e.Aside
  · exact Or.inl ⟨h.calm (SigState.after_unheard he hs).self, fun j => he.not_asks j _⟩
  cases e with
  | call nr eax regs =>
    obtain ⟨t, ht, hs⟩ := Option.bind_eq_some_iff.mp hs
    have hcpu := h.onCpu ht
    rcases callBy_cases hs with ⟨rfl, hno⟩ | ⟨f, v, ha, hexit, hok⟩
    · exact Or.inl ⟨hcpu, fun j hj => hno _ ⟨rfl, hj.2⟩⟩
    · by_cases hf : f = .sysFork
      · rw [hf] at hok ha
        exact Or.inr ⟨nr, eax, regs, t, v, rfl, ha, ht, hok⟩
      · obtain ⟨u, w, hok', hu⟩ :=
          hcpu.healthy.serves (SigState.onCpu_spec ht).2 hf hexit regs
        cases hok.symm.trans hok'
        refine Or.inl ⟨hcpu.trans hu, fun j hj => hf ?_⟩
        exact Option.some.inj (ha.2.2.symm.trans hj.2.2)
  | deliver nr regs =>
    rw [SigState.after] at hs
    split at hs
    · rename_i h2
      obtain ⟨t, ht, hs⟩ := Option.bind_eq_some_iff.mp hs
      have hcpu := h.onCpu ht
      obtain ⟨u, regs', hok, hu⟩ :=
        hcpu.healthy.doSignal (SigState.onCpu_spec ht).2 h2 regs
      rw [hok] at hs
      cases hs
      exact Or.inl ⟨hcpu.trans hu, fun j => id⟩
    · cases hs
  | store w v =>
    obtain ⟨t, ht, rfl⟩ := Option.map_eq_some_iff.mp hs
    have hnext := h.next ht
    rw [State.next] at ht
    split at ht
    · cases ht
      exact Or.inl ⟨⟨hnext, rfl, fun _ => rfl⟩, fun j => id⟩
    · cases ht
  | _ => exact absurd trivial he

theorem forked (h : Healthy managed s.toState) {t : SigState} {regs : ForkRegs} {v : U32}
    (ht : s.onCpu i = some t) (hok : t.serve .sysFork regs = .ok (s', v)) :
    Healthy managed s'.toState := by
  obtain ⟨u, ret, hcopy, rfl, -⟩ := SigState.serve_fork hok
  exact (h.onCpu ht).healthy.fork (SigState.onCpu_spec ht).2 hcopy

theorem step (h : Healthy managed s.toState) {e : KernelEvent} (hs : s.after e = some s') :
    Healthy managed s'.toState := by
  rcases h.after hs with ⟨hstay, -⟩ | ⟨nr, eax, regs, t, v, -, -, ht, hok⟩
  · exact hstay.healthy
  · exact h.forked ht hok

theorem of_run {b : Boot} {u : UserMem} {es : List KernelEvent}
    (h : Run (Steps SigState.after) (b.sigState u) es s) : Healthy b.Managed s.toState :=
  h.invariant (P := fun s : SigState => Healthy b.Managed s.toState) ⟨b.sound, b.tree⟩
    fun _ _ _ hs he => hs.step he

end

end Healthy

end Kernel
end CherryOS
