import CherryOS.Kernel.Dispositions

/-!
# Which signal is taken

A signal that is pending can be delivered unless it is blocked, and SIGKILL and SIGSTOP
cannot be blocked.  `schedule` wakes a task when there is such a signal.  `do_signal` looks
among the pending signals for the ones that are blocked, so the two agree only where the
lowest pending signal is one that is blocked to no effect, or nothing is pending at all.
-/

namespace CherryOS
namespace Kernel

open Lib Mm

/-! ## The lowest bit -/

theorem getLsbD_of_zero (i : Nat) : (0 : U32).getLsbD i = false := BitVec.getLsbD_zero

theorem lowestBit_zero : lowestBit 0 = none := by decide

/-- The lowest bit is set, and none below it is. -/
theorem lowestBit_spec {x : U32} {i : Fin 32} (h : lowestBit x = some i) :
    x.getLsbD i = true ∧ ∀ j < i, x.getLsbD j = false := by
  obtain ⟨hi, low, high, hsplit, hlow⟩ := List.find?_eq_some_iff_append.mp h
  refine ⟨hi, fun j hj => ?_⟩
  have hmem : j ∈ low ++ i :: high := hsplit ▸ List.mem_finRange j
  have hsorted : (low ++ i :: high).Pairwise (· < ·) := hsplit ▸ List.pairwise_lt_finRange 32
  rcases List.mem_append.mp hmem with hjlow | hjhigh
  · simpa using hlow j hjlow
  · have hij : i ≤ j := by
      rcases List.mem_cons.mp hjhigh with rfl | hj'
      · exact Fin.le_refl j
      · exact Fin.le_of_lt
          (List.rel_of_pairwise_cons (List.pairwise_append.mp hsorted).2.1 hj')
    omega

theorem lowestBit_eq_some {x : U32} {i : Fin 32} :
    lowestBit x = some i ↔ x.getLsbD i = true ∧ ∀ j < i, x.getLsbD j = false := by
  refine ⟨lowestBit_spec, fun ⟨hi, hbelow⟩ => ?_⟩
  cases hlow : lowestBit x with
  | none =>
    exact absurd hi (List.find?_eq_none.mp hlow i (List.mem_finRange i))
  | some j =>
    obtain ⟨hj, hbelowj⟩ := lowestBit_spec hlow
    rcases lt_trichotomy i j with hij | rfl | hji
    · rw [hbelowj i hij] at hi
      cases hi
    · rfl
    · rw [hbelow j hji] at hj
      cases hj

theorem lowestBit_eq_none {x : U32} : lowestBit x = none ↔ x = 0 := by
  refine ⟨fun h => BitVec.eq_of_getLsbD_eq fun i hi => ?_, fun h => h ▸ lowestBit_zero⟩
  rw [getLsbD_of_zero]
  exact Bool.eq_false_iff.mpr (List.find?_eq_none.mp h ⟨i, hi⟩ (List.mem_finRange _))

/-- The lowest bit of a word is that of any part of it that has the bit. -/
theorem lowestBit_of_part {x y : U32} {i : Fin 32} (h : lowestBit x = some i)
    (hpart : ∀ j : Fin 32, y.getLsbD j = true → x.getLsbD j = true) (hi : y.getLsbD i = true) :
    lowestBit y = some i := by
  refine lowestBit_eq_some.mpr ⟨hi, fun j hj => ?_⟩
  have hx := (lowestBit_spec h).2 j hj
  exact Bool.eq_false_iff.mpr fun hy => Bool.false_ne_true (hx.symm.trans (hpart j hy))

/-! ## What can be delivered -/

/-- The signals of a task that are pending and not blocked. -/
def deliverable (t : TaskStruct) : U32 := t.signal &&& ~~~(t.blocked &&& SIG_BLOCKABLE)

/-- SIGKILL or SIGSTOP. -/
def Forced (i : Fin 32) : Prop := i.val + 1 = SIGKILL ∨ i.val + 1 = SIGSTOP

instance (i : Fin 32) : Decidable (Forced i) := inferInstanceAs (Decidable (_ ∨ _))

/-- The mask holds the signal back. -/
def HeldBack (t : TaskStruct) (i : Fin 32) : Prop := t.blocked.getLsbD i = true ∧ ¬ Forced i

/-- The lowest signal that is pending has its bit in the mask and is delivered all the same,
or there is none. -/
def ForcedFirst (t : TaskStruct) : Prop :=
  t.signal = 0 ∨ ∃ i, lowestBit t.signal = some i ∧ Forced i ∧ t.blocked.getLsbD i = true

section choice

variable {t : TaskStruct} {i : Fin 32}

theorem blockable_getLsbD : ∀ i : Fin 32, SIG_BLOCKABLE.getLsbD i = decide (¬ Forced i) := by
  decide

theorem deliverable_getLsbD :
    (deliverable t).getLsbD i = true ↔ t.signal.getLsbD i = true ∧ ¬ HeldBack t i := by
  rw [deliverable, BitVec.getLsbD_and, BitVec.getLsbD_not, BitVec.getLsbD_and, blockable_getLsbD,
    HeldBack]
  by_cases hforced : Forced i <;> simp [hforced]

theorem pending_getLsbD : (t.signal &&& t.blocked).getLsbD i = true ↔
    t.signal.getLsbD i = true ∧ t.blocked.getLsbD i = true := by
  rw [BitVec.getLsbD_and, Bool.and_eq_true]

theorem pendingSignal_eq_iff : pendingSignal t = lowestBit (deliverable t) ↔ ForcedFirst t := by
  have hpending : ∀ {i}, lowestBit t.signal = some i → t.blocked.getLsbD i = true →
      pendingSignal t = some i := fun h hb =>
    lowestBit_of_part h (fun _ hj => (pending_getLsbD.mp hj).1)
      (pending_getLsbD.mpr ⟨(lowestBit_spec h).1, hb⟩)
  have hdeliver : ∀ {i}, lowestBit t.signal = some i → ¬ HeldBack t i →
      lowestBit (deliverable t) = some i := fun h hb =>
    lowestBit_of_part h (fun _ hj => (deliverable_getLsbD.mp hj).1)
      (deliverable_getLsbD.mpr ⟨(lowestBit_spec h).1, hb⟩)
  constructor
  · intro heq
    cases hlow : lowestBit t.signal with
    | none => exact Or.inl (lowestBit_eq_none.mp hlow)
    | some i =>
      refine Or.inr ⟨i, hlow, ?_⟩
      by_cases hb : t.blocked.getLsbD i = true
      · have hheld := (deliverable_getLsbD.mp (lowestBit_spec
          (heq.symm.trans (hpending hlow hb))).1).2
        exact ⟨not_not.mp fun hf => hheld ⟨hb, hf⟩, hb⟩
      · have htaken := heq.trans (hdeliver hlow fun hheld => hb hheld.1)
        exact absurd (pending_getLsbD.mp (lowestBit_spec htaken).1).2 hb
  · rintro (hzero | ⟨i, hlow, hforced, hb⟩)
    · rw [pendingSignal, deliverable, hzero]
      exact congrArg lowestBit (BitVec.zero_and.trans BitVec.zero_and.symm)
    · rw [hpending hlow hb, hdeliver hlow fun hheld => hheld.2 hforced]

end choice

/-! ## What `do_signal` does with its choice -/

namespace SigState

variable {s : SigState} {regs : SignalRegs}

/-- The signal that `do_signal` acts on. -/
def actsOn (s : SigState) (regs : SignalRegs) : Option (Fin 32) :=
  if s.tasksPtr 0 = some s.current ∨ regs.cs &&& 3 = 0 then none else pendingSignal s.cur

/-- What `do_signal` does on signal `i`, once its bit is cleared. -/
def dispose (i : Fin 32) (regs : SignalRegs) (s : SigState) :
    Except Fault (SigState × SignalRegs) :=
  if (s.cur.sa i).saHandler = SIG_IGN then .ok (s, regs)
  else if (s.cur.sa i).saHandler = SIG_DFL then
    if i.val + 1 = SIGCHLD then .ok (s, regs)
    else do
      let (t, tr) ← s.toState.doExit (1 <<< Int32.ofNat (i.val + 1))
      match tr with
      | .switchTo _ => .ok ({ s with toState := t }, regs)
      | .back => .ok ({ s with toState := t }.runHandler i regs)
  else .ok (s.runHandler i regs)

/-- The choice and the action on it are all there is. -/
theorem doSignal_actsOn : s.doSignal regs = match s.actsOn regs with
    | none => .ok (s, regs)
    | some i => (s.setCur (clearSignal i s.cur)).dispose i regs := by
  rw [doSignal, actsOn]
  by_cases htask : s.tasksPtr 0 = some s.current
  · rw [if_pos htask, if_pos (Or.inl htask)]
  by_cases hcs : regs.cs &&& 3 = 0
  · rw [if_neg htask, if_pos hcs, if_pos (Or.inr hcs)]
  · rw [if_neg htask, if_neg hcs, if_neg (fun hc => hc.elim htask hcs)]
    rfl

/-- The default action on signal `i` ends the task. -/
def Ends (s : SigState) (i : Fin 32) : Prop :=
  (s.cur.sa i).saHandler = SIG_DFL ∧ i.val + 1 ≠ SIGCHLD

/-- `do_signal` takes the signal that the mask calls for, clears its bit and no other, and
takes one whenever `schedule` would wake the task for one.  A task that the signal does not end
has the mask's bits so when `do_signal` returns, and when none is taken nothing changes. -/
structure RespectsMask (s : SigState) (regs : SignalRegs) : Prop where
  acts : s.actsOn regs = lowestBit (deliverable s.cur)
  rests : s.actsOn regs = none → s.doSignal regs = .ok (s, regs)
  result : ∀ i s' regs', s.actsOn regs = some i → ¬ s.Ends i →
    s.doSignal regs = .ok (s', regs') → s'.cur.signal = (clearSignal i s.cur).signal
  clears : ∀ i, s.actsOn regs = some i → ∀ j : Fin 32,
    (clearSignal i s.cur).signal.getLsbD j = (s.cur.signal.getLsbD j && decide (j ≠ i))
  keeps : ∀ i, s.actsOn regs = some i → ∀ j : Fin 32, HeldBack s.cur j →
    (clearSignal i s.cur).signal.getLsbD j = s.cur.signal.getLsbD j
  wakes : ∀ t : TaskStruct, t.signal = s.cur.signal → t.blocked = s.cur.blocked →
    t.state = .interruptible →
      ((Tasks.wakeForSignal t).state = .running ↔ s.actsOn regs ≠ none)

theorem clearSignal_getLsbD (i j : Fin 32) (t : TaskStruct) :
    (clearSignal i t).signal.getLsbD j = (t.signal.getLsbD j && decide (j ≠ i)) := by
  have hbit : ∀ i j : Fin 32, (~~~(1#32 <<< i.val)).getLsbD j = decide (j ≠ i) := by decide
  rw [clearSignal, BitVec.getLsbD_and, hbit]

theorem enterHandler_signal (i : Fin 32) (t : TaskStruct) :
    (enterHandler i t).signal = t.signal := by
  unfold enterHandler
  dsimp only
  split <;> rfl

theorem runHandler_signal (i : Fin 32) : (s.runHandler i regs).1.cur.signal = s.cur.signal := by
  have hcur : (s.runHandler i regs).1.cur = enterHandler i s.cur := setCur_cur _ _
  rw [hcur, enterHandler_signal]

/-- What a signal that does not end the task leaves of the pending ones. -/
theorem dispose_signal {i : Fin 32} {s' : SigState} {regs' : SignalRegs} (hno : ¬ s.Ends i)
    (h : s.dispose i regs = .ok (s', regs')) : s'.cur.signal = s.cur.signal := by
  rw [dispose] at h
  by_cases hign : (s.cur.sa i).saHandler = SIG_IGN
  · rw [if_pos hign] at h
    cases h
    rfl
  rw [if_neg hign] at h
  by_cases hdfl : (s.cur.sa i).saHandler = SIG_DFL
  · have hchld : i.val + 1 = SIGCHLD := not_not.mp fun hne => hno ⟨hdfl, hne⟩
    rw [if_pos hdfl, if_pos hchld] at h
    cases h
    rfl
  · rw [if_neg hdfl] at h
    have hstate : s' = (s.runHandler i regs).1 := congrArg Prod.fst (Except.ok.inj h).symm
    rw [hstate, runHandler_signal]

theorem wakeForSignal_running {t : TaskStruct} (h : t.state = .interruptible) :
    (Tasks.wakeForSignal t).state = .running ↔ lowestBit (deliverable t) ≠ none := by
  rw [Tasks.wakeForSignal, Ne, lowestBit_eq_none]
  by_cases htakes : Tasks.TakesSignal t.signal t.blocked
  · rw [if_pos ⟨htakes, h⟩]
    exact ⟨fun _ => htakes, fun _ => rfl⟩
  · rw [if_neg fun hc => htakes hc.1, h]
    exact ⟨fun hc => (by cases hc), fun hc => absurd hc htakes⟩

end SigState

/-- The mask is respected if and only if the lowest pending signal is SIGKILL or SIGSTOP and
has its bit in the mask, or no signal is pending. -/
theorem respectsMask_iff (s : SigState) (regs : SignalRegs)
    (htask : s.tasksPtr 0 ≠ some s.current) (hcs : regs.cs &&& 3 ≠ 0) :
    s.RespectsMask regs ↔ ForcedFirst s.cur := by
  have hacts : s.actsOn regs = pendingSignal s.cur :=
    if_neg fun hc => hc.elim htask hcs
  rw [← pendingSignal_eq_iff]
  constructor
  · intro h
    rw [← hacts]
    exact h.acts
  · intro heq
    have hchoice := hacts.trans heq
    refine ⟨hchoice, fun hnone => ?_, fun i s' regs' hi hno hdo => ?_,
      fun i _ j => SigState.clearSignal_getLsbD i j s.cur, ?_, ?_⟩
    · rw [SigState.doSignal_actsOn, hnone]
    · rw [SigState.doSignal_actsOn, hi] at hdo
      have hcur := SigState.setCur_cur s (clearSignal i s.cur)
      have hsa : ¬ (s.setCur (clearSignal i s.cur)).Ends i := by
        rw [SigState.Ends, hcur]
        exact hno
      rw [SigState.dispose_signal hsa hdo, hcur]
    · intro i hi j hheld
      rw [SigState.clearSignal_getLsbD, decide_eq_true, Bool.and_true]
      rintro rfl
      exact (deliverable_getLsbD.mp (lowestBit_spec (hchoice.symm.trans hi)).1).2 hheld
    · intro t hsignal hblocked hstate
      rw [SigState.wakeForSignal_running hstate, hchoice, deliverable, hsignal, hblocked]
      rfl

/-- Task 1 has set its mask and is sent signals. -/
def sentTo1 (newmask signals : U32) : SigState :=
  let boot := bootOf16MB.sigState fun _ => 0
  ((replay SigState.next boot
    [.fork 0 zeroRegs, .call 1 (.ssetmask newmask), .post 1 signals]).bind fun s =>
      s.enter 1).getD boot

def userRegs : SignalRegs := ⟨0, 0, 0, 0, 0x0F, 0x202, 0x8000⟩

/-- SIGSTOP is delivered although the mask has its bit. -/
theorem respectsMask_iff_sigstop :
    (sentTo1 0x40000 0x40000).RespectsMask userRegs ∧
      (sentTo1 0x40000 0x40000).actsOn userRegs = some 18 := by
  have hstate : (sentTo1 0x40000 0x40000).tasksPtr 0 ≠ some (sentTo1 0x40000 0x40000).current ∧
      lowestBit (sentTo1 0x40000 0x40000).cur.signal = some 18 ∧
      (sentTo1 0x40000 0x40000).cur.blocked.getLsbD 18 = true ∧
      (sentTo1 0x40000 0x40000).actsOn userRegs = some 18 := by decide +kernel
  obtain ⟨htask, hlow, hblocked, hacts⟩ := hstate
  exact ⟨(respectsMask_iff _ _ htask (by decide)).mpr
    (Or.inr ⟨18, hlow, by decide, hblocked⟩), hacts⟩

/-- SIGINT wakes task 1 and is not delivered when nothing is blocked, and is delivered when
it is blocked. -/
theorem sigint_not_respected :
    (¬ (sentTo1 0 0x2).RespectsMask userRegs ∧ (sentTo1 0 0x2).actsOn userRegs = none ∧
        lowestBit (deliverable (sentTo1 0 0x2).cur) = some 1) ∧
      ¬ (sentTo1 0x2 0x2).RespectsMask userRegs ∧
        (sentTo1 0x2 0x2).actsOn userRegs = some 1 ∧
        lowestBit (deliverable (sentTo1 0x2 0x2).cur) = none := by
  have hopen : (sentTo1 0 0x2).actsOn userRegs = none ∧
      lowestBit (deliverable (sentTo1 0 0x2).cur) = some 1 := by decide +kernel
  have hmasked : (sentTo1 0x2 0x2).actsOn userRegs = some 1 ∧
      lowestBit (deliverable (sentTo1 0x2 0x2).cur) = none := by decide +kernel
  refine ⟨⟨fun h => ?_, hopen⟩, fun h => ?_, hmasked⟩
  · have hacts := h.acts
    rw [hopen.1, hopen.2] at hacts
    cases hacts
  · have hacts := h.acts
    rw [hmasked.1, hmasked.2] at hacts
    cases hacts

end Kernel
end CherryOS
