import CherryOS.Kernel.ManyTasks

/-!
# kill

`sys_kill` sends a signal to one task or to each task that passes a test.  What it does is
given here in one piece: a task gets the bit of the signal exactly if the number is valid,
the call chooses the task, and the sender may signal it.  That is compared with the targets
that the comments of the function name.
-/

namespace CherryOS
namespace Kernel

namespace Tasks

/-- `send_sig` is given the number as it is; below 1 they are all alike. -/
def sigNr (sig : Int32) : Nat := sig.toInt.toNat

/-- The body of the loops of `sys_kill`, which test a task beside the current one. -/
def killSlot (hit : TaskStruct → TaskStruct → Bool) (sig : Nat) (priv : Bool) (s : Tasks)
    (i : Fin NUMBER_OF_TASKS) : Tasks :=
  match s.tasksPtr i with
  | none => s
  | some p => if hit (s.task s.current) (s.task p) then (s.sendSig sig (some p) priv).1 else s

/-- `sys_kill(pid, sig)` -/
def sysKill (s : Tasks) (pid sig : Int32) : Tasks × Int32 :=
  if 0 < pid then s.sendSig (sigNr sig) (s.findPidTask pid) false
  else if pid = 0 then
    (userSlots.foldl (killSlot (fun c t => t.pgrp = c.pid) (sigNr sig) true) s, 0)
  else if pid = -1 then
    (userSlots.foldl (killSlot (fun _ _ => true) (sigNr sig) false) s, 0)
  else (userSlots.foldl (killSlot (fun _ t => t.pgrp = -pid) (sigNr sig) false) s, 0)

/-! ## One signal -/

def ValidSig (sig : Nat) : Prop := 1 ≤ sig ∧ sig ≤ 32

instance (sig : Nat) : Decidable (ValidSig sig) := inferInstanceAs (Decidable (_ ∧ _))

/-- The sender is root, or its effective user is that of the task. -/
def MaySignal (s : Tasks) (p : TaskPtr) : Prop :=
  (s.task s.current).euid = 0 ∨ (s.task s.current).euid = (s.task p).euid

def raised (sig : Nat) (t : TaskStruct) : TaskStruct :=
  { t with signal := t.signal ||| sigBit sig }

/-- The tables are the same but for pending signals. -/
structure SameButSignals (s s' : Tasks) : Prop where
  jiffies : s'.jiffies = s.jiffies
  current : s'.current = s.current
  tasksPtr : s'.tasksPtr = s.tasksPtr
  task : ∀ p, s'.task p = { s.task p with signal := (s'.task p).signal }

/-- `s'` is `s` with the signal raised in the tasks of which `P` holds. -/
structure RaisedIn (sig : Nat) (P : TaskPtr → Prop) (s s' : Tasks) : Prop where
  rest : SameButSignals s s'
  hit : ∀ p, P p → (s'.task p).signal = (s.task p).signal ||| sigBit sig
  miss : ∀ p, ¬ P p → (s'.task p).signal = (s.task p).signal

namespace SameButSignals

theorem refl (s : Tasks) : SameButSignals s s := ⟨rfl, rfl, rfl, fun _ => rfl⟩

theorem trans {s₁ s₂ s₃ : Tasks} (h : SameButSignals s₁ s₂) (h' : SameButSignals s₂ s₃) :
    SameButSignals s₁ s₃ := by
  refine ⟨h'.jiffies.trans h.jiffies, h'.current.trans h.current, h'.tasksPtr.trans h.tasksPtr,
    fun p => ?_⟩
  rw [h'.task p, h.task p]

theorem maySignal {s s' : Tasks} (h : SameButSignals s s') (p : TaskPtr) :
    s'.MaySignal p ↔ s.MaySignal p := by
  rw [MaySignal, MaySignal, h.current, h.task s.current, h.task p]

end SameButSignals

theorem RaisedIn.none {sig : Nat} {P : TaskPtr → Prop} (s : Tasks) (h : ∀ p, ¬ P p) :
    RaisedIn sig P s s :=
  ⟨.refl s, fun p hp => absurd hp (h p), fun _ _ => rfl⟩

theorem RaisedIn.congr {sig : Nat} {P Q : TaskPtr → Prop} {s s' : Tasks} (h : RaisedIn sig P s s')
    (hiff : ∀ p, P p ↔ Q p) : RaisedIn sig Q s s' :=
  ⟨h.rest, fun p hp => h.hit p ((hiff p).mpr hp), fun p hp => h.miss p fun hc => hp ((hiff p).mp hc)⟩

/-- Two rounds of signals are one round to all that got one. -/
theorem RaisedIn.trans {sig : Nat} {P Q : TaskPtr → Prop} {s₁ s₂ s₃ : Tasks}
    (h : RaisedIn sig P s₁ s₂) (h' : RaisedIn sig Q s₂ s₃) :
    RaisedIn sig (fun p => P p ∨ Q p) s₁ s₃ := by
  refine ⟨h.rest.trans h'.rest, fun p hp => ?_, fun p hp => ?_⟩
  · by_cases hP : P p
    · by_cases hQ : Q p
      · rw [h'.hit p hQ, h.hit p hP, BitVec.or_assoc, BitVec.or_self]
      · rw [h'.miss p hQ, h.hit p hP]
    · rcases hp with hp | hQ
      · exact absurd hp hP
      · rw [h'.hit p hQ, h.miss p hP]
  · rw [h'.miss p fun hQ => hp (Or.inr hQ), h.miss p fun hP => hp (Or.inl hP)]

theorem sendSig_invalid {sig : Nat} (h : ¬ ValidSig sig) (p : Option TaskPtr) (priv : Bool)
    (s : Tasks) : (s.sendSig sig p priv).1 = s := by
  cases p with
  | none => rfl
  | some p =>
    have hbad : sig < 1 ∨ 32 < sig := by
      rw [ValidSig] at h
      omega
    rw [sendSig, if_pos hbad]

theorem sendSig_raised {sig : Nat} (h : ValidSig sig) (o : Option TaskPtr) (priv : Bool)
    (s : Tasks) :
    RaisedIn sig (fun p => o = some p ∧ (priv ∨ s.MaySignal p)) s (s.sendSig sig o priv).1 := by
  cases o with
  | none => exact .none s fun p hp => by cases hp.1
  | some p =>
    have hgood : ¬ (sig < 1 ∨ 32 < sig) := by
      rw [ValidSig] at h
      omega
    by_cases hmay : priv ∨ s.MaySignal p
    · have hs : (s.sendSig sig (some p) priv).1 = s.setTask p (raised sig (s.task p)) := by
        rw [sendSig, if_neg hgood]
        exact congrArg Prod.fst (if_pos hmay)
      rw [hs]
      refine ⟨⟨rfl, rfl, rfl, setTask_related (R := fun t t' => t' = { t with signal := t'.signal })
        (fun _ => rfl) rfl⟩, fun q hq => ?_, fun q hq => ?_⟩
      · cases hq.1
        rw [setTask_task, if_pos rfl, raised]
      · have hne : q ≠ p := by
          rintro rfl
          exact hq ⟨rfl, hmay⟩
        rw [setTask_task, if_neg hne]
    · have hs : (s.sendSig sig (some p) priv).1 = s := by
        rw [sendSig, if_neg hgood]
        exact congrArg Prod.fst (if_neg hmay)
      rw [hs]
      refine .none s fun q hq => hmay ?_
      obtain ⟨hqp, hmayq⟩ := hq
      cases hqp
      exact hmayq

/-! ## The loops -/

/-- The test does not look at pending signals. -/
def Blind (hit : TaskStruct → TaskStruct → Bool) : Prop :=
  ∀ c t (a b : U32), hit { c with signal := a } { t with signal := b } = hit c t

section loops

variable {hit : TaskStruct → TaskStruct → Bool} {sig : Nat} {priv : Bool}

/-- The loop over the slots `l` signals the task. -/
def Swept (hit : TaskStruct → TaskStruct → Bool) (priv : Bool) (l : List (Fin NUMBER_OF_TASKS))
    (s : Tasks) (p : TaskPtr) : Prop :=
  (∃ i ∈ l, s.tasksPtr i = some p) ∧ hit (s.task s.current) (s.task p) ∧ (priv ∨ s.MaySignal p)

theorem SameButSignals.swept {s s' : Tasks} (h : SameButSignals s s') (hblind : Blind hit)
    (l : List (Fin NUMBER_OF_TASKS)) (p : TaskPtr) :
    Swept hit priv l s' p ↔ Swept hit priv l s p := by
  rw [Swept, Swept, h.tasksPtr, h.maySignal, h.current, h.task s.current, h.task p, hblind]

theorem killSlot_raised (hsig : ValidSig sig) (s : Tasks) (i : Fin NUMBER_OF_TASKS) :
    RaisedIn sig (Swept hit priv [i] s) s (killSlot hit sig priv s i) := by
  cases hi : s.tasksPtr i with
  | none =>
    have hs : killSlot hit sig priv s i = s := by rw [killSlot, hi]
    rw [hs]
    refine .none s fun p ⟨⟨k, hk, hkp⟩, _⟩ => ?_
    rw [List.mem_singleton.mp hk, hi] at hkp
    cases hkp
  | some p =>
    have honly : ∀ q, (∃ k ∈ [i], s.tasksPtr k = some q) ↔ some p = some q := by
      intro q
      rw [← hi]
      simp
    by_cases hhit : hit (s.task s.current) (s.task p)
    · have hs : killSlot hit sig priv s i = (s.sendSig sig (some p) priv).1 := by
        rw [killSlot, hi]
        exact if_pos hhit
      rw [hs]
      refine (sendSig_raised hsig (some p) priv s).congr fun q => ?_
      rw [Swept, honly]
      constructor
      · rintro ⟨hq, hmay⟩
        cases hq
        exact ⟨rfl, hhit, hmay⟩
      · rintro ⟨hq, _, hmay⟩
        exact ⟨hq, hmay⟩
    · have hs : killSlot hit sig priv s i = s := by
        rw [killSlot, hi]
        exact if_neg hhit
      rw [hs]
      refine .none s fun q ⟨hq, hq', _⟩ => hhit ?_
      cases (honly q).mp hq
      exact hq'

theorem foldl_killSlot (hsig : ValidSig sig) (hblind : Blind hit) (l : List (Fin NUMBER_OF_TASKS))
    (s : Tasks) : RaisedIn sig (Swept hit priv l s) s (l.foldl (killSlot hit sig priv) s) := by
  induction l generalizing s with
  | nil => exact .none s fun p ⟨⟨i, hi, _⟩, _⟩ => by cases hi
  | cons i l ih =>
    have hfirst : RaisedIn sig (Swept hit priv [i] s) s (killSlot hit sig priv s i) :=
      killSlot_raised hsig s i
    rw [List.foldl_cons]
    refine (hfirst.trans (ih (killSlot hit sig priv s i))).congr fun p => ?_
    rw [hfirst.rest.swept hblind]
    constructor
    · rintro (⟨⟨k, hk, hkp⟩, hrest⟩ | ⟨⟨k, hk, hkp⟩, hrest⟩)
      · exact ⟨⟨k, List.mem_cons.mpr (Or.inl (List.mem_singleton.mp hk)), hkp⟩, hrest⟩
      · exact ⟨⟨k, List.mem_cons_of_mem i hk, hkp⟩, hrest⟩
    · rintro ⟨⟨k, hk, hkp⟩, hrest⟩
      rcases List.mem_cons.mp hk with rfl | hk
      · exact Or.inl ⟨⟨k, List.mem_singleton_self k, hkp⟩, hrest⟩
      · exact Or.inr ⟨⟨k, hk, hkp⟩, hrest⟩

theorem foldl_killSlot_invalid (hsig : ¬ ValidSig sig) (l : List (Fin NUMBER_OF_TASKS))
    (s : Tasks) : l.foldl (killSlot hit sig priv) s = s := by
  induction l generalizing s with
  | nil => rfl
  | cons i l ih =>
    have hs : killSlot hit sig priv s i = s := by
      unfold killSlot
      split
      · rfl
      · rw [sendSig_invalid hsig]
        split <;> rfl
    rw [List.foldl_cons, hs, ih]

end loops

/-! ## The call -/

/-- The task is in the table after slot 0. -/
def Listed (s : Tasks) (p : TaskPtr) : Prop := ∃ i, i ≠ 0 ∧ s.tasksPtr i = some p

/-- The tasks that `sys_kill` sends the signal to, by its own tests. -/
def Chosen (s : Tasks) (pid : Int32) (p : TaskPtr) : Prop :=
  if 0 < pid then s.findPidTask pid = some p
  else s.Listed p ∧ (pid = 0 → (s.task p).pgrp = (s.task s.current).pid) ∧
    (pid < -1 → (s.task p).pgrp = -pid)

/-- Only with the pid 0 does the sender need no right to signal the task. -/
def Permitted (s : Tasks) (pid : Int32) (p : TaskPtr) : Prop := pid ≠ 0 → s.MaySignal p

theorem exists_userSlot (s : Tasks) (p : TaskPtr) :
    (∃ i ∈ userSlots, s.tasksPtr i = some p) ↔ s.Listed p := by
  simp only [mem_userSlots, Listed]

theorem sysKill_raised (s : Tasks) (pid : Int32) {sig : Int32} (h : ValidSig (sigNr sig)) :
    RaisedIn (sigNr sig) (fun p => s.Chosen pid p ∧ s.Permitted pid p) s (s.sysKill pid sig).1 := by
  by_cases hpos : 0 < pid
  · have hs : (s.sysKill pid sig).1 = (s.sendSig (sigNr sig) (s.findPidTask pid) false).1 := by
      rw [sysKill, if_pos hpos]
    have hne : pid ≠ 0 := by
      rintro rfl
      exact absurd hpos (by decide)
    rw [hs]
    refine (sendSig_raised h _ _ s).congr fun p => ?_
    simp [Chosen, Permitted, hpos, hne]
  · by_cases hzero : pid = 0
    · have hs : (s.sysKill pid sig).1 =
          userSlots.foldl (killSlot (fun c t => t.pgrp = c.pid) (sigNr sig) true) s := by
        rw [sysKill, if_neg hpos, if_pos hzero]
      rw [hs]
      refine (foldl_killSlot h (fun _ _ _ _ => rfl) userSlots s).congr fun p => ?_
      rw [Swept, exists_userSlot, Chosen, Permitted, if_neg hpos]
      simp [hzero]
    · by_cases hall : pid = -1
      · have hs : (s.sysKill pid sig).1 =
            userSlots.foldl (killSlot (fun _ _ => true) (sigNr sig) false) s := by
          rw [sysKill, if_neg hpos, if_neg hzero, if_pos hall]
        have hsmall : ¬ pid < -1 := by
          rw [hall]
          decide
        rw [hs]
        refine (foldl_killSlot h (fun _ _ _ _ => rfl) userSlots s).congr fun p => ?_
        rw [Swept, exists_userSlot, Chosen, Permitted, if_neg hpos]
        simp [hzero, hsmall]
      · have hs : (s.sysKill pid sig).1 =
            userSlots.foldl (killSlot (fun _ t => t.pgrp = -pid) (sigNr sig) false) s := by
          rw [sysKill, if_neg hpos, if_neg hzero, if_neg hall]
        have hsmall : pid < -1 := by
          rw [Int32.lt_iff_toInt_lt] at hpos ⊢
          rw [← Int32.toInt_inj] at hzero hall
          change ¬ 0 < pid.toInt at hpos
          change ¬ pid.toInt = 0 at hzero
          change ¬ pid.toInt = -1 at hall
          change pid.toInt < -1
          omega
        rw [hs]
        refine (foldl_killSlot h (fun _ _ _ _ => rfl) userSlots s).congr fun p => ?_
        rw [Swept, exists_userSlot, Chosen, Permitted, if_neg hpos]
        simp [hzero, hsmall, and_assoc]

theorem sysKill_invalid (s : Tasks) (pid : Int32) {sig : Int32} (h : ¬ ValidSig (sigNr sig)) :
    (s.sysKill pid sig).1 = s := by
  unfold sysKill
  split
  · exact sendSig_invalid h _ _ s
  · split
    · exact foldl_killSlot_invalid h _ s
    · split <;> exact foldl_killSlot_invalid h _ s

end Tasks

end Kernel
end CherryOS
