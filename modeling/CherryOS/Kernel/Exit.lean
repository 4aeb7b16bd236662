import CherryOS.Kernel.Fork

/-!
# exit

`do_exit` gives the memory of the current task back, hands its children to task 1, makes
the task a zombie and tells its father.  `schedule()` and what calls it end in a
`Transfer`: `back` means that the call returned to its caller.
-/

namespace CherryOS
namespace Kernel

open Mm

namespace Tasks

/-- `send_sig(sig, p, priv)`; `none` is a null `p`. -/
def sendSig (sig : Nat) (p : Option TaskPtr) (priv : Bool) (s : Tasks) : Tasks × Int32 :=
  match p with
  | none => (s, -EINVAL)
  | some p =>
    if sig < 1 ∨ 32 < sig then (s, -EINVAL)
    else if priv ∨ (s.task s.current).euid = 0 ∨ (s.task s.current).euid = (s.task p).euid then
      (s.setTask p { s.task p with signal := (s.task p).signal ||| sigBit sig }, 0)
    else (s, -EPERM)

/-- The body of the loop of `do_exit` over the other tasks. -/
def adoptSlot (s : Tasks) (i : Fin NUMBER_OF_TASKS) : Tasks :=
  match s.tasksPtr i with
  | none => s
  | some p =>
    if (s.task p).father = (s.task s.current).pid then
      let s := s.setTask p { s.task p with father := 1 }
      if (s.task p).state = .zombie then (s.sendSig SIGCHLD (s.tasksPtr 1) true).1 else s
    else s

def adoptChildren (s : Tasks) : Tasks := userSlots.foldl adoptSlot s

def hangUpSlot (s : Tasks) (i : Fin NUMBER_OF_TASKS) : Tasks :=
  match s.tasksPtr i with
  | none => s
  | some p =>
    if (s.task p).session = (s.task s.current).session then
      s.setTask p { s.task p with signal := (s.task p).signal ||| sigBit SIGHUP }
    else s

/-- `kill_session()` -/
def killSession (s : Tasks) : Tasks := userSlots.foldl hangUpSlot s

/-- What `do_exit` does to the task table before it tells the father. -/
def becomeZombie (code : Int32) (s : Tasks) : Tasks :=
  let s := s.adoptChildren
  let s := if (s.task s.current).leader ≠ 0 then s.killSession else s
  s.setTask s.current { s.task s.current with state := .zombie, exitCode := code }

/-! ## What an exit does to the other tasks -/

def HasSignal (t : TaskStruct) (sig : Nat) : Prop := t.signal &&& sigBit sig ≠ 0

theorem HasSignal.keeps {t t' : TaskStruct} {sig : Nat} (h : HasSignal t sig) (hk : Keeps t t') :
    HasSignal t' sig := by
  obtain ⟨more, hmore⟩ := hk.signal
  intro h0
  rw [hmore, BitVec.and_or_distrib_right] at h0
  exact h (BitVec.or_eq_zero_iff.mp h0).1

theorem hasSignal_raise (t : TaskStruct) {sig : Nat} (hsig : sigBit sig ≠ 0) :
    HasSignal { t with signal := t.signal ||| sigBit sig } sig := by
  intro h0
  have h0 : (t.signal ||| sigBit sig) &&& sigBit sig = 0 := h0
  rw [BitVec.and_or_distrib_right, BitVec.and_self] at h0
  exact hsig (BitVec.or_eq_zero_iff.mp h0).2

theorem sendSig_child (s : Tasks) (p : Option TaskPtr) :
    (s.sendSig SIGCHLD p true).1 = match p with
      | none => s
      | some p => s.setTask p { s.task p with signal := (s.task p).signal ||| sigBit SIGCHLD } := by
  cases p with
  | none => rfl
  | some p => rw [sendSig, if_neg (by decide), if_pos (Or.inl rfl)]

/-- SIGCHLD changes the pending signals of one record, if of any. -/
theorem sendSig_child_spec (s : Tasks) (o : Option TaskPtr) :
    (s.sendSig SIGCHLD o true).1.current = s.current ∧
      (s.sendSig SIGCHLD o true).1.tasksPtr = s.tasksPtr ∧
      (∀ q, Keeps (s.task q) ((s.sendSig SIGCHLD o true).1.task q)) ∧
      (∀ q, ((s.sendSig SIGCHLD o true).1.task q).state = (s.task q).state) ∧
      (∀ q, ((s.sendSig SIGCHLD o true).1.task q).father = (s.task q).father) ∧
      ∀ q, o = some q → HasSignal ((s.sendSig SIGCHLD o true).1.task q) SIGCHLD := by
  rw [sendSig_child]
  cases o with
  | none =>
    exact ⟨rfl, rfl, fun q => Keeps.refl _, fun _ => rfl, fun _ => rfl, fun q hq => by cases hq⟩
  | some p =>
    refine ⟨rfl, rfl, setTask_related Keeps.refl ⟨rfl, rfl, _, rfl⟩,
      setTask_same (·.state) rfl, setTask_same (·.father) rfl, ?_⟩
    rintro _ ⟨⟩
    rw [setTask_task, if_pos rfl]
    exact hasSignal_raise _ (by decide)

/-- What a sweep of `adoptSlot` over the slots `l` leaves behind. -/
structure Adopted (l : List (Fin NUMBER_OF_TASKS)) (s s' : Tasks) : Prop where
  current : s'.current = s.current
  tasksPtr : s'.tasksPtr = s.tasksPtr
  keeps : ∀ q, Keeps (s.task q) (s'.task q)
  state : ∀ q, (s'.task q).state = (s.task q).state
  father : ∀ q, (s'.task q).father =
    if (∃ i ∈ l, s.tasksPtr i = some q) ∧ (s.task q).father = (s.task s.current).pid then 1
    else (s.task q).father
  signal : ∀ i ∈ l, ∀ p, s.tasksPtr i = some p → (s.task p).father = (s.task s.current).pid →
    (s.task p).state = .zombie → ∀ q, s.tasksPtr 1 = some q → HasSignal (s'.task q) SIGCHLD

/-- A slot whose task is not a child of the current one is left alone. -/
theorem adopted_other {s : Tasks} {i : Fin NUMBER_OF_TASKS}
    (h : ∀ p, s.tasksPtr i = some p → (s.task p).father ≠ (s.task s.current).pid) :
    Adopted [i] s s := by
  refine ⟨rfl, rfl, fun q => Keeps.refl _, fun q => rfl, fun q => ?_, fun k hk p hp hf => ?_⟩
  · rw [if_neg]
    rintro ⟨⟨k, hk, hkq⟩, hf⟩
    rw [List.mem_singleton.mp hk] at hkq
    exact h q hkq hf
  · rw [List.mem_singleton.mp hk] at hp
    exact absurd hf (h p hp)

/-- A child gets task 1 for its father, which hears of it if the child is dead. -/
theorem adopted_child {s s' : Tasks} {i : Fin NUMBER_OF_TASKS} {p : TaskPtr}
    (hi : s.tasksPtr i = some p) (hf : (s.task p).father = (s.task s.current).pid)
    (hcurrent : s'.current = s.current) (htasksPtr : s'.tasksPtr = s.tasksPtr)
    (hkeeps : ∀ q, Keeps ((s.setTask p { s.task p with father := 1 }).task q) (s'.task q))
    (hstate : ∀ q, (s'.task q).state =
      ((s.setTask p { s.task p with father := 1 }).task q).state)
    (hfather : ∀ q, (s'.task q).father =
      ((s.setTask p { s.task p with father := 1 }).task q).father)
    (hsignal : (s.task p).state = .zombie → ∀ q, s.tasksPtr 1 = some q →
      HasSignal (s'.task q) SIGCHLD) : Adopted [i] s s' := by
  have hfirst : ∀ q, Keeps (s.task q) ((s.setTask p { s.task p with father := 1 }).task q) :=
    setTask_related Keeps.refl ⟨rfl, rfl, 0, BitVec.or_zero.symm⟩
  refine ⟨hcurrent, htasksPtr, fun q => (hfirst q).trans (hkeeps q),
    fun q => (hstate q).trans (setTask_same (·.state) (by rfl) q), fun q => ?_,
    fun k hk p' hp' _ hz q hq => ?_⟩
  · rw [hfather, setTask_task]
    by_cases hq : q = p
    · subst hq
      simp [hi, hf]
    · have hqi : ¬ ∃ k ∈ [i], s.tasksPtr k = some q := by
        intro ⟨k, hk, hkq⟩
        rw [List.mem_singleton.mp hk, hi] at hkq
        cases hkq
        exact hq rfl
      rw [if_neg hq, if_neg (fun hc => hqi hc.1)]
  · rw [List.mem_singleton.mp hk, hi] at hp'
    cases hp'
    exact hsignal hz q hq

theorem adoptSlot_spec (s : Tasks) (i : Fin NUMBER_OF_TASKS) : Adopted [i] s (s.adoptSlot i) := by
  cases hi : s.tasksPtr i with
  | none =>
    have hs : s.adoptSlot i = s := by rw [adoptSlot, hi]
    rw [hs]
    exact adopted_other fun p hp => by rw [hi] at hp; cases hp
  | some p =>
    by_cases hf : (s.task p).father = (s.task s.current).pid
    · obtain ⟨s₁, hs₁⟩ : ∃ s₁, s₁ = s.setTask p { s.task p with father := 1 } := ⟨_, rfl⟩
      have hstate : (s₁.task p).state = (s.task p).state := by
        rw [hs₁]
        exact setTask_same (·.state) (by rfl) p
      by_cases hz : (s₁.task p).state = .zombie
      · have hs : s.adoptSlot i = (s₁.sendSig SIGCHLD (s₁.tasksPtr 1) true).1 := by
          rw [adoptSlot, hi]
          simp only [hf, ← hs₁, hz, if_true]
        obtain ⟨hcurrent, hptr, hkeeps, hstates, hfathers, hsignal⟩ :=
          s₁.sendSig_child_spec (s₁.tasksPtr 1)
        rw [hs]
        refine adopted_child hi hf (hcurrent.trans (hs₁ ▸ rfl)) (hptr.trans (hs₁ ▸ rfl))
          (hs₁ ▸ hkeeps) (hs₁ ▸ hstates) (hs₁ ▸ hfathers) fun _ q hq => hsignal q ?_
        rw [hs₁, setTask_tasksPtr, hq]
      · have hs : s.adoptSlot i = s₁ := by
          rw [adoptSlot, hi]
          simp only [hf, ← hs₁, hz, if_true, if_false]
        rw [hs, hs₁]
        exact adopted_child hi hf rfl rfl (fun q => Keeps.refl _) (fun _ => rfl) (fun _ => rfl)
          fun hzombie => absurd (hstate.trans hzombie) hz
    · have hs : s.adoptSlot i = s := by
        rw [adoptSlot, hi]
        simp only [hf, if_false]
      rw [hs]
      refine adopted_other fun q hq => ?_
      rw [hi] at hq
      cases hq
      exact hf

theorem Adopted.trans {l l' : List (Fin NUMBER_OF_TASKS)} {s s' s'' : Tasks}
    (h : Adopted l s s') (h' : Adopted l' s' s'') : Adopted (l ++ l') s s'' := by
  have hpid : (s'.task s'.current).pid = (s.task s.current).pid := by
    rw [h.current, (h.keeps _).pid]
  refine ⟨h'.current.trans h.current, h'.tasksPtr.trans h.tasksPtr,
    fun q => (h.keeps q).trans (h'.keeps q), fun q => (h'.state q).trans (h.state q),
    fun q => ?_, fun i hi p hp hf hz q hq => ?_⟩
  · rw [h'.father, hpid, h.tasksPtr]
    by_cases hl : (∃ i ∈ l, s.tasksPtr i = some q) ∧ (s.task q).father = (s.task s.current).pid
    · obtain ⟨i, hi, hiq⟩ := hl.1
      have hall : (∃ i ∈ l ++ l', s.tasksPtr i = some q) ∧
          (s.task q).father = (s.task s.current).pid :=
        ⟨⟨i, List.mem_append_left l' hi, hiq⟩, hl.2⟩
      rw [h.father, if_pos hl, if_pos hall]
      split <;> rfl
    · rw [h.father, if_neg hl]
      refine if_congr ⟨fun hc => ?_, fun hc => ?_⟩ rfl rfl
      · obtain ⟨⟨i, hi, hiq⟩, hf⟩ := hc
        exact ⟨⟨i, List.mem_append_right l hi, hiq⟩, hf⟩
      · obtain ⟨⟨i, hi, hiq⟩, hf⟩ := hc
        rcases List.mem_append.mp hi with hi | hi
        · exact absurd ⟨⟨i, hi, hiq⟩, hf⟩ hl
        · exact ⟨⟨i, hi, hiq⟩, hf⟩
  · by_cases hl : ∃ k ∈ l, s.tasksPtr k = some p
    · obtain ⟨k, hk, hkp⟩ := hl
      exact (h.signal k hk p hkp hf hz q hq).keeps (h'.keeps q)
    · have hi' : i ∈ l' := (List.mem_append.mp hi).resolve_left fun hc => hl ⟨i, hc, hp⟩
      refine h'.signal i hi' p (by rwa [h.tasksPtr]) ?_ ?_ q (by rwa [h.tasksPtr])
      · rw [h.father, if_neg (fun hc => hl hc.1), hpid, hf]
      · rw [h.state, hz]

theorem foldl_adoptSlot (l : List (Fin NUMBER_OF_TASKS)) (s : Tasks) :
    Adopted l s (l.foldl adoptSlot s) := by
  induction l generalizing s with
  | nil => exact ⟨rfl, rfl, fun q => Keeps.refl _, fun q => rfl, by simp, by simp⟩
  | cons i l ih => exact (adoptSlot_spec s i).trans (ih (s.adoptSlot i))

/-- `kill_session` sends signals and changes nothing else. -/
theorem foldl_hangUpSlot (l : List (Fin NUMBER_OF_TASKS)) (s : Tasks) :
    (l.foldl hangUpSlot s).current = s.current ∧
      (l.foldl hangUpSlot s).tasksPtr = s.tasksPtr ∧
      ∀ q, ∃ sig, (l.foldl hangUpSlot s).task q =
        { s.task q with signal := (s.task q).signal ||| sig } := by
  induction l generalizing s with
  | nil => exact ⟨rfl, rfl, fun q => ⟨0#32, by rw [BitVec.or_zero]; rfl⟩⟩
  | cons i l ih =>
    obtain ⟨hc, ht, hq⟩ := ih (s.hangUpSlot i)
    have hs : s.hangUpSlot i = s ∨ ∃ p, s.hangUpSlot i =
        s.setTask p { s.task p with signal := (s.task p).signal ||| sigBit SIGHUP } := by
      unfold hangUpSlot
      split
      · exact Or.inl rfl
      · split
        · exact Or.inr ⟨_, rfl⟩
        · exact Or.inl rfl
    rw [List.foldl_cons]
    rcases hs with hs | ⟨p, hs⟩
    · rw [hs] at hc ht hq ⊢
      exact ⟨hc, ht, hq⟩
    · rw [hs] at hc ht hq ⊢
      refine ⟨hc, ht, fun q => ?_⟩
      obtain ⟨sig, hsig⟩ := hq q
      rw [setTask_task] at hsig
      by_cases hqp : q = p
      · subst hqp
        rw [if_pos rfl] at hsig
        exact ⟨sigBit SIGHUP ||| sig, by rw [hsig, BitVec.or_assoc]⟩
      · rw [if_neg hqp] at hsig
        exact ⟨sig, hsig⟩

/-- The task table when `do_exit` comes to `tell_father`. -/
structure Exited (s s' : Tasks) : Prop where
  current : s'.current = s.current
  tasksPtr : s'.tasksPtr = s.tasksPtr
  keeps : ∀ q, Keeps (s.task q) (s'.task q)
  self : (s'.task s.current).state = .zombie
  state : ∀ q, q ≠ s.current → (s'.task q).state = (s.task q).state
  father : ∀ q, (s'.task q).father =
    if (∃ i, i ≠ 0 ∧ s.tasksPtr i = some q) ∧ (s.task q).father = (s.task s.current).pid then 1
    else (s.task q).father
  signal : ∀ i p, i ≠ 0 → s.tasksPtr i = some p → (s.task p).father = (s.task s.current).pid →
    (s.task p).state = .zombie → ∀ q, s.tasksPtr 1 = some q → HasSignal (s'.task q) SIGCHLD

theorem becomeZombie_spec (code : Int32) (s : Tasks) : Exited s (s.becomeZombie code) := by
  have ha : Adopted userSlots s s.adoptChildren := foldl_adoptSlot userSlots s
  obtain ⟨s₂, hs₂⟩ : ∃ s₂, s₂ = if (s.adoptChildren.task s.adoptChildren.current).leader ≠ 0 then
    s.adoptChildren.killSession else s.adoptChildren := ⟨_, rfl⟩
  have hkill : s₂.current = s.current ∧ s₂.tasksPtr = s.tasksPtr ∧
      ∀ q, ∃ sig, s₂.task q = { s.adoptChildren.task q with
        signal := (s.adoptChildren.task q).signal ||| sig } := by
    rw [hs₂]
    split
    · obtain ⟨hc, ht, hq⟩ := foldl_hangUpSlot userSlots s.adoptChildren
      exact ⟨hc.trans ha.current, ht.trans ha.tasksPtr, hq⟩
    · exact ⟨ha.current, ha.tasksPtr, fun q => ⟨0#32, by rw [BitVec.or_zero]⟩⟩
  obtain ⟨hc, ht, hq⟩ := hkill
  have hs : s.becomeZombie code =
      s₂.setTask s₂.current { s₂.task s₂.current with state := .zombie, exitCode := code } := by
    rw [becomeZombie, hs₂]
  have htask : ∀ q, (s.becomeZombie code).task q =
      if q = s.current then { s₂.task s.current with state := .zombie, exitCode := code }
      else s₂.task q := by
    intro q
    rw [hs, setTask_task, hc]
  have hkeeps : ∀ q, Keeps (s.adoptChildren.task q) ((s.becomeZombie code).task q) ∧
      ((s.becomeZombie code).task q).father = (s.adoptChildren.task q).father := by
    intro q
    obtain ⟨sig, hsig⟩ := hq q
    rw [htask]
    split
    · rename_i hqc
      subst hqc
      rw [hsig]
      exact ⟨⟨rfl, rfl, sig, rfl⟩, rfl⟩
    · rw [hsig]
      exact ⟨⟨rfl, rfl, sig, rfl⟩, rfl⟩
  refine ⟨by rw [hs, setTask_current, hc], by rw [hs, setTask_tasksPtr, ht],
    fun q => (ha.keeps q).trans (hkeeps q).1, by rw [htask, if_pos rfl], fun q hne => ?_,
    fun q => ?_, fun i p hi hp hf hz q h1 => ?_⟩
  · obtain ⟨sig, hsig⟩ := hq q
    rw [htask, if_neg hne, hsig]
    exact ha.state q
  · rw [(hkeeps q).2, ha.father]
    refine if_congr (and_congr_left' ?_) rfl rfl
    simp only [mem_userSlots]
  · exact (ha.signal i (mem_userSlots.mpr hi) p hp hf hz q h1).keeps (hkeeps q).1

end Tasks

namespace State

def taskAddr (s : State) : TaskPtr → U32
  | .task0 => s.img.task0
  | .frame addr => addr

/-- `schedule()` -/
def schedule (s : State) : State × Transfer :=
  ({ s with toTasks := s.toTasks.schedule.1 }, s.toTasks.schedule.2)

def release (p : TaskPtr) (s : State) : Except Fault (State × Transfer) :=
  match (List.finRange NUMBER_OF_TASKS).find? fun i => s.tasksPtr i = some p with
  | none => .error (.panic "in release()\n")
  | some i => do
    let mem ← s.mem.freePage (s.taskAddr p)
    .ok { s.setSlot i none with mem := mem }.schedule

def tellFather (fatherPid : Int32) (s : State) : Except Fault (State × Transfer) :=
  if fatherPid = 0 then .ok (s, .back)
  else
    match s.findPidTask fatherPid with
    | some p =>
      .ok (s.setTask p { s.task p with signal := (s.task p).signal ||| sigBit SIGCHLD }, .back)
    | none => s.release s.current

/-- The two calls of `free_page_tables` in `do_exit`. -/
def freeWindows (s : State) : Except Fault Mem := do
  let cur := s.task s.current
  let mem ← s.mem.freePageTables (getSegmentBase (cur.ldt 1)) (getSegmentLimit cur.ldt 0x000F)
  mem.freePageTables (getSegmentBase (cur.ldt 2)) (getSegmentLimit cur.ldt 0x0017)

/-- `do_exit` up to the call of `tell_father`. -/
def beginExit (code : Int32) (s : State) : Except Fault State := do
  let mem ← s.freeWindows
  .ok { s with toTasks := s.toTasks.becomeZombie code, mem := mem }

def doExit (code : Int32) (s : State) : Except Fault (State × Transfer) := do
  let s ← s.beginExit code
  let (s, tr) ← s.tellFather (s.task s.current).father
  match tr with
  | .switchTo _ => .ok (s, tr)
  | .back => .ok s.schedule

end State

end Kernel
end CherryOS
