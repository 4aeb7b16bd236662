import CherryOS.Kernel.Signal

/-!
# What can be blocked

`sys_ssetmask` takes SIGKILL out of the mask it installs.  `sys_sigaction` stores the mask
of the user's `struct sigaction` as it is, and `do_signal` adds it to `blocked` when the
handler runs.  So SIGKILL stays unblocked as long as no mask that is installed has its bit.

The set-up of a task is its dispositions and its `blocked` word.  A property of it that the
delivery of a signal preserves holds of all tasks over any run in which the calls preserve
it: forks hand it down, and nothing else writes it.
-/

namespace CherryOS
namespace Kernel

open Lib Mm

/-- All tasks of the table satisfy `P`. -/
def Everywhere (P : TaskStruct → Prop) (s : State) : Prop :=
  ∀ i p, s.tasksPtr i = some p → P (s.task p)

/-- A property of the set-up alone, which `do_signal` preserves. -/
structure Settled (P : TaskStruct → Prop) : Prop where
  inherits : ∀ {t t'}, Inherits t t' → P t → P t'
  handler : ∀ {t} i, P t → P (enterHandler i t)

namespace Everywhere

variable {P : TaskStruct → Prop} {s s' : State}

theorem of_inherits (hP : ∀ {t t'}, Inherits t t' → P t → P t') (h : Everywhere P s)
    (hsig : SameSignals s.toTasks s'.toTasks)
    (hslot : ∀ i p, s'.tasksPtr i = some p → s.tasksPtr i = some p) : Everywhere P s' :=
  fun i p hp => hP (hsig p) (h i p (hslot i p hp))

theorem exit (hP : ∀ {t t'}, Inherits t t' → P t → P t') (h : Everywhere P s)
    (hs : ExitShape s s') : Everywhere P s' :=
  h.of_inherits hP hs.signals hs.slots

/-- What is known of the new record may rest on its being that of a task in the table. -/
theorem setTask {p : TaskPtr} {t : TaskStruct} (h : Everywhere P s)
    (ht : P (s.task p) → P t) : Everywhere P (s.setTask p t) := by
  intro i q hq
  have hq : s.tasksPtr i = some q := hq
  show P ((s.toTasks.setTask p t).task q)
  rw [Tasks.setTask_task]
  by_cases hqp : q = p
  · rw [if_pos hqp]
    exact ht (hqp ▸ h i q hq)
  · rw [if_neg hqp]
    exact h i q hq

/-- The child has the set-up of a parent that is in the table. -/
theorem fork (hP : ∀ {t t'}, Inherits t t' → P t → P t') (h : Everywhere P s)
    (hcur : P (s.task s.current)) (hs : ForkShape s s') : Everywhere P s' := by
  have hpage : ∀ page, (∀ q, q ≠ .frame page → s'.task q = s.task q) →
      Inherits (s.task s.current) (s'.task (.frame page)) →
      ∀ i p, s.tasksPtr i = some p → P (s'.task p) := by
    intro page htask hself i p hp
    by_cases hpp : p = .frame page
    · rw [hpp]
      exact hP hself hcur
    · rw [htask p hpp]
      exact h i p hp
  intro i p hp
  cases hs with
  | refused htask hptr _ _ =>
    rw [htask]
    exact h i p (hptr ▸ hp)
  | dropped page htask hself hptr _ _ => exact hpage page htask hself i p (hptr ▸ hp)
  | child nr page hnr _ htask hself hptr _ _ =>
    rw [hptr] at hp
    by_cases hi : i = nr
    · rw [hi, Function.update_self] at hp
      rw [← Option.some.inj hp]
      exact hP hself hcur
    · rw [Function.update_of_ne hi] at hp
      exact hpage page htask hself i p hp

/-- At the start the only task is `task0`. -/
theorem start {b : Boot} {user : UserMem} (h : P (initTask0 b.img)) :
    Everywhere P (b.sigState user).toState := by
  intro i p hp
  have hp : (if i = 0 then some TaskPtr.task0 else none) = some p := hp
  split at hp
  · cases hp
    have htask : (b.sigState user).task .task0 = initTask0 b.img := by
      simp only [Boot.sigState, Boot.state, Function.update_self]
    rwa [htask]
  · cases hp

end Everywhere

namespace SigState

variable {P : TaskStruct → Prop} {s s' : SigState}

theorem everywhere_runHandler (hP : Settled P) (h : Everywhere P s.toState) (i : Fin 32)
    (regs : SignalRegs) : Everywhere P (s.runHandler i regs).1.toState :=
  h.setTask fun hp => hP.handler i hp

theorem everywhere_doSignal (hP : Settled P) (h : Everywhere P s.toState) {regs regs' : SignalRegs}
    (hs : s.doSignal regs = .ok (s', regs')) : Everywhere P s'.toState := by
  unfold doSignal at hs
  split at hs
  · cases hs
    exact h
  split at hs
  · cases hs
    exact h
  split at hs
  · cases hs
    exact h
  rename_i i _
  have hclear : Everywhere P (s.setCur (clearSignal i s.cur)).toState :=
    h.setTask fun hp => hP.inherits (t := s.cur) ⟨rfl, rfl⟩ hp
  dsimp only at hs
  generalize s.setCur (clearSignal i s.cur) = t at hs hclear
  split at hs
  · cases hs
    exact hclear
  split at hs
  · split at hs
    · cases hs
      exact hclear
    · obtain ⟨⟨u, tr⟩, hexit, hs⟩ := bind_eq_ok hs
      have hu := hclear.exit hP.inherits (ExitShape.doExit hexit)
      cases tr with
      | switchTo nr =>
        cases hs
        exact hu
      | back =>
        have hs' : s' = ({ t with toState := u }.runHandler i regs).1 :=
          (congrArg Prod.fst (Except.ok.inj hs)).symm
        rw [hs']
        exact everywhere_runHandler hP hu i regs
  · have hs' : s' = (t.runHandler i regs).1 := (congrArg Prod.fst (Except.ok.inj hs)).symm
    rw [hs']
    exact everywhere_runHandler hP hclear i regs

theorem enter_spec {nr : Fin NUMBER_OF_TASKS} (h : s.enter nr = some s') :
    ∃ p, s.tasksPtr nr = some p ∧ s' = { s with current := p } := by
  obtain ⟨p, hp, rfl⟩ := Option.map_eq_some_iff.mp h
  exact ⟨p, hp, rfl⟩

/-- What the calls that set something must preserve, for all steps to preserve it. -/
theorem everywhere_step (hP : Settled P) (h : Everywhere P s.toState) {l : SigLabel}
    (hl : s.next l = some s')
    (hcall : ∀ nr c t u v, l = .call nr c → s.enter nr = some t → (∀ regs, c ≠ .deliver regs) →
      t.perform c = .ok (u, v) → Everywhere P t.toState → Everywhere P u.toState) :
    Everywhere P s'.toState := by
  cases l with
  | call nr c =>
    obtain ⟨t, ht, hres⟩ := Option.bind_eq_some_iff.mp hl
    obtain ⟨⟨u, v⟩, hperf, rfl⟩ := Option.map_eq_some_iff.mp hres
    have hperf : t.perform c = .ok (u, v) := by
      cases hc : t.perform c with
      | error e =>
        rw [hc] at hperf
        cases hperf
      | ok r =>
        rw [hc] at hperf
        exact congrArg Except.ok (Option.some.inj hperf)
    have ht' : Everywhere P t.toState := by
      obtain ⟨p, _, rfl⟩ := enter_spec ht
      exact h
    cases c with
    | deliver regs =>
      obtain ⟨⟨u', regs'⟩, hsig, hu⟩ := bind_eq_ok hperf
      cases hu
      exact everywhere_doSignal hP ht' hsig
    | ssetmask m =>
      exact hcall nr _ t u v rfl ht (fun _ hc => by cases hc) hperf ht'
    | signal a b c =>
      exact hcall nr _ t u v rfl ht (fun _ hc => by cases hc) hperf ht'
    | sigaction a b c =>
      exact hcall nr _ t u v rfl ht (fun _ hc => by cases hc) hperf ht'
  | fork nr regs =>
    obtain ⟨t, ht, hres⟩ := Option.bind_eq_some_iff.mp hl
    obtain ⟨u, hu, rfl⟩ := Option.map_eq_some_iff.mp hres
    obtain ⟨p, hp, rfl⟩ := enter_spec ht
    unfold State.result at hu
    split at hu
    · rename_i u' v hcopy
      cases hu
      exact Everywhere.fork hP.inherits (s := { s.toState with current := p }) h (h nr p hp)
        (State.copyProcess_shape hcopy).1
    · cases hu
  | post nr sig =>
    obtain ⟨t, ht, rfl⟩ := Option.map_eq_some_iff.mp hl
    obtain ⟨p, hp, rfl⟩ := enter_spec ht
    exact Everywhere.setTask h fun hq => hP.inherits (t := s.task p) ⟨rfl, rfl⟩ hq
  | user u =>
    cases hl
    exact h

end SigState

/-! ## SIGKILL -/

/-- SIGKILL is not blocked, and no handler would block it. -/
def Masked (t : TaskStruct) : Prop :=
  t.blocked &&& sigBit SIGKILL = 0 ∧ ∀ i, (t.sa i).saMask &&& sigBit SIGKILL = 0

theorem setSa_sa (t : TaskStruct) (i j : Fin 32) (a : SigAction) :
    (t.setSa i a).sa j = if j = i then a else t.sa j := by
  show Function.update t.sa i a j = _
  by_cases h : j = i
  · rw [h, if_pos rfl, Function.update_self]
  · rw [if_neg h, Function.update_of_ne h]

theorem Masked.setSa {t : TaskStruct} (h : Masked t) (i : Fin 32) {a : SigAction}
    (ha : a.saMask &&& sigBit SIGKILL = 0) : Masked (t.setSa i a) := by
  refine ⟨h.1, fun j => ?_⟩
  rw [setSa_sa]
  split
  · exact ha
  · exact h.2 j

theorem or_masked {a b : U32} (ha : a &&& sigBit SIGKILL = 0) (hb : b &&& sigBit SIGKILL = 0) :
    (a ||| b) &&& sigBit SIGKILL = 0 := by
  rw [BitVec.and_or_distrib_right, ha, hb]
  exact BitVec.or_zero

theorem settled_masked : Settled Masked := by
  refine ⟨fun hi h => ⟨by rw [hi.blocked]; exact h.1, fun i => by rw [hi.sa]; exact h.2 i⟩,
    fun {t} i h => ?_⟩
  have hblocked : Masked { t with blocked := t.blocked ||| (t.sa i).saMask } :=
    ⟨or_masked h.1 (h.2 i), h.2⟩
  unfold enterHandler
  dsimp only
  split
  · exact hblocked.setSa i (h.2 i)
  · exact hblocked

theorem sigIndex_ne_kill {signum : U32} (h : ¬ BadSignal signum) : sigIndex signum ≠ 8 := by
  intro hc
  refine h (Or.inr (Or.inr ?_))
  have hlo : ¬ signum < 1 := fun hl => h (Or.inl hl)
  have hhi : ¬ 32 < signum := fun hl => h (Or.inr (Or.inl hl))
  have hval : (signum.toNat - 1) % 32 = 8 := congrArg Fin.val hc
  rw [BitVec.lt_def] at hlo hhi
  have h1 : (1 : U32).toNat = 1 := rfl
  have h32 : (32 : U32).toNat = 32 := rfl
  refine BitVec.eq_of_toNat_eq ?_
  show signum.toNat = 9
  omega

/-- The bit of any signal but SIGKILL leaves SIGKILL out. -/
theorem settleMask_masked {signum : U32} (hs : ¬ BadSignal signum) {a : SigAction}
    (ha : a.saFlags &&& SA_NOMASK ≠ 0 ∨ a.saMask &&& sigBit SIGKILL = 0) :
    (settleMask (sigIndex signum) a).saMask &&& sigBit SIGKILL = 0 := by
  have hbit : ∀ i : Fin 32, i ≠ 8 → (1#32 <<< i.val) &&& sigBit SIGKILL = 0 := by decide
  unfold settleMask
  split
  · exact BitVec.zero_and
  · rename_i hflag
    exact or_masked (ha.resolve_left hflag) (hbit _ (sigIndex_ne_kill hs))

/-- A step of `sys_sigaction` that installs a mask does not install the bit of SIGKILL. -/
def InstallsNoKill (s : SigState) : SigLabel → Prop
  | .call _ (.sigaction signum action _) => BadSignal signum ∨
      (s.user.readAction action).saFlags &&& SA_NOMASK ≠ 0 ∨
      (s.user.readAction action).saMask &&& sigBit SIGKILL = 0
  | _ => True

instance (s : SigState) : (l : SigLabel) → Decidable (InstallsNoKill s l)
  | .call _ (.sigaction _ _ _) => inferInstanceAs (Decidable (_ ∨ _ ∨ _))
  | .call _ (.ssetmask _) => inferInstanceAs (Decidable True)
  | .call _ (.signal _ _ _) => inferInstanceAs (Decidable True)
  | .call _ (.deliver _) => inferInstanceAs (Decidable True)
  | .fork _ _ => inferInstanceAs (Decidable True)
  | .post _ _ => inferInstanceAs (Decidable True)
  | .user _ => inferInstanceAs (Decidable True)

theorem masked_step {s s' : SigState} {l : SigLabel} (h : Everywhere Masked s.toState)
    (hok : InstallsNoKill s l) (hl : s.next l = some s') : Everywhere Masked s'.toState := by
  refine SigState.everywhere_step settled_masked h hl ?_
  rintro nr c t u v rfl ht hno hperf htt
  obtain ⟨p, hp, rfl⟩ := SigState.enter_spec ht
  cases c with
  | deliver regs => exact absurd rfl (hno regs)
  | ssetmask m =>
    cases hperf
    refine Everywhere.setTask htt fun hm => ⟨?_, hm.2⟩
    show m &&& ~~~sigBit SIGKILL &&& sigBit SIGKILL = 0
    rw [BitVec.and_assoc, BitVec.and_comm (~~~_), BitVec.and_not_self]
    exact BitVec.and_zero
  | signal signum handler restorer =>
    have hu : u = ({ s with current := p } : SigState).setCur
        (sysSignal signum handler restorer (s.task p)).1 :=
      (congrArg Prod.fst (Except.ok.inj hperf)).symm
    rw [hu]
    refine Everywhere.setTask htt fun hm => ?_
    have hm : Masked (s.task p) := hm
    unfold sysSignal
    split
    · exact hm
    · exact hm.setSa _ BitVec.zero_and
  | sigaction signum action oldaction =>
    have hu : u = { ({ s with current := p } : SigState).setCur
        (sysSigaction signum action oldaction s.user (s.task p)).2.1 with
        user := (sysSigaction signum action oldaction s.user (s.task p)).1 } :=
      (congrArg Prod.fst (Except.ok.inj hperf)).symm
    rw [hu]
    refine Everywhere.setTask htt fun hm => ?_
    have hm : Masked (s.task p) := hm
    unfold sysSigaction
    split
    · exact hm
    · rename_i hs
      dsimp only
      have hread : ((s.task p).setSa (sigIndex signum) (s.user.readAction action)).sa
          (sigIndex signum) = s.user.readAction action := by rw [setSa_sa, if_pos rfl]
      rw [hread]
      have hset : ((s.task p).setSa (sigIndex signum) (s.user.readAction action)).setSa
          (sigIndex signum) (settleMask (sigIndex signum) (s.user.readAction action)) =
          (s.task p).setSa (sigIndex signum)
            (settleMask (sigIndex signum) (s.user.readAction action)) := by
        rw [TaskStruct.setSa, TaskStruct.setSa, TaskStruct.setSa, Function.update_idem]
      rw [hset]
      exact hm.setSa _ (settleMask_masked hs (hok.resolve_left hs))

/-- In any run of the calls in which no mask is installed that has the bit of SIGKILL, no
task blocks SIGKILL. -/
theorem sigkill_unblocked {b : Boot} {user : UserMem} {ls : List SigLabel} {s : SigState}
    (h : Run (Guarded InstallsNoKill (Steps SigState.next)) (b.sigState user) ls s) :
    ∀ i p, s.tasksPtr i = some p → (s.task p).blocked &&& sigBit SIGKILL = 0 := by
  have hstart : Everywhere Masked (b.sigState user).toState :=
    Everywhere.start ⟨BitVec.zero_and, fun _ => BitVec.zero_and⟩
  have hinv : Everywhere Masked s.toState :=
    h.invariant (P := fun s => Everywhere Masked s.toState) hstart
      fun a l b ha hl => masked_step ha hl.1 hl.2
  exact fun i p hp => (hinv i p hp).1

/-- Memory with a `struct sigaction` at `0x1000` whose handler is at `0x4000`. -/
def actionAt1000 (mask : BitVec 8) : UserMem := fun a =>
  if a = 0x1001 then 0x40 else if a = 0x1005 then mask else 0

/-- Task 1 installs the action for SIGUSR1, blocks SIGUSR1 and is sent it. -/
def sigusr1Acts (mask : BitVec 8) : List SigLabel :=
  [.fork 0 zeroRegs, .user (actionAt1000 mask), .call 1 (.sigaction 10 0x1000 0),
    .call 1 (.ssetmask 0x200), .post 1 0x200, .call 1 (.deliver ⟨0, 0, 0, 0, 0x0F, 0x202, 0x8000⟩)]

theorem sigkill_unblocked_sigusr1 :
    ∃ s, Run (Steps SigState.next) (bootOf16MB.sigState fun _ => 0) (sigusr1Acts 0x40) s ∧
      ∀ i p, s.tasksPtr i = some p → (s.task p).blocked &&& sigBit SIGKILL = 0 := by
  have hsome : (replay (restrict InstallsNoKill SigState.next) (bootOf16MB.sigState fun _ => 0)
      (sigusr1Acts 0x40)).isSome := by decide +kernel
  have hrun := run_guarded_replay hsome
  exact ⟨_, hrun.of_guarded, sigkill_unblocked hrun⟩

/-- A mask with the bit of SIGKILL gets into `blocked` when the handler runs. -/
theorem handler_mask_blocks_sigkill :
    ∃ s, Run (Steps SigState.next) (bootOf16MB.sigState fun _ => 0) (sigusr1Acts 0x01) s ∧
      ∃ p, s.tasksPtr 1 = some p ∧ (s.task p).blocked &&& sigBit SIGKILL ≠ 0 := by
  have hsome : ((replay SigState.next (bootOf16MB.sigState fun _ => 0) (sigusr1Acts 0x01)).any
      fun s => (s.tasksPtr 1).any fun p => (s.task p).blocked &&& sigBit SIGKILL != 0) = true := by
    decide +kernel
  obtain ⟨s, hs, hany⟩ := (Option.any_eq_true _ _).mp hsome
  obtain ⟨p, hp, hne⟩ := (Option.any_eq_true _ _).mp hany
  exact ⟨s, run_of_replay hs, p, hp, bne_iff_ne.mp hne⟩

end Kernel
end CherryOS
