import CherryOS.Kernel.SigMask

/-!
# Dispositions as a map

The dispositions of a task are what its own calls and the deliveries to it made of them:
`event` says what a call does to the map from signals to actions, and `inEffect` is the map
after a list of events.  The table `sa` of each task is that map after its history, so what
a call should report of the time before it is an entry of `sa`.  `sys_sigaction` reports it;
`sys_signal` reads the table after it has stored the new action and reports that instead.
-/

namespace CherryOS
namespace Kernel

open Lib Mm

abbrev Actions := Fin 32 → SigAction

/-- What happens to the disposition of a signal. -/
inductive SigEvent
  | installed (i : Fin 32) (a : SigAction)
  | handled (i : Fin 32)

/-- A handler that runs once gives way to the default. -/
def SigEvent.apply (m : Actions) : SigEvent → Actions
  | .installed i a => Function.update m i a
  | .handled i =>
    if (m i).saFlags &&& SA_ONESHOT ≠ 0 then Function.update m i { m i with saHandler := SIG_DFL }
    else m

/-- The dispositions after a history that starts from `m`. -/
def inEffect (m : Actions) (es : List SigEvent) : Actions := es.foldl SigEvent.apply m

theorem inEffect_append (m : Actions) (es fs : List SigEvent) :
    inEffect m (es ++ fs) = inEffect (inEffect m es) fs := List.foldl_append

namespace SigState

/-- The signal whose handler `do_signal` would run now. -/
def handled (regs : SignalRegs) (s : SigState) : Option (Fin 32) :=
  if s.tasksPtr 0 = some s.current ∨ regs.cs &&& 3 = 0 then none
  else (pendingSignal s.cur).filter fun i =>
    (s.cur.sa i).saHandler ≠ SIG_IGN ∧ (s.cur.sa i).saHandler ≠ SIG_DFL

/-- What a call of the current task does to its dispositions. -/
def event (s : SigState) : SigCall → Option SigEvent
  | .ssetmask _ => none
  | .signal signum handler restorer =>
    if BadSignal signum then none
    else some (.installed (sigIndex signum) (oneShotAction handler restorer))
  | .sigaction signum action _ =>
    if BadSignal signum then none
    else some (.installed (sigIndex signum)
      (settleMask (sigIndex signum) (s.user.readAction action)))
  | .deliver regs => (s.handled regs).map .handled

theorem event_signal (s : SigState) (signum handler restorer : U32) :
    s.event (.signal signum handler restorer) =
      if BadSignal signum then none
      else some (.installed (sigIndex signum) (oneShotAction handler restorer)) := rfl

theorem event_sigaction (s : SigState) (signum action oldaction : U32) :
    s.event (.sigaction signum action oldaction) =
      if BadSignal signum then none
      else some (.installed (sigIndex signum)
        (settleMask (sigIndex signum) (s.user.readAction action))) := rfl

def events (s : SigState) (p : TaskPtr) : SigLabel → List SigEvent
  | .call nr c => match s.enter nr with
    | some t => if t.current = p then (t.event c).toList else []
    | none => []
  | _ => []

theorem events_call {s t : SigState} {nr : Fin NUMBER_OF_TASKS} (h : s.enter nr = some t)
    (p : TaskPtr) (c : SigCall) :
    s.events p (.call nr c) = if t.current = p then (t.event c).toList else [] := by
  simp only [events, h]

/-- What the run over the labels does to the dispositions of the task `p`. -/
def history (s : SigState) (p : TaskPtr) : List SigLabel → List SigEvent
  | [] => []
  | l :: ls => s.events p l ++ match s.next l with
    | some t => history t p ls
    | none => []

theorem history_snoc {p : TaskPtr} {ls : List SigLabel} {l : SigLabel} {s t : SigState}
    (h : replay next s ls = some t) :
    s.history p (ls ++ [l]) = s.history p ls ++ t.events p l := by
  induction ls generalizing s with
  | nil =>
    cases h
    rw [List.nil_append, history, history, List.nil_append]
    cases t.next l <;> simp [history]
  | cons m ls ih =>
    obtain ⟨u, hu, hrest⟩ := Option.bind_eq_some_iff.mp h
    rw [List.cons_append, history, history, hu]
    simp only [ih hrest, List.append_assoc]

/-! ## The table of the current task after a call -/

theorem setCur_cur (s : SigState) (t : TaskStruct) : (s.setCur t).cur = t :=
  (Tasks.setTask_task _ _ _ _).trans (if_pos rfl)

theorem setCur_task_of_ne (s : SigState) (t : TaskStruct) {q : TaskPtr} (h : q ≠ s.current) :
    (s.setCur t).task q = s.task q :=
  (Tasks.setTask_task _ _ _ _).trans (if_neg h)

theorem setCur_self (s : SigState) : s.setCur s.cur = s := by
  have h : Function.update s.task s.current (s.task s.current) = s.task := Function.update_eq_self _ _
  show ({ s with task := Function.update s.task s.current (s.task s.current) } : SigState) = s
  rw [h]

theorem enterHandler_sa (i : Fin 32) (t : TaskStruct) :
    (enterHandler i t).sa = SigEvent.apply t.sa (.handled i) := by
  show (if (t.sa i).saFlags &&& SA_ONESHOT ≠ 0 then
    ({ t with blocked := t.blocked ||| (t.sa i).saMask } : TaskStruct).setSa i
      { t.sa i with saHandler := SIG_DFL }
    else { t with blocked := t.blocked ||| (t.sa i).saMask }).sa =
      if (t.sa i).saFlags &&& SA_ONESHOT ≠ 0 then
        Function.update t.sa i { t.sa i with saHandler := SIG_DFL } else t.sa
  split <;> rfl

/-- A handler that is already the default is not changed by being run. -/
theorem handled_default {m : Actions} {i : Fin 32} (h : (m i).saHandler = SIG_DFL) :
    SigEvent.apply m (.handled i) = m := by
  have hsame : (⟨SIG_DFL, (m i).saMask, (m i).saFlags, (m i).saRestorer⟩ : SigAction) = m i := by
    rw [← h]
  show (if (m i).saFlags &&& SA_ONESHOT ≠ 0 then
    Function.update m i ⟨SIG_DFL, (m i).saMask, (m i).saFlags, (m i).saRestorer⟩ else m) = m
  rw [hsame, Function.update_eq_self]
  split <;> rfl

/-- The table of each task after a call of the current one. -/
def Records (s s' : SigState) (e : Option SigEvent) : Prop :=
  ∀ q, (s'.task q).sa = if q = s.current then inEffect (s.task q).sa e.toList else (s.task q).sa

theorem records_setCur {s : SigState} {t : TaskStruct} {e : Option SigEvent}
    (h : t.sa = inEffect s.cur.sa e.toList) : Records s (s.setCur t) e := by
  intro q
  by_cases hq : q = s.current
  · subst hq
    rw [if_pos rfl]
    exact (congrArg TaskStruct.sa (setCur_cur s t)).trans h
  · rw [if_neg hq, setCur_task_of_ne s t hq]

theorem records_none {s s' : SigState} (h : ∀ q, (s'.task q).sa = (s.task q).sa) :
    Records s s' none := by
  intro q
  rw [h q]
  split <;> rfl

theorem records_runHandler (s : SigState) (i : Fin 32) (regs : SignalRegs) :
    Records s (s.runHandler i regs).1 (some (.handled i)) :=
  records_setCur (s := s) (e := some (.handled i)) (enterHandler_sa i s.cur)

theorem records_trans {s t u : SigState} {e : Option SigEvent} (h : Records s t none)
    (hcur : t.current = s.current) (h' : Records t u e) : Records s u e := by
  have hst : ∀ q, (t.task q).sa = (s.task q).sa := by
    intro q
    have hq := h q
    split at hq <;> exact hq
  intro q
  rw [h' q, hcur, hst q]

/-- A default action other than to ignore is an exit.  When `do_exit` comes back all the same,
the set-up of the handler leaves the default in place. -/
theorem records_exit {t s' : SigState} {i : Fin 32} {regs regs' : SignalRegs}
    (h : (t.toState.doExit (1 <<< Int32.ofNat (i.val + 1)) >>= fun r =>
      match r.2 with
      | .switchTo _ => .ok ({ t with toState := r.1 }, regs)
      | .back => .ok (({ t with toState := r.1 } : SigState).runHandler i regs)) = .ok (s', regs'))
    (hdfl : (t.cur.sa i).saHandler = SIG_DFL) : Records t s' none := by
  obtain ⟨⟨u, tr⟩, hexit, h⟩ := bind_eq_ok h
  have hu : Records t { t with toState := u } none :=
    records_none fun q => ((ExitShape.doExit hexit).signals q).sa
  cases tr with
  | switchTo nr =>
    cases h
    exact hu
  | back =>
    have hs' : s' = ({ t with toState := u }.runHandler i regs).1 :=
      (congrArg Prod.fst (Except.ok.inj h)).symm
    have huc : u.current = t.current := State.doExit_back hexit
    have husa : (u.task u.current).sa = t.cur.sa := by
      rw [huc, ((ExitShape.doExit hexit).signals _).sa]
      rfl
    have hrun := records_runHandler { t with toState := u } i regs
    rw [hs']
    refine records_trans hu huc fun q => ?_
    rw [hrun q]
    by_cases hq : q = u.current
    · subst hq
      rw [if_pos rfl, if_pos rfl]
      refine handled_default ?_
      rw [husa]
      exact hdfl
    · rw [if_neg hq, if_neg hq]

theorem doSignal_records {s s' : SigState} {regs regs' : SignalRegs}
    (hs : s.doSignal regs = .ok (s', regs')) :
    Records s s' ((s.handled regs).map .handled) := by
  unfold doSignal at hs
  unfold handled
  by_cases h0 : s.tasksPtr 0 = some s.current
  · rw [if_pos h0] at hs
    rw [if_pos (Or.inl h0)]
    cases hs
    exact records_none fun _ => rfl
  rw [if_neg h0] at hs
  by_cases hcs : regs.cs &&& 3 = 0
  · rw [if_pos hcs] at hs
    rw [if_pos (Or.inr hcs)]
    cases hs
    exact records_none fun _ => rfl
  rw [if_neg hcs] at hs
  rw [if_neg (fun hc => hc.elim h0 hcs)]
  cases hp : pendingSignal s.cur with
  | none =>
    rw [hp] at hs
    cases hs
    exact records_none fun _ => rfl
  | some i =>
    rw [hp] at hs
    have hclear : Records s (s.setCur (clearSignal i s.cur)) none :=
      records_setCur (s := s) (e := none) rfl
    have hsa : (s.setCur (clearSignal i s.cur)).cur.sa = s.cur.sa := by
      rw [setCur_cur, clearSignal]
    have hcur : (s.setCur (clearSignal i s.cur)).current = s.current := rfl
    dsimp only at hs
    rw [hsa] at hs
    generalize s.setCur (clearSignal i s.cur) = t at hs hclear hsa hcur
    rw [Option.filter_some]
    split at hs
    · rename_i hign
      cases hs
      rw [if_neg (by simp [hign])]
      exact hclear
    rename_i hign
    split at hs
    · rename_i hdfl
      rw [if_neg (by simp [hdfl])]
      split at hs
      · cases hs
        exact hclear
      · refine records_trans hclear hcur (records_exit hs ?_)
        rw [hsa]
        exact hdfl
    · rename_i hdfl
      rw [if_pos (by simp [hign, hdfl])]
      have hs' : s' = (t.runHandler i regs).1 := (congrArg Prod.fst (Except.ok.inj hs)).symm
      rw [hs']
      exact records_trans hclear hcur (records_runHandler t i regs)

theorem sysSigaction_sa {signum action oldaction : U32} {u : UserMem} {t : TaskStruct}
    (h : ¬ BadSignal signum) :
    (sysSigaction signum action oldaction u t).2.1.sa =
      Function.update t.sa (sigIndex signum)
        (settleMask (sigIndex signum) (u.readAction action)) := by
  have hread : (t.setSa (sigIndex signum) (u.readAction action)).sa (sigIndex signum) =
      u.readAction action := by rw [setSa_sa, if_pos rfl]
  rw [sysSigaction, if_neg h]
  show Function.update (Function.update t.sa (sigIndex signum) (u.readAction action))
    (sigIndex signum) (settleMask _ ((t.setSa _ _).sa _)) = _
  rw [hread, Function.update_idem]

theorem perform_records {s s' : SigState} {c : SigCall} {v : U32} (h : s.perform c = .ok (s', v)) :
    Records s s' (s.event c) := by
  cases c with
  | ssetmask m =>
    cases h
    exact records_setCur (s := s) (e := none) rfl
  | signal signum handler restorer =>
    cases h
    refine records_setCur (t := (sysSignal signum handler restorer s.cur).1) ?_
    by_cases hb : BadSignal signum
    · rw [event_signal, if_pos hb, sysSignal, if_pos hb]
      rfl
    · rw [event_signal, if_neg hb, sysSignal, if_neg hb]
      rfl
  | sigaction signum action oldaction =>
    cases h
    have hrec : ∀ u, Records s { s.setCur (sysSigaction signum action oldaction s.user s.cur).2.1
        with user := u } (s.event (.sigaction signum action oldaction)) := by
      intro u
      refine records_setCur (s := s) ?_
      by_cases hb : BadSignal signum
      · rw [event_sigaction, if_pos hb, sysSigaction, if_pos hb]
        rfl
      · rw [event_sigaction, if_neg hb, sysSigaction_sa hb]
        rfl
    exact hrec _
  | deliver regs =>
    obtain ⟨⟨u, regs'⟩, hsig, hu⟩ := bind_eq_ok h
    cases hu
    exact doSignal_records hsig

/-! ## Runs -/

theorem perform_of_next {s s' : SigState} {nr : Fin NUMBER_OF_TASKS} {c : SigCall}
    (h : s.next (.call nr c) = some s') :
    ∃ t v, s.enter nr = some t ∧ t.perform c = .ok (s', v) := by
  obtain ⟨t, ht, hres⟩ := Option.bind_eq_some_iff.mp h
  obtain ⟨⟨u, v⟩, hperf, rfl⟩ := Option.map_eq_some_iff.mp hres
  refine ⟨t, v, ht, ?_⟩
  cases hc : t.perform c with
  | error e =>
    rw [hc] at hperf
    cases hperf
  | ok r =>
    rw [hc] at hperf
    exact congrArg Except.ok (Option.some.inj hperf)

end SigState

/-- No fork starts a task with the dispositions of another. -/
def NoFork : SigLabel → Prop
  | .fork _ _ => False
  | _ => True

namespace SigState

/-- One step adds to the table of each task what it adds to its history. -/
theorem table_step {s s' : SigState} {l : SigLabel} (hf : NoFork l) (h : s.next l = some s')
    (q : TaskPtr) : (s'.task q).sa = inEffect (s.task q).sa (s.events q l) := by
  cases l with
  | fork nr regs => exact hf.elim
  | call nr c =>
    obtain ⟨t, v, ht, hperf⟩ := perform_of_next h
    obtain ⟨p, hp, rfl⟩ := enter_spec ht
    rw [perform_records hperf q, events_call ht]
    by_cases hq : q = p
    · rw [if_pos hq, if_pos hq.symm]
    · rw [if_neg hq, if_neg (Ne.symm hq)]
      rfl
  | post nr sig =>
    obtain ⟨t, ht, rfl⟩ := Option.map_eq_some_iff.mp h
    obtain ⟨p, hp, rfl⟩ := enter_spec ht
    exact Tasks.setTask_same (·.sa) (by rfl) q
  | user u =>
    cases h
    rfl

/-- The table of a task is what its history makes of the table it started with. -/
theorem table_history {s t : SigState} {ls : List SigLabel} (hf : ∀ l ∈ ls, NoFork l)
    (h : Run (Steps next) s ls t) (q : TaskPtr) :
    (t.task q).sa = inEffect (s.task q).sa (s.history q ls) := by
  induction h with
  | nil => rfl
  | snoc hrun hl ih =>
    rw [history_snoc (replay_of_run hrun), inEffect_append, ← ih fun l hl =>
      hf l (List.mem_append_left _ hl)]
    exact table_step (hf _ (by simp)) hl q

end SigState

/-- The disposition of SIGKILL was never set. -/
def KillDefault (t : TaskStruct) : Prop := t.sa 8 = ⟨SIG_DFL, 0, 0, 0⟩

/-- The signal an event is about. -/
def SigEvent.sig : SigEvent → Fin 32
  | .installed i _ => i
  | .handled i => i

theorem SigEvent.apply_other {m : Actions} {e : SigEvent} {j : Fin 32} (h : j ≠ e.sig) :
    e.apply m j = m j := by
  cases e with
  | installed i a => exact Function.update_of_ne h _ _
  | handled i =>
    show (if (m i).saFlags &&& SA_ONESHOT ≠ 0 then
      Function.update m i ⟨SIG_DFL, (m i).saMask, (m i).saFlags, (m i).saRestorer⟩ else m) j = m j
    split
    · exact Function.update_of_ne h _ _
    · rfl

/-- The entry of SIGKILL is left alone by every call on a table in which it is the default. -/
theorem SigState.event_kill {s : SigState} (h : KillDefault s.cur) (c : SigCall) :
    inEffect s.cur.sa (s.event c).toList 8 = s.cur.sa 8 := by
  cases he : s.event c with
  | none => rfl
  | some e =>
    refine SigEvent.apply_other fun h8 => ?_
    cases c with
    | ssetmask m => cases he
    | signal signum handler restorer =>
      rw [event_signal] at he
      split at he
      · cases he
      · rename_i hb
        cases he
        exact sigIndex_ne_kill hb h8.symm
    | sigaction signum action oldaction =>
      rw [event_sigaction] at he
      split at he
      · cases he
      · rename_i hb
        cases he
        exact sigIndex_ne_kill hb h8.symm
    | deliver regs =>
      obtain ⟨i, hi, rfl⟩ := Option.map_eq_some_iff.mp he
      have h8 : (8 : Fin 32) = i := h8
      subst h8
      unfold handled at hi
      split at hi
      · cases hi
      · obtain ⟨_, hfilter⟩ := Option.filter_eq_some_iff.mp hi
        have hne := (of_decide_eq_true hfilter).2
        rw [h] at hne
        exact hne rfl

theorem settled_killDefault : Settled KillDefault := by
  refine ⟨fun hi h => ?_, fun {t} i h => ?_⟩
  · rw [KillDefault, hi.sa]
    exact h
  · rw [KillDefault, SigState.enterHandler_sa]
    by_cases hi : (8 : Fin 32) = i
    · rw [← hi, SigState.handled_default (by rw [h])]
      exact h
    · rw [SigEvent.apply_other (e := .handled i) hi]
      exact h

/-- No task ever has another disposition for SIGKILL than the default. -/
theorem killDefault_of_run {b : Boot} {user : UserMem} {ls : List SigLabel} {s : SigState}
    (h : Run (Steps SigState.next) (b.sigState user) ls s) : Everywhere KillDefault s.toState := by
  have hstart : Everywhere KillDefault (b.sigState user).toState := Everywhere.start rfl
  refine h.invariant (P := fun s => Everywhere KillDefault s.toState) hstart fun a l c ha hl => ?_
  refine SigState.everywhere_step settled_killDefault ha hl ?_
  rintro nr call t u v rfl ht hno hperf htt i q hq
  have hptr : u.tasksPtr = t.tasksPtr := by
    cases call with
    | deliver regs => exact absurd rfl (hno regs)
    | ssetmask m =>
      cases hperf
      rfl
    | signal signum handler restorer =>
      cases hperf
      rfl
    | sigaction signum action oldaction =>
      cases hperf
      rfl
  rw [hptr] at hq
  have hkill := htt i q hq
  rw [KillDefault, SigState.perform_records hperf q]
  split
  · rename_i hc
    subst hc
    exact (SigState.event_kill hkill call).trans hkill
  · exact hkill

/-! ## The result -/

/-- What a call of the current task should do when `m` are its dispositions: report the
entry of `m`, leave the other entries and that of SIGKILL alone, and change nothing when the
signal is refused. -/
structure AsMap (m : Actions) (s : SigState) (c : SigCall) : Prop where
  signal : ∀ signum handler restorer s' v, c = .signal signum handler restorer →
    ¬ BadSignal signum → s.perform c = .ok (s', v) → v = (m (sigIndex signum)).saHandler
  sigaction : ∀ signum action oldaction s' v, c = .sigaction signum action oldaction →
    ¬ BadSignal signum → oldaction ≠ 0 → s.perform c = .ok (s', v) →
      s'.user.readAction oldaction = m (sigIndex signum)
  refused : ∀ signum s' v, BadSignal signum →
    ((∃ handler restorer, c = .signal signum handler restorer) ∨
      ∃ action oldaction, c = .sigaction signum action oldaction) →
    s.perform c = .ok (s', v) → s' = s ∧ v = -1
  others : ∀ s' v q j, s.perform c = .ok (s', v) →
    (q = s.current → ∀ e, s.event c = some e → j ≠ e.sig) → (s'.task q).sa j = (s.task q).sa j
  kill : ∀ s' v q, s.perform c = .ok (s', v) → (s'.task q).sa 8 = (s.task q).sa 8

namespace SigState

theorem perform_refused {s s' : SigState} {c : SigCall} {signum v : U32} (hb : BadSignal signum)
    (hc : (∃ handler restorer, c = .signal signum handler restorer) ∨
      ∃ action oldaction, c = .sigaction signum action oldaction)
    (h : s.perform c = .ok (s', v)) : s' = s ∧ v = -1 := by
  rcases hc with ⟨handler, restorer, rfl⟩ | ⟨action, oldaction, rfl⟩
  · have hcall : sysSignal signum handler restorer s.cur = (s.cur, -1) := by
      rw [sysSignal, if_pos hb]
    simp only [perform, hcall] at h
    cases h
    exact ⟨setCur_self s, rfl⟩
  · have hcall : sysSigaction signum action oldaction s.user s.cur = (s.user, s.cur, -1) := by
      rw [sysSigaction, if_pos hb]
    simp only [perform, hcall] at h
    cases h
    exact ⟨setCur_self s, rfl⟩

/-- `sys_signal` returns the handler it was given. -/
theorem perform_signal {s s' : SigState} {signum handler restorer v : U32}
    (hb : ¬ BadSignal signum) (h : s.perform (.signal signum handler restorer) = .ok (s', v)) :
    v = handler := by
  have hret : (sysSignal signum handler restorer s.cur).2 = handler := by
    rw [sysSignal, if_neg hb]
    show ((s.cur.setSa _ _).sa _).saHandler = handler
    rw [setSa_sa, if_pos rfl]
    rfl
  rw [← hret]
  exact (congrArg Prod.snd (Except.ok.inj h)).symm

/-- `sys_sigaction` writes out the entry as it was before the call. -/
theorem perform_sigaction {s s' : SigState} {signum action oldaction v : U32}
    (hb : ¬ BadSignal signum) (hold : oldaction ≠ 0)
    (h : s.perform (.sigaction signum action oldaction) = .ok (s', v)) :
    s'.user.readAction oldaction = s.cur.sa (sigIndex signum) := by
  have huser : (sysSigaction signum action oldaction s.user s.cur).1 =
      s.user.writeAction oldaction (s.cur.sa (sigIndex signum)) := by
    rw [sysSigaction, if_neg hb]
    exact if_pos hold
  have hs' : s'.user = (sysSigaction signum action oldaction s.user s.cur).1 :=
    congrArg (fun r : SigState × U32 => r.1.user) (Except.ok.inj h).symm
  rw [hs', huser, UserMem.readAction_writeAction]

theorem perform_kill {s s' : SigState} (h : KillDefault s.cur) {c : SigCall} {v : U32}
    (hp : s.perform c = .ok (s', v)) (q : TaskPtr) : (s'.task q).sa 8 = (s.task q).sa 8 := by
  rw [perform_records hp q]
  split
  · rename_i hq
    subst hq
    exact event_kill h c
  · rfl

/-- All but the value of `sys_signal` is as the map says, and that is if the handler it
installs is the one that is installed already. -/
theorem asMap_iff {s : SigState} (h : KillDefault s.cur) (c : SigCall) :
    AsMap s.cur.sa s c ↔ ∀ signum handler restorer, c = .signal signum handler restorer →
      ¬ BadSignal signum → (s.cur.sa (sigIndex signum)).saHandler = handler := by
  constructor
  · rintro hm signum handler restorer rfl hb
    have hv := hm.signal signum handler restorer _ _ rfl hb rfl
    rw [← hv]
    exact perform_signal (s := s) hb rfl
  · intro hsame
    refine ⟨?_, ?_, fun signum s' v hb hc hp => perform_refused hb hc hp, ?_,
      fun s' v q hp => perform_kill h hp q⟩
    · rintro signum handler restorer s' v rfl hb hp
      rw [perform_signal hb hp, hsame signum handler restorer rfl hb]
    · rintro signum action oldaction s' v rfl hb hold hp
      exact perform_sigaction hb hold hp
    · intro s' v q j hp hj
      rw [perform_records hp q]
      split
      · rename_i hq
        cases he : s.event c with
        | none => rfl
        | some e => exact SigEvent.apply_other (hj hq e he)
      · rfl

end SigState

/-- A call at some point of the run over `ls`, and the state its caller makes it in. -/
def CallAt (s : SigState) (ls pre : List SigLabel) (t : SigState) (c : SigCall) : Prop :=
  ∃ nr post u, ls = pre ++ .call nr c :: post ∧ replay SigState.next s pre = some u ∧
    u.enter nr = some t

/-- From any state the kernel reaches: in a run of calls and deliveries every call finds and
leaves the dispositions as a map would, and reports what was in effect before it, exactly
when each `sys_signal` installs the handler that is installed already. -/
theorem dispositions_iff {b : Boot} {user : UserMem} {ls₀ ls : List SigLabel} {s : SigState}
    (hreach : Run (Steps SigState.next) (b.sigState user) ls₀ s)
    (hcalls : ∀ l ∈ ls, NoFork l) :
    (∀ pre u c, CallAt s ls pre u c →
      AsMap (inEffect (s.task u.current).sa (s.history u.current pre)) u c) ↔
    ∀ pre u signum handler restorer, CallAt s ls pre u (.signal signum handler restorer) →
      ¬ BadSignal signum → (u.cur.sa (sigIndex signum)).saHandler = handler := by
  have hat : ∀ pre u c, CallAt s ls pre u c → KillDefault u.cur ∧
      u.cur.sa = inEffect (s.task u.current).sa (s.history u.current pre) := by
    rintro pre u c ⟨nr, post, w, rfl, hpre, henter⟩
    obtain ⟨p, hp, rfl⟩ := SigState.enter_spec henter
    have hprerun := run_of_replay hpre
    refine ⟨killDefault_of_run (hreach.append hprerun) nr p hp, ?_⟩
    exact SigState.table_history (fun l hl => hcalls l (List.mem_append_left _ hl)) hprerun p
  constructor
  · intro hall pre u signum handler restorer hc hb
    obtain ⟨hkill, htab⟩ := hat pre u _ hc
    have hm := hall pre u _ hc
    rw [← htab] at hm
    exact (SigState.asMap_iff hkill _).mp hm signum handler restorer rfl hb
  · intro hall pre u c hc
    obtain ⟨hkill, htab⟩ := hat pre u c hc
    rw [← htab]
    refine (SigState.asMap_iff hkill c).mpr ?_
    rintro signum handler restorer rfl hb
    exact hall pre u signum handler restorer hc hb

/-- Task 1 after the first fork, and the handler it has for SIGUSR1. -/
theorem first_fork :
    ∃ s p, Run (Steps SigState.next) (bootOf16MB.sigState (actionAt1000 1)) [.fork 0 zeroRegs] s ∧
      s.tasksPtr 1 = some p ∧ ((s.task p).sa (sigIndex 10)).saHandler = SIG_DFL := by
  have hsome : ((SigState.next (bootOf16MB.sigState (actionAt1000 1)) (.fork 0 zeroRegs)).any
      fun s => (s.tasksPtr 1).any fun p =>
        ((s.task p).sa (sigIndex 10)).saHandler == SIG_DFL) = true := by decide +kernel
  obtain ⟨s, hs, hany⟩ := (Option.any_eq_true _ _).mp hsome
  obtain ⟨p, hp, heq⟩ := (Option.any_eq_true _ _).mp hany
  exact ⟨s, p, Run.single hs, hp, beq_iff_eq.mp heq⟩

/-- `sys_signal` returns the handler it has just installed, not the default before it. -/
theorem signal_returns_new_handler :
    ∃ s t s' v, Run (Steps SigState.next) (bootOf16MB.sigState (actionAt1000 1))
        [.fork 0 zeroRegs] s ∧
      CallAt s [.call 1 (.signal 10 0x4000 0x5000)] [] t (.signal 10 0x4000 0x5000) ∧
      ¬ BadSignal 10 ∧ t.perform (.signal 10 0x4000 0x5000) = .ok (s', v) ∧ v = 0x4000 ∧
      (inEffect (s.task t.current).sa (s.history t.current []) (sigIndex 10)).saHandler =
        SIG_DFL := by
  obtain ⟨s, p, hrun, hp, hdfl⟩ := first_fork
  have henter : s.enter 1 = some { s with current := p } := by rw [SigState.enter, hp]; rfl
  have hgood : ¬ BadSignal 10 := by decide
  exact ⟨s, { s with current := p }, _, _, hrun, ⟨1, [], s, rfl, rfl, henter⟩, hgood, rfl,
    SigState.perform_signal (s := { s with current := p }) hgood rfl, hdfl⟩

/-- Task 1 replaces the default for SIGUSR1 by `sys_sigaction`, installs the new handler once
more by `sys_signal` and asks for the action. -/
def reinstalls : List SigLabel :=
  [.call 1 (.sigaction 10 0x1000 0x2000), .call 1 (.signal 10 0x4000 0x5000),
    .call 1 (.sigaction 10 0x1000 0x3000)]

theorem reinstalled {s t w : SigState}
    (hs : SigState.next (bootOf16MB.sigState (actionAt1000 1)) (.fork 0 zeroRegs) = some s)
    (ht : replay SigState.next s [.call 1 (.sigaction 10 0x1000 0x2000)] = some t)
    (hw : t.enter 1 = some w) : (w.cur.sa (sigIndex 10)).saHandler = 0x4000 := by
  have hsome : ((replay SigState.next (bootOf16MB.sigState (actionAt1000 1))
      [.fork 0 zeroRegs, .call 1 (.sigaction 10 0x1000 0x2000)]).any fun t => (t.enter 1).any fun w =>
        (w.cur.sa (sigIndex 10)).saHandler == 0x4000) = true := by decide +kernel
  rw [replay, hs] at hsome
  change ((replay SigState.next s _).any _) = true at hsome
  rw [ht, Option.any_some, hw, Option.any_some] at hsome
  exact beq_iff_eq.mp hsome

/-- The second call reports the handler that the first has installed. -/
theorem dispositions_iff_reinstalls :
    ∃ s, Run (Steps SigState.next) (bootOf16MB.sigState (actionAt1000 1)) [.fork 0 zeroRegs] s ∧
      ∀ pre u c, CallAt s reinstalls pre u c →
        AsMap (inEffect (s.task u.current).sa (s.history u.current pre)) u c := by
  obtain ⟨s, hs⟩ : ∃ s,
      SigState.next (bootOf16MB.sigState (actionAt1000 1)) (.fork 0 zeroRegs) = some s :=
    Option.isSome_iff_exists.mp (by decide +kernel)
  have hrun : Run (Steps SigState.next) (bootOf16MB.sigState (actionAt1000 1))
      [.fork 0 zeroRegs] s := Run.single hs
  refine ⟨s, hrun, (dispositions_iff hrun ?_).mpr ?_⟩
  · intro l hl
    rw [reinstalls] at hl
    simp only [List.mem_cons, List.not_mem_nil, or_false] at hl
    rcases hl with rfl | rfl | rfl <;> trivial
  · rintro pre u signum handler restorer ⟨nr, post, t, hsplit, hpre, henter⟩ _
    rcases pre with _ | ⟨l₁, _ | ⟨l₂, _ | ⟨l₃, pre⟩⟩⟩
    · cases hsplit
    · cases hsplit
      exact reinstalled hs hpre henter
    · cases hsplit
    · simp [reinstalls] at hsplit

end Kernel
end CherryOS
