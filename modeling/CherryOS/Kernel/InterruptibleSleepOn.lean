import CherryOS.Kernel.WaitQueue
import CherryOS.Lib.Run

/-!
# The interruptible queue and the sleeper it can drop

`interruptible_sleep_on` looks at `*p` each time `schedule()` comes back to it.  When a
newer sleeper heads the queue, the caller makes that one running and goes back to sleep
without linking itself again.  It stays reachable only if it is the `tmp` of some other
task inside.  `Relinked` is that condition, on the state the tail starts from, and it is
exact: a tail that meets it keeps every sleeper held, and a tail that does not drops its
own task.
-/

namespace CherryOS
namespace Kernel
namespace InterruptibleSleepOn

open Lib
open Sleepers (Start Inside)

variable {Task : Type} [DecidableEq Task]

def next (task0 : Task) (s : Sleepers Task) : Act Task → Option (Sleepers Task)
  | .switch t => s.switch t
  | .sleep =>
    if s.w.current = task0 ∨ s.Inside s.w.current then none
    else some
      { w := s.w.interruptibleSleepOnEnter.1,
        saved := Function.update s.saved s.w.current (some s.w.interruptibleSleepOnEnter.2) }
  | .tail t =>
    if s.w.current = t then
      (s.saved t).map fun tmp =>
        { w := (s.w.interruptibleSleepOnResume tmp).1,
          saved :=
            if (s.w.interruptibleSleepOnResume tmp).2 then Function.update s.saved t none
            else s.saved }
    else none
  | .wake => some { s with w := s.w.wakeUp }
  | .set t st => s.set t st

abbrev Step (task0 : Task) := Steps (next task0)

def Waiting (s : Sleepers Task) (t : Task) : Prop :=
  s.Inside t ∧ s.w.state t = .interruptible

/-- `t` is `*q` or the saved `tmp` of some other task inside. -/
def Held (s : Sleepers Task) (t : Task) : Prop :=
  s.w.head = some t ∨ ∃ u, u ≠ t ∧ s.saved u = some (some t)

def AllHeld (s : Sleepers Task) : Prop := ∀ t, Waiting s t → Held s t

/-- A task whose tail finds another task at the head is the `tmp` of a third. -/
def Relinked (s : Sleepers Task) : Act Task → Prop
  | .tail t => s.w.head = none ∨ Held s t
  | _ => True

/-- The head is a task inside: a call that ends clears it. -/
structure Kept (s : Sleepers Task) : Prop where
  head : ∀ t, s.w.head = some t → s.Inside t
  held : AllHeld s

omit [DecidableEq Task] in
theorem kept_start {s : Sleepers Task} (h : Start s) : Kept s := by
  refine ⟨fun t ht => ?_, fun t ht => absurd ht.1 (h.not_inside t)⟩
  rw [h.1] at ht
  cases ht

/-! ## One step -/

theorem kept_set {s : Sleepers Task} (h : Kept s) {t : Task} {st : TaskState}
    (hok : s.saved t = none ∨ st = .running) : Kept { s with w := s.w.setState t st } :=
  ⟨h.head, fun x hx =>
    h.held x ⟨hx.1, Sleepers.asleep_of_set hok hx.1 hx.2 (by decide)⟩⟩

/-- The caller is the new head, and the old head is its `tmp`. -/
theorem kept_sleep {s : Sleepers Task} (h : Kept s) (hout : s.saved s.w.current = none) :
    Kept { w := s.w.interruptibleSleepOnEnter.1,
           saved := Function.update s.saved s.w.current
             (some s.w.interruptibleSleepOnEnter.2) } := by
  refine ⟨fun x hx => ?_, fun x hx => ?_⟩
  · have hxc : s.w.current = x := by
      simpa [Wait.interruptibleSleepOnEnter, Wait.push] using hx
    simp [Inside, hxc]
  · by_cases hc : x = s.w.current
    · left
      simp [Wait.interruptibleSleepOnEnter, Wait.push, hc]
    · right
      have hwait : Waiting s x := by
        refine ⟨by simpa [Inside, hc] using hx.1, ?_⟩
        simpa [Wait.interruptibleSleepOnEnter, Wait.push, Wait.setState_state, hc] using hx.2
      rcases h.held x hwait with hhead | ⟨u, hux, hu⟩
      · refine ⟨s.w.current, Ne.symm hc, ?_⟩
        simp [Wait.interruptibleSleepOnEnter, Wait.push, hhead]
      · have huc : u ≠ s.w.current := by
          intro e
          rw [e, hout] at hu
          cases hu
        exact ⟨u, hux, by simpa [huc] using hu⟩

/-- A call that ends clears the head, which was its own task if anyone, and wakes its
`tmp`. -/
theorem kept_leave {s : Sleepers Task} (h : Kept s) {t : Task} {tmp : Option Task}
    (ht : s.saved t = some tmp) (hhead : s.w.head = none ∨ s.w.head = some t) :
    Kept { w := ({ s.w with head := none } : Wait Task).run tmp,
           saved := Function.update s.saved t none } := by
  refine ⟨fun x hx => ?_, fun x hx => ?_⟩
  · simp at hx
  · have hxt : x ≠ t := by
      intro e
      simp [Waiting, Inside, e] at hx
    obtain ⟨hne, hst⟩ := Wait.asleep_of_run hx.2 (by decide)
    have hwait : Waiting s x := ⟨by simpa [Inside, hxt] using hx.1, hst⟩
    rcases h.held x hwait with hx' | ⟨u, hux, hu⟩
    · rcases hhead with hn | hn <;> rw [hn] at hx'
      · cases hx'
      · exact absurd (Option.some.inj hx').symm hxt
    · right
      have hut : u ≠ t := by
        intro e
        rw [e, ht] at hu
        exact hne (Option.some.inj hu)
      exact ⟨u, hux, by simpa [hut] using hu⟩

/-- A call that goes round `repeat` leaves the head and every `tmp` as they were. -/
theorem kept_repeat {s : Sleepers Task} (h : Kept s) {t u : Task}
    (hheld : Held s t) :
    Kept { s with w := (s.w.setState u .running).setState t .interruptible } := by
  refine ⟨h.head, fun x hx => ?_⟩
  by_cases hxt : x = t
  · subst hxt
    exact hheld
  · refine h.held x ⟨hx.1, ?_⟩
    have hst := hx.2
    rw [Wait.setState_state, if_neg hxt, Wait.setState_state] at hst
    by_cases hxu : x = u
    · rw [if_pos hxu] at hst
      cases hst
    · rwa [if_neg hxu] at hst

theorem kept_wake {s : Sleepers Task} (h : Kept s) : Kept { s with w := s.w.wakeUp } := by
  refine ⟨fun x hx => ?_, fun x hx => ?_⟩
  · simp at hx
  · obtain ⟨hne, hst⟩ := Wait.asleep_of_wakeUp hx.2 (by decide)
    exact Or.inr ((h.held x ⟨hx.1, hst⟩).resolve_left hne)

/-- What the tail of `t` does, by what it finds at the head. -/
theorem tail_cases {task0 : Task} {s s' : Sleepers Task} {t : Task}
    (hs : Step task0 s (.tail t) s') :
    s.w.current = t ∧ ∃ tmp, s.saved t = some tmp ∧
      (((s.w.head = none ∨ s.w.head = some t) ∧
          s' = { w := ({ s.w with head := none } : Wait Task).run tmp,
                 saved := Function.update s.saved t none }) ∨
        ∃ u, u ≠ t ∧ s.w.head = some u ∧
          s' = { s with w := (s.w.setState u .running).setState t .interruptible }) := by
  simp only [Step, Steps, next] at hs
  split at hs
  · rename_i hc
    obtain ⟨tmp, htmp, rfl⟩ := Option.map_eq_some_iff.mp hs
    refine ⟨hc, tmp, htmp, ?_⟩
    subst hc
    cases hh : s.w.head with
    | none =>
      left
      simp [Wait.interruptibleSleepOnResume, hh]
    | some u =>
      by_cases hu : u = s.w.current
      · left
        simp [Wait.interruptibleSleepOnResume, hh, hu]
      · right
        exact ⟨u, hu, rfl, by simp [Wait.interruptibleSleepOnResume, hh, hu]⟩
  · cases hs

theorem kept_step {task0 : Task} {s t : Sleepers Task} {a : Act Task} (h : Kept s)
    (hs : Guarded Relinked (Step task0) s a t) : Kept t := by
  obtain ⟨hok, hs⟩ := hs
  cases a with
  | switch x =>
    simp only [Step, Steps, next, Sleepers.switch] at hs
    split at hs
    · cases hs; exact ⟨h.head, h.held⟩
    · cases hs
  | sleep =>
    simp only [Step, Steps, next] at hs
    split at hs
    · cases hs
    · rename_i hc
      cases hs
      exact kept_sleep h (by simpa [Inside] using (not_or.mp hc).2)
  | tail x =>
    obtain ⟨hc, tmp, htmp, ⟨hhead, rfl⟩ | ⟨u, hu, hhead, rfl⟩⟩ := tail_cases hs
    · exact kept_leave h htmp hhead
    · refine kept_repeat h (Or.resolve_left hok ?_)
      simp [hhead]
  | wake => cases hs; exact kept_wake h
  | set x st =>
    simp only [Step, Steps, next, Sleepers.set] at hs
    split at hs
    · rename_i hok'
      cases hs; exact kept_set h hok'
    · cases hs

/-- A tail that meets a newer sleeper while nobody holds its task drops the task. -/
theorem dropped_of_not_relinked {task0 : Task} {s t : Sleepers Task} {a : Act Task}
    (hs : Step task0 s a t) (hbad : ¬ Relinked s a) : ¬ AllHeld t := by
  cases a with
  | tail x =>
    obtain ⟨hnone, hheld⟩ := not_or.mp hbad
    obtain ⟨hc, tmp, htmp, ⟨hhead, rfl⟩ | ⟨u, hu, hhead, rfl⟩⟩ := tail_cases hs
    · rcases hhead with hhead | hhead
      · exact absurd hhead hnone
      · exact absurd (Or.inl hhead) hheld
    · intro hall
      exact hheld (hall x ⟨by simp [Inside, htmp], by simp⟩)
  | switch x => exact absurd trivial hbad
  | sleep => exact absurd trivial hbad
  | wake => exact absurd trivial hbad
  | set x st => exact absurd trivial hbad

/-! ## Runs -/

/-- A run drops no sleeper as long as its steps are relinked, and the first step that is
not drops one. -/
theorem interruptibleSleepOn_held_iff {task0 : Task} {s₀ s : Sleepers Task}
    {as : List (Act Task)} (h₀ : Start s₀)
    (h : Run (Guarded Relinked (Step task0)) s₀ as s) :
    AllHeld s ∧ ∀ a t, Step task0 s a t → (AllHeld t ↔ Relinked s a) := by
  have hk : Kept s := h.invariant (kept_start h₀) fun _ _ _ ha hs => kept_step ha hs
  refine ⟨hk.held, fun a t hs => ⟨fun hall => ?_, fun hok => (kept_step hk ⟨hok, hs⟩).held⟩⟩
  by_contra hbad
  exact dropped_of_not_relinked hs hbad hall

/-! ## A newer sleeper at the head

Tasks 1 and 2 sleep, and a signal wakes task 1.  Its tail finds task 2 at the head, wakes it
and sleeps again, held by the `tmp` of task 2. -/

def start : Sleepers (Fin 3) :=
  { w := { current := 0, state := fun _ => .running, head := none }, saved := fun _ => none }

namespace OlderSleeper

def before : List (Act (Fin 3)) :=
  [.switch 1, .sleep, .switch 2, .sleep, .set 1 .running, .switch 1]

def met : Sleepers (Fin 3) := (replay (next 0) start before).getD start

def again : Sleepers (Fin 3) := (replay (next 0) met [.tail 1]).getD start

theorem run : Run (Guarded Relinked (Step 0)) start (before ++ [.tail 1]) again := by
  have hmet : Run (Guarded (fun _ a => ∀ t, a ≠ .tail t) (Step 0)) start before met :=
    (run_of_replay rfl).guard (by decide)
  refine Run.snoc (hmet.guarded_mono fun _ _ a _ ha => ?_) ⟨Or.inr (Or.inr ⟨2, ?_, ?_⟩), rfl⟩
  · cases a with
    | tail t => exact absurd rfl (ha t)
    | _ => trivial
  · decide
  · decide

end OlderSleeper

/-- Task 1 waits again and is held, and when task 2 leaves, the sleepers are still held. -/
theorem interruptibleSleepOn_held_iff_olderSleeper :
    (Waiting OlderSleeper.again 1 ∧ OlderSleeper.again.w.head = some 2 ∧
        Held OlderSleeper.again 1) ∧
      ∀ s t, Step 0 OlderSleeper.again (.switch 2) s → Step 0 s (.tail 2) t → AllHeld t := by
  have hwait : Waiting OlderSleeper.again 1 := ⟨by decide, by decide⟩
  have hhead : OlderSleeper.again.w.head = some 2 := by decide
  refine ⟨⟨hwait, hhead, ?_⟩, fun s t hswitch htail => ?_⟩
  · exact (interruptibleSleepOn_held_iff ⟨rfl, fun _ => rfl⟩ OlderSleeper.run).1 1 hwait
  · have hrun : Run (Guarded Relinked (Step 0)) start
        (OlderSleeper.before ++ [.tail 1] ++ [.switch 2]) s :=
      OlderSleeper.run.snoc ⟨trivial, hswitch⟩
    refine ((interruptibleSleepOn_held_iff ⟨rfl, fun _ => rfl⟩ hrun).2 _ _ htail).mpr ?_
    obtain rfl := Option.some.inj hswitch
    exact Or.inr (Or.inl hhead)

/-! ## A sleeper that nobody holds

Task 1 sleeps and is woken.  Before it runs, task 2 sleeps.  Task 1 finds task 2 at the
head, wakes it and sleeps again, held by nobody. -/

namespace NewerSleeper

def before : List (Act (Fin 3)) := [.switch 1, .sleep, .wake, .switch 2, .sleep, .switch 1]

def meet : Sleepers (Fin 3) := (replay (next 0) start before).getD start

def dropped : Sleepers (Fin 3) := (replay (next 0) meet [.tail 1]).getD start

theorem not_held : ¬ Held dropped 1 := by
  have hhead : dropped.w.head = some 2 := by decide
  have hsaved : ∀ u, dropped.saved u ≠ some (some 1) := by decide
  rintro (h | ⟨u, _, hu⟩)
  · rw [hhead] at h
    cases h
  · exact hsaved u hu

end NewerSleeper

theorem interruptibleSleepOn_drops_a_sleeper :
    ¬ ∀ (s₀ s : Sleepers (Fin 3)) (as : List (Act (Fin 3))), Start s₀ →
      Run (Step 0) s₀ as s → ∀ x, Waiting s x → Held s x := by
  intro h
  have hstart : Start start := ⟨rfl, fun _ => rfl⟩
  have hmeet : Run (Step 0) start NewerSleeper.before NewerSleeper.meet :=
    run_of_replay rfl
  have hdrop : Step 0 NewerSleeper.meet (.tail 1) NewerSleeper.dropped := rfl
  refine NewerSleeper.not_held (h _ _ _ hstart (Run.snoc hmeet hdrop) 1 ⟨?_, ?_⟩)
  · decide
  · decide

end InterruptibleSleepOn
end Kernel
end CherryOS
