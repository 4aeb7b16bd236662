import CherryOS.Kernel.WaitQueue
import CherryOS.Lib.Run

/-!
# No sleeper is dropped from an uninterruptible queue

Any number of tasks other than task 0, which may not sleep, call `sleep_on(q)` and
`wake_up(q)` on one queue.  A call may end while its task is still marked
uninterruptible, when `schedule()` comes back at once.

`Linked` is the invariant.  A waiting task is `*q`, or is the `tmp` of a task that
called later and is still inside.  The calls are ordered by a rank, so following `tmp`
backwards from a waiting task never returns to it: the chain ends at `*q` or at a task
that is already awake.
-/

namespace CherryOS
namespace Kernel
namespace SleepOn

open Lib
open Sleepers (Start Inside)

variable {Task : Type} [DecidableEq Task]

def next (task0 : Task) (s : Sleepers Task) : Act Task → Option (Sleepers Task)
  | .switch t => s.switch t
  | .sleep =>
    if s.w.current = task0 ∨ s.Inside s.w.current then none
    else some
      { w := s.w.sleepOnEnter.1,
        saved := Function.update s.saved s.w.current (some s.w.sleepOnEnter.2) }
  | .tail t =>
    if s.w.current = t then
      (s.saved t).map fun tmp =>
        { w := s.w.sleepOnLeave tmp, saved := Function.update s.saved t none }
    else none
  | .wake => some { s with w := s.w.wakeUp }
  | .set t st => s.set t st

abbrev Step (task0 : Task) := Steps (next task0)

def Waiting (s : Sleepers Task) (t : Task) : Prop :=
  s.Inside t ∧ s.w.state t = .uninterruptible

instance (s : Sleepers Task) (t : Task) : Decidable (Waiting s t) :=
  inferInstanceAs (Decidable (_ ∧ _))

/-- `t` is `*q` or the saved `tmp` of a task inside. -/
def Held (s : Sleepers Task) (t : Task) : Prop :=
  s.w.head = some t ∨ ∃ u, s.saved u = some (some t)

structure Linked (s : Sleepers Task) (rank : Task → Nat) (bound : Nat) : Prop where
  asleep : ∀ t, Inside s t → s.w.state t = .uninterruptible ∨ s.w.state t = .running
  fresh : ∀ t, Inside s t → rank t < bound
  held : ∀ t, Waiting s t →
    s.w.head = some t ∨ ∃ u, s.saved u = some (some t) ∧ rank t < rank u

omit [DecidableEq Task] in
theorem linked_start {s : Sleepers Task} (h : Start s) : Linked s (fun _ => 0) 0 := by
  exact ⟨fun t ht => absurd ht (h.not_inside t), fun t ht => absurd ht (h.not_inside t),
    fun t ht => absurd ht.1 (h.not_inside t)⟩

/-! ## One step -/

omit [DecidableEq Task] in
theorem linked_switch {s : Sleepers Task} {rank : Task → Nat} {bound : Nat}
    (h : Linked s rank bound) (t : Task) :
    Linked { s with w := { s.w with current := t } } rank bound :=
  ⟨h.asleep, h.fresh, h.held⟩

theorem linked_set {s : Sleepers Task} {rank : Task → Nat} {bound : Nat}
    (h : Linked s rank bound) {t : Task} {st : TaskState}
    (hok : s.saved t = none ∨ st = .running) :
    Linked { s with w := s.w.setState t st } rank bound := by
  refine ⟨fun x hx => ?_, h.fresh, fun x hx =>
    h.held x ⟨hx.1, Sleepers.asleep_of_set hok hx.1 hx.2 (by decide)⟩⟩
  by_cases hxt : x = t
  · subst hxt
    have hin : s.saved x ≠ none := by
      intro e; simp [Inside, e] at hx
    right
    simpa using hok.resolve_left hin
  · simpa [Wait.setState_state, hxt] using h.asleep x hx

/-- The new sleeper takes the highest rank.  The old `*q` is now its `tmp`. -/
theorem linked_sleep {s : Sleepers Task} {rank : Task → Nat} {bound : Nat}
    (h : Linked s rank bound) (hout : s.saved s.w.current = none) :
    Linked { w := s.w.sleepOnEnter.1,
             saved := Function.update s.saved s.w.current (some s.w.sleepOnEnter.2) }
      (Function.update rank s.w.current bound) (bound + 1) := by
  have hother : ∀ x, x ≠ s.w.current →
      Inside { w := s.w.sleepOnEnter.1,
               saved := Function.update s.saved s.w.current (some s.w.sleepOnEnter.2) } x →
      Inside s x := by
    intro x hx hi
    simpa [Inside, hx] using hi
  refine ⟨fun x hx => ?_, fun x hx => ?_, fun x hx => ?_⟩
  · by_cases hc : x = s.w.current
    · left; simp [Wait.sleepOnEnter, hc]
    · simpa [Wait.sleepOnEnter, Wait.push, Wait.setState_state, hc] using
        h.asleep x (hother x hc hx)
  · by_cases hc : x = s.w.current
    · simp [hc]
    · have := h.fresh x (hother x hc hx)
      simp [hc]; omega
  · by_cases hc : x = s.w.current
    · left; simp [Wait.sleepOnEnter, Wait.push, hc]
    · right
      have hin : Inside s x := hother x hc hx.1
      have hwait : Waiting s x := by
        refine ⟨hin, ?_⟩
        simpa [Wait.sleepOnEnter, Wait.push, Wait.setState_state, hc] using hx.2
      rcases h.held x hwait with hhead | ⟨u, hu, hrank⟩
      · refine ⟨s.w.current, ?_, ?_⟩
        · simp [Wait.sleepOnEnter, Wait.push, hhead]
        · simpa [hc] using h.fresh x hin
      · have huc : u ≠ s.w.current := by
          rintro rfl; simp [hout] at hu
        exact ⟨u, by simp [huc, hu], by simpa [hc, huc] using hrank⟩

/-- Whoever only the leaving task held is running once it has left. -/
theorem linked_tail {s : Sleepers Task} {rank : Task → Nat} {bound : Nat}
    (h : Linked s rank bound) {t : Task} {tmp : Option Task} (ht : s.saved t = some tmp) :
    Linked { w := s.w.sleepOnLeave tmp, saved := Function.update s.saved t none }
      rank bound := by
  have hin : ∀ x, Inside { w := s.w.sleepOnLeave tmp,
                           saved := Function.update s.saved t none } x →
      x ≠ t ∧ Inside s x := by
    intro x hx
    by_cases hxt : x = t
    · simp [Inside, hxt] at hx
    · exact ⟨hxt, by simpa [Inside, hxt] using hx⟩
  refine ⟨fun x hx => ?_, fun x hx => h.fresh x (hin x hx).2, fun x hx => ?_⟩
  · by_cases hx' : tmp = some x
    · right; simp [Wait.sleepOnLeave, Wait.run_state, hx']
    · simpa [Wait.sleepOnLeave, Wait.run_state, hx'] using h.asleep x (hin x hx).2
  · obtain ⟨hne, hst⟩ := Wait.asleep_of_run hx.2 (by decide)
    have hwait : Waiting s x := ⟨(hin x hx.1).2, hst⟩
    rcases h.held x hwait with hhead | ⟨u, hu, hrank⟩
    · left; simpa [Wait.sleepOnLeave] using hhead
    · right
      have hut : u ≠ t := by
        rintro rfl
        exact hne (Option.some.inj (ht.symm.trans hu))
      exact ⟨u, by simp [hut, hu], hrank⟩

theorem linked_wake {s : Sleepers Task} {rank : Task → Nat} {bound : Nat}
    (h : Linked s rank bound) : Linked { s with w := s.w.wakeUp } rank bound := by
  refine ⟨fun x hx => ?_, h.fresh, fun x hx => ?_⟩
  · by_cases hx' : s.w.head = some x
    · right; simp [Wait.wakeUp_state, hx']
    · simpa [Wait.wakeUp_state, hx'] using h.asleep x hx
  · obtain ⟨hne, hst⟩ := Wait.asleep_of_wakeUp hx.2 (by decide)
    exact Or.inr ((h.held x ⟨hx.1, hst⟩).resolve_left hne)

theorem linked_step {task0 : Task} {s t : Sleepers Task} {a : Act Task}
    (h : ∃ rank bound, Linked s rank bound) (hs : Step task0 s a t) :
    ∃ rank bound, Linked t rank bound := by
  obtain ⟨rank, bound, h⟩ := h
  cases a with
  | switch x =>
    simp only [Step, Steps, next, Sleepers.switch] at hs
    split at hs
    · cases hs; exact ⟨rank, bound, linked_switch h x⟩
    · cases hs
  | sleep =>
    simp only [Step, Steps, next] at hs
    split at hs
    · cases hs
    · rename_i hc
      cases hs
      exact ⟨_, _, linked_sleep h (by simpa [Inside] using (not_or.mp hc).2)⟩
  | tail x =>
    simp only [Step, Steps, next] at hs
    split at hs
    · obtain ⟨tmp, htmp, rfl⟩ := Option.map_eq_some_iff.mp hs
      exact ⟨rank, bound, linked_tail h htmp⟩
    · cases hs
  | wake => cases hs; exact ⟨rank, bound, linked_wake h⟩
  | set x st =>
    simp only [Step, Steps, next, Sleepers.set] at hs
    split at hs
    · rename_i hok
      cases hs; exact ⟨rank, bound, linked_set h hok⟩
    · cases hs

theorem linked_run {task0 : Task} {s t : Sleepers Task} {as : List (Act Task)}
    (h₀ : Start s) (h : Run (Step task0) s as t) : ∃ rank bound, Linked t rank bound :=
  h.invariant ⟨_, _, linked_start h₀⟩ fun _ _ _ ha hs => linked_step ha hs

/-! ## What a wake-up reaches

`Woken s first` is the set of tasks that the tails of the tasks in `first` go on to
wake: a task's tail wakes the `tmp` it saved. -/

inductive Woken (s : Sleepers Task) (first : Task → Prop) : Task → Prop
  | first {t : Task} : first t → Woken s first t
  | tmp {t u : Task} : Woken s first u → s.saved u = some (some t) → Woken s first t

/-- The task a `wake_up(q)` in `s` makes running. -/
def WokenHere (s : Sleepers Task) (t : Task) : Prop := s.w.head = some t

/-- Once every task woken from `first` has run its tail, every task that was waiting
has been made running. -/
def Served (task0 : Task) (first : Sleepers Task → Task → Prop)
    (s u : Sleepers Task) (as : List (Act Task)) (v : Sleepers Task) : Prop :=
  (∀ x, Woken s (first s) x → Inside s x → Act.tail x ∈ as) →
    ∀ x, Waiting s x → Visits (Step task0) (fun r => r.w.state x = .running) u as v

/-- `t` is marked running somewhere on the way from `u` to `v`. -/
def Runs (task0 : Task) (t : Task) (u : Sleepers Task) (as : List (Act Task))
    (v : Sleepers Task) : Prop :=
  Visits (Step task0) (fun r => r.w.state t = .running) u as v

/-- A task that was waiting has been made running, once the others that were inside and have
been running since have run their tails. -/
def ServedInTurn (task0 : Task) (s u : Sleepers Task) (as : List (Act Task))
    (v : Sleepers Task) : Prop :=
  ∀ x, Waiting s x → (∀ y, y ≠ x → Inside s y → Runs task0 y u as v → Act.tail y ∈ as) →
    Runs task0 x u as v

theorem saved_step {task0 : Task} {s t : Sleepers Task} {a : Act Task} {u : Task}
    {tmp : Option Task} (hs : Step task0 s a t) (hu : s.saved u = some tmp)
    (ha : a ≠ .tail u) : t.saved u = some tmp := by
  cases a with
  | switch x =>
    simp only [Step, Steps, next, Sleepers.switch] at hs
    split at hs
    · cases hs; exact hu
    · cases hs
  | sleep =>
    simp only [Step, Steps, next] at hs
    split at hs
    · cases hs
    · rename_i hc
      have hne : u ≠ s.w.current := by
        intro e
        rw [← e] at hc
        simp [Inside, hu] at hc
      cases hs
      simpa [hne] using hu
  | tail x =>
    have hne : u ≠ x := fun e => ha (by rw [e])
    simp only [Step, Steps, next] at hs
    split at hs
    · obtain ⟨tmp', _, rfl⟩ := Option.map_eq_some_iff.mp hs
      simpa [hne] using hu
    · cases hs
  | wake => cases hs; exact hu
  | set x st =>
    simp only [Step, Steps, next, Sleepers.set] at hs
    split at hs
    · cases hs; exact hu
    · cases hs

theorem saved_run {task0 : Task} {s t : Sleepers Task} {as : List (Act Task)} {u : Task}
    {tmp : Option Task} (h : Run (Step task0) s as t) (hu : s.saved u = some tmp)
    (ha : Act.tail u ∉ as) : t.saved u = some tmp := by
  induction h with
  | nil => exact hu
  | @snoc ls _ _ a _ hl ih =>
    rw [List.mem_append, not_or] at ha
    refine saved_step hl (ih ha.1) ?_
    intro e
    exact ha.2 (by simp [e])

/-- A tail run in the course of a run has made the saved `tmp` running. -/
theorem visits_of_tail {task0 : Task} {s t : Sleepers Task} {as : List (Act Task)}
    {u x : Task} (h : Run (Step task0) s as t) (hu : s.saved u = some (some x))
    (ha : Act.tail u ∈ as) :
    Visits (Step task0) (fun r => r.w.state x = .running) s as t := by
  induction h with
  | nil => simp at ha
  | @snoc ls m t a hr hl ih =>
    by_cases hmem : Act.tail u ∈ ls
    · exact (ih hmem).snoc hl
    · have hlast : a = .tail u := by
        rw [List.mem_append, List.mem_singleton] at ha
        exact (ha.resolve_left hmem).symm
      subst hlast
      have hm : m.saved u = some (some x) := saved_run hr hu hmem
      refine Visits.last (Run.snoc hr hl) ?_
      simp only [Step, Steps, next, hm] at hl
      split at hl
      · cases hl
        simp [Wait.sleepOnLeave, Wait.run_state]
      · cases hl

/-- Going up from a waiting task, each `tmp` is held by a call of higher rank, so the
chain reaches a task that is awake already or is woken now.  The turn then comes back down
from tail to tail. -/
theorem served_in_turn {task0 : Task} {s u v : Sleepers Task} {as : List (Act Task)}
    {rank : Task → Nat} {bound : Nat} (h : Linked s rank bound)
    (hw : Step task0 s .wake u) (hr : Run (Step task0) u as v) {x : Task} (hx : Waiting s x)
    (htails : ∀ y, y ≠ x → Inside s y → Runs task0 y u as v → Act.tail y ∈ as) :
    Runs task0 x u as v := by
  have hu : u = { s with w := s.w.wakeUp } := (Option.some.inj hw).symm
  rcases h.held x hx with hhead | ⟨y, hy, hrank⟩
  · refine Visits.first hr ?_
    simp [hu, Wait.wakeUp_state, hhead]
  · by_cases hdone : Runs task0 x u as v
    · exact hdone
    have hin : Inside s y := by simp [Inside, hy]
    have hne : y ≠ x := fun e => absurd hrank (by rw [e]; exact lt_irrefl _)
    have hruns : Runs task0 y u as v := by
      rcases h.asleep y hin with hst | hst
      · -- `x` has not been running, so the tail of `x` is not asked for
        refine served_in_turn h hw hr ⟨hin, hst⟩ fun z _ hz hzr => ?_
        have hzx : z ≠ x := fun e => hdone (e ▸ hzr)
        exact htails z hzx hz hzr
      · refine Visits.first hr ?_
        simp [hu, Wait.wakeUp_state, hst]
    refine visits_of_tail hr ?_ (htails y hne hin hruns)
    simpa [hu] using hy
termination_by bound - rank x
decreasing_by
  have := h.fresh y hin
  omega

/-- In every state of every run, each waiting task is `*q` or the `tmp` of a task
inside; and after a wake-up each task that was waiting has been made running, once the others
inside that are awake by then have run their tails. -/
theorem sleepOn_drops_no_sleeper {task0 : Task} {s₀ s : Sleepers Task}
    {as : List (Act Task)} (h₀ : Start s₀) (h : Run (Step task0) s₀ as s) :
    (∀ x, Waiting s x → Held s x) ∧
      ∀ u bs v, Step task0 s .wake u → Run (Step task0) u bs v →
        ServedInTurn task0 s u bs v := by
  obtain ⟨rank, bound, hl⟩ := linked_run h₀ h
  refine ⟨fun x hx => ?_, fun u bs v hw hr x hx htails => served_in_turn hl hw hr hx htails⟩
  rcases hl.held x hx with hhead | ⟨u, hu, _⟩
  · exact Or.inl hhead
  · exact Or.inr ⟨u, hu⟩

/-! ## Two wake-ups in a row

Tasks 1 and 2 sleep and are woken through the head, task 2.  Before task 2 runs its tail,
task 3 sleeps on the emptied queue, and a second wake-up reaches only task 3. -/

namespace TwoWakes

/-- Task 0 runs and the others are ready to. -/
def start : Sleepers (Fin 4) :=
  { w := { current := 0, state := fun _ => .running, head := none }, saved := fun _ => none }

def before : List (Act (Fin 4)) :=
  [.switch 1, .sleep, .switch 2, .sleep, .wake, .switch 3, .sleep]

def after : List (Act (Fin 4)) := [.switch 3, .tail 3]

/-- Just before the second wake-up. -/
def state : Sleepers (Fin 4) := (replay (next 0) start before).getD start

def woken : Sleepers (Fin 4) := { state with w := state.w.wakeUp }

def done : Sleepers (Fin 4) := (replay (next 0) woken after).getD start

theorem woken_only {x : Fin 4} (h : Woken state (WokenHere state) x) : x = 3 := by
  have hhead : state.w.head = some 3 := by decide
  have hsaved : state.saved 3 = some none := by decide
  induction h with
  | first h => exact Option.some.inj (h.symm.trans hhead)
  | tmp _ hu ih =>
    rw [ih, hsaved] at hu
    cases hu

/-- Task 1 never leaves its state on the way to `done`. -/
theorem task1_asleep : ¬ Visits (Step 0) (fun r => r.w.state 1 = .running) woken after done := by
  rintro ⟨ms, ns, v, hsplit, hv, hrun, _⟩
  have hpre : ms ∈ after.inits := by
    rw [List.mem_inits]
    exact ⟨ns, hsplit.symm⟩
  have hall : ∀ ms ∈ after.inits,
      (replay (next 0) woken ms).all fun r => r.w.state 1 ≠ .running := by decide
  have := hall ms hpre
  rw [replay_of_run hv] at this
  simp [hrun] at this

end TwoWakes

/-- The second wake-up alone does not serve task 1, whose turn comes with the tail of
task 2. -/
theorem wakeUp_alone_leaves_a_sleeper :
    ¬ ∀ (s₀ s u v : Sleepers (Fin 4)) (as bs : List (Act (Fin 4))), Start s₀ →
      Run (Step 0) s₀ as s → Step 0 s .wake u → Run (Step 0) u bs v →
        Served 0 WokenHere s u bs v := by
  intro h
  have hstart : Start TwoWakes.start := ⟨rfl, fun _ => rfl⟩
  have hrun : Run (Step 0) TwoWakes.start TwoWakes.before TwoWakes.state := run_of_replay rfl
  have hafter : Run (Step 0) TwoWakes.woken TwoWakes.after TwoWakes.done := run_of_replay rfl
  refine TwoWakes.task1_asleep (h _ _ _ _ _ _ hstart hrun rfl hafter ?_ 1 (by decide))
  intro x hx _
  rw [TwoWakes.woken_only hx]
  decide

/-- In `TwoWakes.state` task 1 is held by the `tmp` of task 2, and the tails of tasks 3 and 2
bring it its turn. -/
theorem sleepOn_drops_no_sleeper_twoWakes :
    Waiting TwoWakes.state 1 ∧ Held TwoWakes.state 1 ∧
      ∃ v, Runs 0 1 TwoWakes.woken [.switch 3, .tail 3, .switch 2, .tail 2] v := by
  have hrun : Run (Step 0) TwoWakes.start TwoWakes.before TwoWakes.state := run_of_replay rfl
  have hwait : Waiting TwoWakes.state 1 := by decide
  have hdrops := sleepOn_drops_no_sleeper ⟨rfl, fun _ => rfl⟩ hrun
  have hcan : (replay (next (0 : Fin 4)) TwoWakes.woken
      [.switch 3, .tail 3, .switch 2, .tail 2]).isSome := by decide
  have hafter := run_replay hcan
  have hinside : ∀ y : Fin 4, y ≠ 1 → Inside TwoWakes.state y →
      Act.tail y ∈ [Act.switch 3, .tail 3, .switch 2, .tail 2] := by decide
  exact ⟨hwait, hdrops.1 1 hwait, _,
    hdrops.2 _ _ _ rfl hafter 1 hwait fun y hne hin _ => hinside y hne hin⟩

end SleepOn
end Kernel
end CherryOS
