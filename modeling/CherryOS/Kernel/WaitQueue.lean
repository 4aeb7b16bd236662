import CherryOS.Kernel.Task

/-!
# Wait queues

`Wait` is what `sleep_on`, `interruptible_sleep_on` and `wake_up` of `kernel/sched.c`
read and write: the running task, the state of every task, and the one word `*p` that
heads the queue.  The rest of a queue exists only as the locals `tmp` of suspended
calls.

A call that sleeps is cut at `schedule()`, where the CPU may go to another task.  What
runs before it and what runs after it are two functions, with `tmp` handed from the
first to the second.  A null `p` is not modelled: no caller passes one.
-/

namespace CherryOS
namespace Kernel

structure Wait (Task : Type) where
  current : Task
  state : Task → TaskState
  head : Option Task

namespace Wait

variable {Task : Type} [DecidableEq Task]

def setState (w : Wait Task) (t : Task) (st : TaskState) : Wait Task :=
  { w with state := Function.update w.state t st }

@[simp] theorem setState_head (w : Wait Task) (t : Task) (st : TaskState) :
    (w.setState t st).head = w.head := rfl

@[simp] theorem setState_current (w : Wait Task) (t : Task) (st : TaskState) :
    (w.setState t st).current = w.current := rfl

@[simp] theorem setState_state_self (w : Wait Task) (t : Task) (st : TaskState) :
    (w.setState t st).state t = st := by simp [setState]

theorem setState_state (w : Wait Task) (t x : Task) (st : TaskState) :
    (w.setState t st).state x = if x = t then st else w.state x := by
  by_cases h : x = t <;> simp [setState, h]

/-- `if (tmp) tmp->state = TASK_RUNNING;` -/
def run (w : Wait Task) : Option Task → Wait Task
  | none => w
  | some t => w.setState t .running

@[simp] theorem run_head (w : Wait Task) (o : Option Task) : (w.run o).head = w.head := by
  cases o <;> rfl

@[simp] theorem run_current (w : Wait Task) (o : Option Task) :
    (w.run o).current = w.current := by
  cases o <;> rfl

theorem run_state (w : Wait Task) (o : Option Task) (x : Task) :
    (w.run o).state x = if o = some x then .running else w.state x := by
  cases o with
  | none => simp [run]
  | some t => by_cases h : x = t <;> simp [run, setState_state, h, eq_comm]

/-- A task that is still asleep is not the one that was made running. -/
theorem asleep_of_run {w : Wait Task} {o : Option Task} {x : Task} {st : TaskState}
    (h : (w.run o).state x = st) (hst : st ≠ .running) : o ≠ some x ∧ w.state x = st := by
  rw [run_state] at h
  split at h
  · exact absurd h.symm hst
  · rename_i hne
    exact ⟨hne, h⟩

/-- `tmp = *p; *p = current;`, which both sleeping calls begin with. -/
def push (w : Wait Task) : Wait Task × Option Task :=
  ({ w with head := some w.current }, w.head)

/-- `sleep_on` up to `schedule()`, with the saved `tmp`. -/
def sleepOnEnter (w : Wait Task) : Wait Task × Option Task :=
  (w.push.1.setState w.current .uninterruptible, w.push.2)

/-- `sleep_on` after `schedule()`. -/
def sleepOnLeave (w : Wait Task) (tmp : Option Task) : Wait Task := w.run tmp

/-- `interruptible_sleep_on` up to its first `schedule()`, with the saved `tmp`. -/
def interruptibleSleepOnEnter (w : Wait Task) : Wait Task × Option Task :=
  (w.push.1.setState w.current .interruptible, w.push.2)

/-- `interruptible_sleep_on` after a `schedule()`.  The flag is false when another task
heads the queue: that task is made running and the caller goes round `repeat` to the
next `schedule()`. -/
def interruptibleSleepOnResume (w : Wait Task) (tmp : Option Task) : Wait Task × Bool :=
  match w.head with
  | some h =>
    if h ≠ w.current then
      ((w.setState h .running).setState w.current .interruptible, false)
    else
      (({ w with head := none } : Wait Task).run tmp, true)
  | none => (({ w with head := none } : Wait Task).run tmp, true)

def wakeUp (w : Wait Task) : Wait Task :=
  match w.head with
  | some h => { w.setState h .running with head := none }
  | none => w

@[simp] theorem wakeUp_head (w : Wait Task) : w.wakeUp.head = none := by
  unfold wakeUp
  cases h : w.head with
  | none => exact h
  | some t => rfl

theorem wakeUp_state (w : Wait Task) (x : Task) :
    w.wakeUp.state x = if w.head = some x then .running else w.state x := by
  unfold wakeUp
  cases h : w.head with
  | none => simp
  | some t => by_cases hx : x = t <;> simp [setState_state, hx, eq_comm]

/-- A task that a wake-up leaves asleep was not `*q`. -/
theorem asleep_of_wakeUp {w : Wait Task} {x : Task} {st : TaskState}
    (h : w.wakeUp.state x = st) (hst : st ≠ .running) : w.head ≠ some x ∧ w.state x = st := by
  rw [wakeUp_state] at h
  split at h
  · exact absurd h.symm hst
  · rename_i hne
    exact ⟨hne, h⟩

end Wait

/-! ## Tasks on one queue

A state of the systems below records which tasks are inside a sleeping call on the
queue.  The scheduler may hand the CPU to any running task.  `schedule()` may also come
back to its caller at once, so the tail of a call needs only that its task has the CPU,
not that the task is marked running. -/

structure Sleepers (Task : Type) where
  w : Wait Task
  /-- `some tmp` while the task is inside the call. -/
  saved : Task → Option (Option Task)

/-- What happens next.  `tail` is what a task does when `schedule()` comes back to it
inside the call.  `set` is what signals and the rest of the kernel do to task states: a
task outside the call changes in any way, a task inside can only be made running. -/
inductive Act (Task : Type)
  | switch (t : Task)
  | sleep
  | tail (t : Task)
  | wake
  | set (t : Task) (st : TaskState)
deriving DecidableEq

namespace Sleepers

variable {Task : Type} [DecidableEq Task]

/-- The queue is empty and no task is inside. -/
def Start (s : Sleepers Task) : Prop := s.w.head = none ∧ ∀ t, s.saved t = none

def Inside (s : Sleepers Task) (t : Task) : Prop := (s.saved t).isSome

instance (s : Sleepers Task) (t : Task) : Decidable (s.Inside t) :=
  inferInstanceAs (Decidable ((s.saved t).isSome = true))

omit [DecidableEq Task] in
theorem Start.not_inside {s : Sleepers Task} (h : s.Start) (t : Task) : ¬ s.Inside t := by
  simp [Inside, h.2 t]

def switch (s : Sleepers Task) (t : Task) : Option (Sleepers Task) :=
  if s.w.state t = .running then some { s with w := { s.w with current := t } } else none

def set (s : Sleepers Task) (t : Task) (st : TaskState) : Option (Sleepers Task) :=
  if s.saved t = none ∨ st = .running then some { s with w := s.w.setState t st } else none

/-- A task inside that is asleep after a `set` was asleep before it: inside, a task can only
be made running. -/
theorem asleep_of_set {s : Sleepers Task} {t x : Task} {st st' : TaskState}
    (hok : s.saved t = none ∨ st' = .running) (hin : s.Inside x)
    (h : (s.w.setState t st').state x = st) (hst : st ≠ .running) : s.w.state x = st := by
  rw [Wait.setState_state] at h
  split at h
  · rename_i hxt
    subst hxt
    have hsome : s.saved x ≠ none := Option.isSome_iff_ne_none.mp hin
    exact absurd (h.symm.trans (hok.resolve_left hsome)) hst
  · exact h

end Sleepers

end Kernel
end CherryOS
