import CherryOS.Kernel.ManyTasks

/-!
# The search for a pid and a slot

`find_empty_process` tries one pid after another until no task has the one it tries, and
then takes the first slot without a task.  The search is described here by its turns: the
pid that is tried in each, and the turn in which it ends.
-/

namespace CherryOS
namespace Kernel

namespace Tasks

/-- The value of `last_pid` in turn `k` of the search, the first turn being turn 0. -/
def candidate (lastPid : Int32) (k : Nat) : Int32 := nextPid^[k] (nextPid lastPid)

theorem candidate_zero (lastPid : Int32) : candidate lastPid 0 = nextPid lastPid := by
  rw [candidate, Function.iterate_zero_apply]

theorem candidate_succ (lastPid : Int32) (k : Nat) :
    candidate lastPid (k + 1) = candidate (nextPid lastPid) k := by
  rw [candidate, Function.iterate_succ_apply, candidate]

theorem candidate_pos {lastPid : Int32} (h : 0 ≤ lastPid.toInt) (k : Nat) :
    0 < (candidate lastPid k).toInt := by
  induction k generalizing lastPid with
  | zero =>
    rw [candidate_zero]
    exact nextPid_pos h
  | succ k ih =>
    rw [candidate_succ]
    exact ih (nextPid_nonneg lastPid)

/-- The search ends in turn `k` with the pid `pid`: every pid tried before is some task's, and
this one is nobody's. -/
structure Finds (s : Tasks) (lastPid : Int32) (k : Nat) (pid : Int32) : Prop where
  tried : pid = candidate lastPid k
  taken : ∀ j < k, ∃ i, s.HasPid (candidate lastPid j) i
  free : ∀ i, ¬ s.HasPid pid i

/-- With more turns allowed than the search takes, it is not cut short. -/
theorem Finds.findPid {s : Tasks} {lastPid : Int32} {k : Nat} {pid : Int32}
    (h : s.Finds lastPid k pid) {fuel : Nat} (hk : k < fuel) :
    s.findPid fuel lastPid = some pid := by
  obtain ⟨htried, htaken, hfree⟩ := h
  induction k generalizing lastPid fuel with
  | zero =>
    cases fuel with
    | zero => omega
    | succ fuel =>
      have hno : ¬ ∃ i, s.HasPid (nextPid lastPid) i := by
        rw [← candidate_zero, ← htried]
        exact fun ⟨i, hi⟩ => hfree i hi
      rw [Tasks.findPid, if_neg hno, htried, candidate_zero]
  | succ k ih =>
    cases fuel with
    | zero => omega
    | succ fuel =>
      have hp : ∃ i, s.HasPid (nextPid lastPid) i := by
        rw [← candidate_zero]
        exact htaken 0 (by omega)
      rw [Tasks.findPid, if_pos hp]
      refine ih (by omega) ?_ fun j hj => ?_
      · rw [htried, candidate_succ]
      · rw [← candidate_succ]
        exact htaken (j + 1) (by omega)

theorem finds_of_findPid {s : Tasks} {fuel : Nat} {lastPid pid : Int32}
    (h : s.findPid fuel lastPid = some pid) : ∃ k < fuel, s.Finds lastPid k pid := by
  induction fuel generalizing lastPid with
  | zero => cases h
  | succ fuel ih =>
    rw [findPid] at h
    by_cases hp : ∃ i, s.HasPid (nextPid lastPid) i
    · rw [if_pos hp] at h
      obtain ⟨k, hk, htried, htaken, hfree⟩ := ih h
      refine ⟨k + 1, by omega, by rw [htried, candidate_succ], fun j hj => ?_, hfree⟩
      cases j with
      | zero => rwa [candidate_zero]
      | succ j =>
        rw [candidate_succ]
        exact htaken j (by omega)
    · rw [if_neg hp] at h
      cases h
      exact ⟨0, by omega, (candidate_zero _).symm, fun j hj => by omega, not_exists.mp hp⟩

end Tasks

open Tasks

/-- From a `last_pid` that is not negative the search ends within 65 turns, however many it is
allowed, on a positive pid that is no task's; the call returns the first vacant slot and
changes `last_pid` only. -/
theorem findEmptyProcess_ends (s : State) (h : 0 ≤ s.lastPid.toInt) :
    ∃ k pid slot, k < NUMBER_OF_TASKS + 1 ∧ s.Finds s.lastPid k pid ∧
      (∀ fuel, k < fuel → s.findPid fuel s.lastPid = some pid) ∧ 0 < pid.toInt ∧
      s.findEmptyProcess = .ok ({ s with lastPid := pid }, slot) ∧
      (∀ nr, slot = some nr ↔ s.FirstVacant nr) ∧
      (slot = none ↔ ∀ j, j ≠ 0 → s.tasksPtr j ≠ none) := by
  obtain ⟨pid, hpid⟩ := s.findPid_isSome s.lastPid
  obtain ⟨k, hk, hfinds⟩ := finds_of_findPid hpid
  refine ⟨k, pid, s.findEmptySlot, hk, hfinds, fun fuel hfuel => hfinds.findPid hfuel, ?_,
    State.findEmptyProcess_of hpid, fun nr => findEmptySlot_eq_some, findEmptySlot_eq_none⟩
  rw [hfinds.tried]
  exact candidate_pos h k

/-- The state after the start, with the largest `int32_t` as the last pid. -/
def lateState : State := { bootOf16MB.state with lastPid := 2147483647 }

theorem findEmptyProcess_ends_wrap :
    ∃ k pid slot, k < NUMBER_OF_TASKS + 1 ∧ lateState.Finds lateState.lastPid k pid ∧
      (∀ fuel, k < fuel → lateState.findPid fuel lateState.lastPid = some pid) ∧ 0 < pid.toInt ∧
      lateState.findEmptyProcess = .ok ({ lateState with lastPid := pid }, slot) ∧
      (∀ nr, slot = some nr ↔ lateState.FirstVacant nr) ∧
      (slot = none ↔ ∀ j, j ≠ 0 → lateState.tasksPtr j ≠ none) :=
  findEmptyProcess_ends lateState (by decide)

end Kernel
end CherryOS
