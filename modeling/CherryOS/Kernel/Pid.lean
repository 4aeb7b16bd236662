import Mathlib
import CherryOS.Kernel.Fork

/-!
# Pid allocation

The pids that `find_empty_process` tries run upward and wrap from the largest `int32_t` to
1.  Any run of 65 of them is without repetition, and the tasks have at most 64 pids, so
the search ends and finds a pid that no task has.
-/

namespace CherryOS
namespace Kernel

namespace Tasks

theorem succ_toInt (p : Int32) : (p + 1).toInt =
    if p.toInt = 2147483647 then -2147483648 else p.toInt + 1 := by
  have hle := p.toInt_lt
  have hge := p.le_toInt
  rw [Int32.toInt_add, Int32.toInt_one, Int.bmod_def]
  split <;> split <;> omega

theorem nextPid_toInt (p : Int32) : (nextPid p).toInt =
    if p.toInt = 2147483647 ∨ p.toInt < -1 then 1 else p.toInt + 1 := by
  have hge := p.le_toInt
  have hsucc := succ_toInt p
  have hneg : p + 1 < 0 ↔ p.toInt = 2147483647 ∨ p.toInt < -1 := by
    rw [Int32.lt_iff_toInt_lt, Int32.toInt_zero, hsucc]
    split <;> omega
  by_cases h : p.toInt = 2147483647 ∨ p.toInt < -1
  · rw [nextPid, if_pos (hneg.mpr h), if_pos h, Int32.toInt_one]
  · rw [nextPid, if_neg (fun hc => h (hneg.mp hc)), if_neg h, hsucc, if_neg fun hc => h (Or.inl hc)]

theorem nextPid_nonneg (p : Int32) : 0 ≤ (nextPid p).toInt := by
  rw [nextPid_toInt]
  split <;> omega

theorem nextPid_pos {p : Int32} (h : 0 ≤ p.toInt) : 0 < (nextPid p).toInt := by
  rw [nextPid_toInt]
  split <;> omega

/-- The pid tried after `k` more turns, counted from a pid that is not negative. -/
theorem iterate_nextPid {p : Int32} (h : 0 ≤ p.toInt) {k : Nat} (hk : k ≤ 64) :
    (nextPid^[k] p).toInt =
      if p.toInt + k ≤ 2147483647 then p.toInt + k else p.toInt + k - 2147483647 := by
  have hle := p.toInt_lt
  induction k with
  | zero =>
    rw [if_pos (by omega)]
    simp
  | succ k ih =>
    have ih := ih (by omega)
    rw [Function.iterate_succ_apply', nextPid_toInt, ih]
    split <;> split <;> split <;> omega

theorem iterate_nextPid_inj {p : Int32} (h : 0 ≤ p.toInt) {j k : Nat} (hj : j ≤ 64)
    (hk : k ≤ 64) (heq : nextPid^[j] p = nextPid^[k] p) : j = k := by
  have hle := p.toInt_lt
  have hj' := iterate_nextPid h hj
  have hk' := iterate_nextPid h hk
  rw [heq, hk'] at hj'
  split at hj' <;> split at hj' <;> omega

/-- The pid that is found is no task's, and it is one of those tried. -/
theorem findPid_spec {s : Tasks} {fuel : Nat} {p q : Int32} (h : s.findPid fuel p = some q) :
    (∀ i, ¬ s.HasPid q i) ∧ ∃ r, q = nextPid r ∧ (r = p ∨ ∃ i, s.HasPid r i) := by
  induction fuel generalizing p with
  | zero => cases h
  | succ fuel ih =>
    rw [findPid] at h
    by_cases hp : ∃ i, s.HasPid (nextPid p) i
    · rw [if_pos hp] at h
      obtain ⟨hno, r, hr, htried⟩ := ih h
      refine ⟨hno, r, hr, Or.inr ?_⟩
      rcases htried with rfl | htried
      · exact hp
      · exact htried
    · rw [if_neg hp] at h
      cases h
      exact ⟨fun i hi => hp ⟨i, hi⟩, p, rfl, Or.inl rfl⟩

theorem used_of_findPid_none {s : Tasks} {fuel : Nat} {p : Int32} (h : s.findPid fuel p = none)
    {k : Nat} (hk : k < fuel) : ∃ i, s.HasPid (nextPid^[k] (nextPid p)) i := by
  induction fuel generalizing p k with
  | zero => omega
  | succ fuel ih =>
    rw [findPid] at h
    by_cases hp : ∃ i, s.HasPid (nextPid p) i
    · rw [if_pos hp] at h
      cases k with
      | zero => rwa [Function.iterate_zero_apply]
      | succ k =>
        rw [Function.iterate_succ_apply]
        exact ih h (by omega)
    · rw [if_neg hp] at h
      cases h

/-- 64 tasks cannot have 65 pids. -/
theorem findPid_isSome (s : Tasks) (p : Int32) :
    ∃ q, s.findPid (NUMBER_OF_TASKS + 1) p = some q := by
  cases h : s.findPid (NUMBER_OF_TASKS + 1) p with
  | some q => exact ⟨q, rfl⟩
  | none =>
    have hused : ∀ k : Fin (NUMBER_OF_TASKS + 1), ∃ i, s.HasPid (nextPid^[k] (nextPid p)) i :=
      fun k => used_of_findPid_none h k.isLt
    choose slot hslot using hused
    obtain ⟨j, k, hjk, heq⟩ := Fintype.exists_ne_map_eq_of_card_lt slot (by simp)
    obtain ⟨q, hq, hqj⟩ := hslot j
    obtain ⟨q', hq', hqk⟩ := hslot k
    rw [heq, hq'] at hq
    cases hq
    have hj : j.val ≤ 64 := Nat.le_of_lt_succ j.isLt
    have hk : k.val ≤ 64 := Nat.le_of_lt_succ k.isLt
    exact absurd (Fin.ext (iterate_nextPid_inj (nextPid_nonneg p) hj hk (hqj.symm.trans hqk))) hjk

end Tasks

theorem State.findEmptyProcess_of {s : State} {pid : Int32}
    (h : s.findPid (NUMBER_OF_TASKS + 1) s.lastPid = some pid) :
    s.findEmptyProcess = .ok ({ s with lastPid := pid }, s.findEmptySlot) := by
  unfold findEmptyProcess
  -- the search is generalized first, so that no unifier runs its 65 turns
  generalize s.findPid (NUMBER_OF_TASKS + 1) s.lastPid = found at h
  rw [h]

end Kernel
end CherryOS
