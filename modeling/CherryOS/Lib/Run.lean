/-
Runs of a labelled step relation.

A system is a relation `step : σ → ℓ → σ → Prop`: from one state, under one label,
to the next.  `Run step s ls t` is a finite run from `s` to `t` whose labels are
`ls`, oldest first.  What one step preserves, a run preserves: `Run.invariant` is
the rule every safety result of the development goes through.

`Guarded ok step` keeps the steps whose starting state and label satisfy `ok`.  A
property that a system has only under a condition on each step is a property of
the runs of its guarded relation.

Most systems here are given by a function `next : σ → ℓ → Option σ`, which says what
a label does in a state or that it cannot occur there.  `Steps next` is its step
relation, and `replay next s ls` computes the end of a run from its labels.
-/
import Mathlib

namespace CherryOS
namespace Lib

variable {σ ℓ : Type*}

/-- A finite run, built by adding one step at its end. -/
inductive Run (step : σ → ℓ → σ → Prop) (s : σ) : List ℓ → σ → Prop
  | nil : Run step s [] s
  | snoc {ls : List ℓ} {t u : σ} {l : ℓ} :
      Run step s ls t → step t l u → Run step s (ls ++ [l]) u

/-- The steps of `step` taken where `ok` holds. -/
def Guarded (ok : σ → ℓ → Prop) (step : σ → ℓ → σ → Prop) (s : σ) (l : ℓ) (t : σ) : Prop :=
  ok s l ∧ step s l t

namespace Run

variable {step : σ → ℓ → σ → Prop} {s t u : σ} {ls ms : List ℓ} {l : ℓ}

theorem single (h : step s l t) : Run step s [l] t := snoc nil h

/-- What holds at the start and survives every step holds at the end of a run. -/
theorem invariant {P : σ → Prop} (h : Run step s ls t) (hs : P s)
    (hstep : ∀ a l b, P a → step a l b → P b) : P t := by
  induction h with
  | nil => exact hs
  | snoc _ hl ih => exact hstep _ _ _ ih hl

theorem append (h₁ : Run step s ls t) (h₂ : Run step t ms u) : Run step s (ls ++ ms) u := by
  induction h₂ with
  | nil => simpa using h₁
  | snoc _ hl ih =>
    rw [← List.append_assoc]
    exact snoc ih hl

theorem cons (hl : step s l t) (h : Run step t ls u) : Run step s (l :: ls) u :=
  append (single hl) h

/-- A run of a relation is a run of any weaker one. -/
theorem mono {step' : σ → ℓ → σ → Prop} (h : Run step s ls t)
    (hw : ∀ a l b, step a l b → step' a l b) : Run step' s ls t := by
  induction h with
  | nil => exact nil
  | snoc _ hl ih => exact snoc ih (hw _ _ _ hl)

theorem of_guarded {ok : σ → ℓ → Prop} (h : Run (Guarded ok step) s ls t) : Run step s ls t :=
  h.mono fun _ _ _ hl => hl.2

/-- A guard may be exchanged for one that is weaker in the states that are reached. -/
theorem guarded_mono {ok ok' : σ → ℓ → Prop} (h : Run (Guarded ok step) s ls t)
    (hw : ∀ ms u l, Run step s ms u → ok u l → ok' u l) : Run (Guarded ok' step) s ls t := by
  induction h with
  | nil => exact nil
  | snoc hpre hl ih => exact snoc ih ⟨hw _ _ _ hpre.of_guarded hl.1, hl.2⟩

/-- A condition on labels alone holds of a run when it holds of its labels. -/
theorem guard {ok : ℓ → Prop} (h : Run step s ls t) (hok : ∀ l ∈ ls, ok l) :
    Run (Guarded (fun _ l => ok l) step) s ls t := by
  induction h with
  | nil => exact nil
  | snoc _ hl ih =>
    exact snoc (ih fun l hl => hok l (List.mem_append_left _ hl)) ⟨hok _ (by simp), hl⟩

end Run

/-- The step relation of a transition function. -/
def Steps (next : σ → ℓ → Option σ) (s : σ) (l : ℓ) (t : σ) : Prop := next s l = some t

instance (next : σ → ℓ → Option σ) [DecidableEq σ] (s : σ) (l : ℓ) (t : σ) :
    Decidable (Steps next s l t) := inferInstanceAs (Decidable (next s l = some t))

/-- The state a list of labels leads to, if each of them can occur. -/
def replay (next : σ → ℓ → Option σ) (s : σ) : List ℓ → Option σ
  | [] => some s
  | l :: ls => (next s l).bind fun t => replay next t ls

theorem run_of_replay {next : σ → ℓ → Option σ} {ls : List ℓ} {s t : σ}
    (h : replay next s ls = some t) : Run (Steps next) s ls t := by
  induction ls generalizing s with
  | nil =>
    cases h
    exact Run.nil
  | cons l ls ih =>
    obtain ⟨u, hu, hrest⟩ := Option.bind_eq_some_iff.mp h
    exact Run.cons hu (ih hrest)

/-- A list of labels that can all occur is a run to the state it leads to. -/
theorem run_replay {next : σ → ℓ → Option σ} {ls : List ℓ} {s : σ}
    (h : (replay next s ls).isSome) : Run (Steps next) s ls ((replay next s ls).getD s) := by
  obtain ⟨t, ht⟩ := Option.isSome_iff_exists.mp h
  rw [ht]
  exact run_of_replay ht

/-- The transitions that start where `ok` holds. -/
def restrict (ok : σ → ℓ → Prop) [∀ s l, Decidable (ok s l)] (next : σ → ℓ → Option σ) (s : σ)
    (l : ℓ) : Option σ :=
  if ok s l then next s l else none

theorem Run.guarded_of_restrict {ok : σ → ℓ → Prop} [∀ s l, Decidable (ok s l)]
    {next : σ → ℓ → Option σ} {ls : List ℓ} {s t : σ} (h : Run (Steps (restrict ok next)) s ls t) :
    Run (Guarded ok (Steps next)) s ls t := by
  refine h.mono fun a l b hl => ?_
  simp only [Steps, restrict] at hl
  split at hl
  · rename_i hok
    exact ⟨hok, hl⟩
  · cases hl

theorem replay_append {next : σ → ℓ → Option σ} (s : σ) (ls ms : List ℓ) :
    replay next s (ls ++ ms) = (replay next s ls).bind fun t => replay next t ms := by
  induction ls generalizing s with
  | nil => rfl
  | cons l ls ih =>
    rw [List.cons_append, replay, replay, Option.bind_assoc]
    exact congrArg _ (funext fun t => ih t)

theorem replay_of_run {next : σ → ℓ → Option σ} {ls : List ℓ} {s t : σ}
    (h : Run (Steps next) s ls t) : replay next s ls = some t := by
  induction h with
  | nil => rfl
  | snoc _ hl ih =>
    rw [replay_append, ih, Option.bind_some, replay, show next _ _ = some _ from hl]
    rfl

/-- A list of labels that can all occur where `ok` holds is a guarded run. -/
theorem run_guarded_replay {ok : σ → ℓ → Prop} [∀ s l, Decidable (ok s l)]
    {next : σ → ℓ → Option σ} {ls : List ℓ} {s : σ}
    (h : (replay (restrict ok next) s ls).isSome) :
    Run (Guarded ok (Steps next)) s ls ((replay next s ls).getD s) := by
  obtain ⟨t, ht⟩ := Option.isSome_iff_exists.mp h
  have hrun := (run_of_replay ht).guarded_of_restrict
  rw [replay_of_run hrun.of_guarded]
  exact hrun

/-- As `run_guarded_replay`, with a property of the state it ends in. -/
theorem run_guarded_replay_with {ok : σ → ℓ → Prop} [∀ s l, Decidable (ok s l)]
    {next : σ → ℓ → Option σ} {ls : List ℓ} {s : σ} (P : σ → Prop) [DecidablePred P]
    (h : (replay (restrict ok next) s ls).any fun t => decide (P t)) :
    Run (Guarded ok (Steps next)) s ls ((replay next s ls).getD s) ∧
      P ((replay next s ls).getD s) := by
  obtain ⟨t, ht, hP⟩ := (Option.any_eq_true _ _).mp h
  have hrun := (run_of_replay ht).guarded_of_restrict
  rw [replay_of_run hrun.of_guarded]
  exact ⟨hrun, of_decide_eq_true hP⟩

/-- Some state of the run satisfies `P`, its first and last included. -/
def Visits (step : σ → ℓ → σ → Prop) (P : σ → Prop) (s : σ) (ls : List ℓ) (t : σ) : Prop :=
  ∃ ms ns v, ls = ms ++ ns ∧ Run step s ms v ∧ P v ∧ Run step v ns t

namespace Visits

variable {step : σ → ℓ → σ → Prop} {P : σ → Prop} {s t u : σ} {ls : List ℓ} {l : ℓ}

theorem first (h : Run step s ls t) (hs : P s) : Visits step P s ls t :=
  ⟨[], ls, s, rfl, Run.nil, hs, h⟩

theorem last (h : Run step s ls t) (ht : P t) : Visits step P s ls t :=
  ⟨ls, [], t, by simp, h, ht, Run.nil⟩

theorem snoc (h : Visits step P s ls t) (hl : step t l u) : Visits step P s (ls ++ [l]) u := by
  obtain ⟨ms, ns, v, rfl, hm, hv, hn⟩ := h
  exact ⟨ms, ns ++ [l], v, by simp, hm, hv, Run.snoc hn hl⟩

end Visits

/-- The variant rule.  If every step that does not reach the goal lowers the number that the
state is held to, then whatever the labels are the goal is reached in that number of steps and
one more. -/
theorem reaches_within {next : σ → ℓ → Option σ} {ok : ℓ → Prop} {I : Nat → σ → Prop}
    {goal : σ → Prop}
    (hstep : ∀ m s l, I m s → ok l → ∃ t, next s l = some t ∧ (goal t ∨ ∃ k < m, I k t))
    {m : Nat} {s : σ} (hs : I m s) {w : Nat → ℓ} (hw : ∀ i, ok (w i)) :
    ∃ k ≤ m, ∃ t, replay next s ((List.range (k + 1)).map w) = some t ∧ goal t := by
  induction m using Nat.strong_induction_on generalizing s w with
  | _ m ih =>
    have hfirst : ∀ k, (List.range (k + 1)).map w =
        w 0 :: (List.range k).map fun i => w (i + 1) := by
      intro k
      rw [List.range_succ_eq_map, List.map_cons, List.map_map]
      rfl
    obtain ⟨t, ht, hgoal | ⟨j, hj, htj⟩⟩ := hstep m s (w 0) hs (hw 0)
    · refine ⟨0, Nat.zero_le m, t, ?_, hgoal⟩
      rw [hfirst, replay, ht]
      rfl
    · obtain ⟨k, hk, u, hu, hgoal⟩ := ih j hj htj (w := fun i => w (i + 1)) fun i => hw (i + 1)
      refine ⟨k + 1, Nat.lt_of_le_of_lt hk hj, u, ?_, hgoal⟩
      rw [hfirst, replay, ht, Option.bind_some, hu]

end Lib
end CherryOS
