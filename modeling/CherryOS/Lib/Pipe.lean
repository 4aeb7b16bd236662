import Mathlib.Data.List.Basic

/-!
# Pipes

A pipe is filled one entry at a time and emptied all at once.  Without a bound nothing is
lost: what has been taken and what waits are what was given, in order.  `Room cap n ops` says
that a pipe with `n` entries waiting never has to hold more than `cap` of them.
-/

namespace CherryOS
namespace Lib

variable {α : Type*}

inductive PipeOp (α : Type*)
  | put (a : α)
  | drain

structure Pipe (α : Type*) where
  taken : List α
  waiting : List α

namespace Pipe

def step (p : Pipe α) : PipeOp α → Pipe α
  | .put a => { p with waiting := p.waiting ++ [a] }
  | .drain => { taken := p.taken ++ p.waiting, waiting := [] }

def run (p : Pipe α) (ops : List (PipeOp α)) : Pipe α := ops.foldl step p

/-- The entries that are put, in order. -/
def given : List (PipeOp α) → List α
  | [] => []
  | .put a :: ops => a :: given ops
  | .drain :: ops => given ops

/-- The entries waiting after the operations, of which `n` were there before. -/
def level : Nat → List (PipeOp α) → Nat
  | n, [] => n
  | n, .put _ :: ops => level (n + 1) ops
  | _, .drain :: ops => level 0 ops

def Room (cap : Nat) : Nat → List (PipeOp α) → Prop
  | _, [] => True
  | n, .put _ :: ops => n < cap ∧ Room cap (n + 1) ops
  | _, .drain :: ops => Room cap 0 ops

variable {cap n : Nat} {p : Pipe α} {ops ops' : List (PipeOp α)}

theorem given_append (ops ops' : List (PipeOp α)) :
    given (ops ++ ops') = given ops ++ given ops' := by
  induction ops with
  | nil => rfl
  | cons op ops ih =>
    cases op with
    | put a => exact congrArg (a :: ·) ih
    | drain => exact ih

/-- Nothing is lost and nothing changes its place. -/
theorem run_all (p : Pipe α) (ops : List (PipeOp α)) :
    (p.run ops).taken ++ (p.run ops).waiting = p.taken ++ p.waiting ++ given ops := by
  induction ops generalizing p with
  | nil => exact (List.append_nil _).symm
  | cons op ops ih =>
    have hrest : (p.run (op :: ops)) = (p.step op).run ops := rfl
    rw [hrest, ih]
    cases op with
    | put a => simp [step, given]
    | drain => simp [step, given]

theorem level_append (n : Nat) (ops ops' : List (PipeOp α)) :
    level n (ops ++ ops') = level (level n ops) ops' := by
  induction ops generalizing n with
  | nil => rfl
  | cons op ops ih =>
    cases op with
    | put a => exact ih (n + 1)
    | drain => exact ih 0

theorem room_append : Room cap n (ops ++ ops') ↔ Room cap n ops ∧ Room cap (level n ops) ops' := by
  induction ops generalizing n with
  | nil => exact ⟨fun h => ⟨trivial, h⟩, And.right⟩
  | cons op ops ih =>
    cases op with
    | put a =>
      have hrest := ih (n := n + 1)
      constructor
      · rintro ⟨hlt, hroom⟩
        obtain ⟨hfirst, hsecond⟩ := hrest.mp hroom
        exact ⟨⟨hlt, hfirst⟩, hsecond⟩
      · rintro ⟨⟨hlt, hfirst⟩, hsecond⟩
        exact ⟨hlt, hrest.mpr ⟨hfirst, hsecond⟩⟩
    | drain => exact ih (n := 0)

theorem room_puts {as : List α} : Room cap n (as.map .put) ↔ as = [] ∨ n + as.length ≤ cap := by
  induction as generalizing n with
  | nil => exact iff_of_true trivial (Or.inl rfl)
  | cons a as ih =>
    have hrest : Room cap n ((a :: as).map PipeOp.put) ↔ n < cap ∧ Room cap (n + 1) (as.map .put) :=
      Iff.rfl
    rw [hrest, ih, List.length_cons]
    constructor
    · rintro ⟨hlt, rfl | hle⟩
      · right
        rw [List.length_nil]
        omega
      · right
        omega
    · rintro (hnil | hle)
      · cases hnil
      · exact ⟨by omega, Or.inr (by omega)⟩

theorem given_puts (as : List α) : given (as.map PipeOp.put) = as := by
  induction as with
  | nil => rfl
  | cons a as ih => exact congrArg (a :: ·) ih

end Pipe

end Lib
end CherryOS
