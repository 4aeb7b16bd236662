import Mathlib.Data.Nat.ModEq

/-!
# Reading a ring

`read buf n t len` are the `len` entries of a ring of `n` places from place `t` on, wrapped
around.  A place is any number and counts modulo `n`.
-/

namespace CherryOS
namespace Lib
namespace Ring

variable {α : Type*} {buf buf' : Nat → α} {n : Nat}

def read (buf : Nat → α) (n : Nat) : Nat → Nat → List α
  | _, 0 => []
  | t, len + 1 => buf (t % n) :: read buf n (t + 1) len

theorem read_length (t len : Nat) : (read buf n t len).length = len := by
  induction len generalizing t with
  | zero => rfl
  | succ len ih => exact congrArg Nat.succ (ih (t + 1))

theorem read_congr {t t' len : Nat} (ht : t % n = t' % n)
    (h : ∀ i < len, buf ((t + i) % n) = buf' ((t + i) % n)) :
    read buf n t len = read buf' n t' len := by
  induction len generalizing t t' with
  | zero => rfl
  | succ len ih =>
    have hfirst : buf (t % n) = buf' (t' % n) := by
      rw [← ht]
      exact h 0 (Nat.succ_pos len)
    have hrest : read buf n (t + 1) len = read buf' n (t' + 1) len := by
      refine ih (Nat.ModEq.add_right 1 ht) fun i hi => ?_
      have hnext := h (i + 1) (Nat.succ_lt_succ hi)
      rwa [← Nat.add_assoc, Nat.add_right_comm] at hnext
    rw [read, read, hfirst, hrest]

theorem read_mod (t len : Nat) : read buf n (t % n) len = read buf n t len :=
  read_congr (Nat.mod_mod t n) fun _ _ => rfl

/-- The last entry that is read. -/
theorem read_succ (t len : Nat) :
    read buf n t (len + 1) = read buf n t len ++ [buf ((t + len) % n)] := by
  induction len generalizing t with
  | zero => rfl
  | succ len ih =>
    have hplace : t + 1 + len = t + (len + 1) := by omega
    rw [read, ih (t + 1), hplace]
    rfl

/-- The place after what is read is not among its places, unless the ring is full. -/
theorem place_ne {t i len : Nat} (hi : i < len) (hlen : len < n) : (t + i) % n ≠ (t + len) % n := by
  intro h
  have hdvd : n ∣ t + len - (t + i) := (Nat.modEq_iff_dvd' (by omega)).mp h
  have hle := Nat.le_of_dvd (by omega) hdvd
  omega

/-- An entry is put after what is read. -/
theorem read_put {t len : Nat} {a : α} (hlen : len < n)
    (hput : buf' ((t + len) % n) = a)
    (hrest : ∀ i < n, i ≠ (t + len) % n → buf' i = buf i) :
    read buf' n t (len + 1) = read buf n t len ++ [a] := by
  have hread : read buf' n t len = read buf n t len :=
    read_congr rfl fun i hi => hrest _ (Nat.mod_lt _ (by omega)) (place_ne hi hlen)
  rw [read_succ, hread, hput]

end Ring
end Lib
end CherryOS
