import Mathlib.Data.Nat.Digits.Lemmas

/-!
# Numerals

A numeral is a list of symbols, the most significant first.  An alphabet writes the digits
below its size and reads them back, so that in every base up to its size a number is read back
from its numeral, with any number of zeros before it.
-/

namespace CherryOS
namespace Lib

/-- Symbols for the digits below `size`. -/
structure Alphabet (α : Type) where
  size : Nat
  write : Nat → α
  read : α → Option Nat
  read_write : ∀ d < size, read (write d) = some d

namespace Alphabet

variable {α : Type} (A : Alphabet α) (b : Nat)

/-- The symbols `cs` after a numeral of the value `n`. -/
def valueFrom : Nat → List α → Option Nat
  | n, [] => some n
  | n, c :: cs =>
    match A.read c with
    | some d => if d < b then valueFrom (b * n + d) cs else none
    | none => none

/-- The value of a numeral in base `b`. -/
def value : List α → Option Nat
  | [] => none
  | c :: cs => A.valueFrom b 0 (c :: cs)

def numeral (n : Nat) : List α :=
  if n = 0 then [A.write 0] else (b.digits n).reverse.map A.write

variable {A b}

theorem valueFrom_write {n d : Nat} (hd : d < b) (hb : b ≤ A.size) (cs : List α) :
    A.valueFrom b n (A.write d :: cs) = A.valueFrom b (b * n + d) cs := by
  rw [valueFrom, A.read_write d (by omega)]
  exact if_pos hd

theorem valueFrom_zeros (hb : 0 < b) (hsize : b ≤ A.size) (k : Nat) (cs : List α) :
    A.valueFrom b 0 (List.replicate k (A.write 0) ++ cs) = A.valueFrom b 0 cs := by
  induction k with
  | zero => rfl
  | succ k ih =>
    rw [List.replicate_succ, List.cons_append, valueFrom_write hb hsize, Nat.mul_zero]
    exact ih

/-- Digits, the least significant first, are read from their reverse. -/
theorem valueFrom_digits (hsize : b ≤ A.size) {ds : List Nat} (hds : ∀ d ∈ ds, d < b)
    (cs : List α) :
    A.valueFrom b 0 (ds.reverse.map A.write ++ cs) = A.valueFrom b (Nat.ofDigits b ds) cs := by
  induction ds generalizing cs with
  | nil => rfl
  | cons d ds ih =>
    have hd := hds d List.mem_cons_self
    have hrest := ih (fun e he => hds e (List.mem_cons_of_mem d he)) (A.write d :: cs)
    rw [List.reverse_cons, List.map_append, List.append_assoc]
    rw [valueFrom_write hd hsize] at hrest
    rw [Nat.ofDigits_cons, Nat.add_comm]
    exact hrest

theorem value_of_ne_nil {cs : List α} (h : cs ≠ []) : A.value b cs = A.valueFrom b 0 cs := by
  cases cs with
  | nil => exact absurd rfl h
  | cons c cs => rfl

theorem numeral_length (hb : 1 < b) (n : Nat) : (A.numeral b n).length = Nat.log b n + 1 := by
  rw [numeral]
  split
  · rename_i hn
    rw [hn, Nat.log_zero_right]
    rfl
  · rename_i hn
    rw [List.length_map, List.length_reverse, Nat.length_digits b n hb hn]

theorem numeral_ne_nil (hb : 1 < b) (n : Nat) : A.numeral b n ≠ [] := by
  apply List.ne_nil_of_length_pos
  rw [numeral_length hb]
  omega

theorem mem_numeral (hb : 1 < b) {n : Nat} {c : α} (hc : c ∈ A.numeral b n) :
    ∃ d < b, c = A.write d := by
  rw [numeral] at hc
  split at hc
  · exact ⟨0, by omega, List.mem_singleton.mp hc⟩
  · obtain ⟨d, hd, rfl⟩ := List.mem_map.mp hc
    exact ⟨d, Nat.digits_lt_base hb (List.mem_reverse.mp hd), rfl⟩

/-- A number is read back from its numeral. -/
theorem value_numeral (hb : 1 < b) (hsize : b ≤ A.size) (k n : Nat) :
    A.value b (List.replicate k (A.write 0) ++ A.numeral b n) = some n := by
  rw [value_of_ne_nil (List.append_ne_nil_of_right_ne_nil _ (numeral_ne_nil hb n)),
    valueFrom_zeros (by omega) hsize, numeral]
  split
  · rename_i hn
    rw [valueFrom_write (by omega) hsize, hn, Nat.mul_zero]
    rfl
  · have hdigits := valueFrom_digits hsize (fun d hd => Nat.digits_lt_base (m := n) hb hd) []
    rw [List.append_nil, Nat.ofDigits_digits] at hdigits
    exact hdigits

end Alphabet

end Lib
end CherryOS
