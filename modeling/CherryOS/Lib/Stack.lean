import CherryOS.Lib.Bytes

/-!
# A stack of words in byte memory

`Stack m a ws` says that the words `ws` lie one after the other from address `a` on, the
top of the stack first.  A stack grows down: `Stack.push` puts a word below it.  Nothing is
assumed of the alignment of `a`.
-/

namespace CherryOS
namespace Lib

abbrev Bytes32 := BitVec 32 → BitVec 8

def readWord (m : Bytes32) (a : BitVec 32) : BitVec 32 :=
  leWord fun k => m (a + BitVec.ofNat 32 k)

def writeWord (m : Bytes32) (a v : BitVec 32) : Bytes32 := copyIn m a (leByte v) 4

def Stack (m : Bytes32) : BitVec 32 → List (BitVec 32) → Prop
  | _, [] => True
  | a, w :: ws => readWord m a = w ∧ Stack m (a + 4) ws

variable {m m' : Bytes32} {a v w : BitVec 32} {ws : List (BitVec 32)}

theorem readWord_writeWord (m : Bytes32) (a v : BitVec 32) :
    readWord (writeWord m a v) a = v := by
  refine (leWord_congr fun k hk => ?_).trans (leWord_leByte v)
  exact copyIn_read (by decide) hk

/-- A word is written within four bytes. -/
theorem writeWord_apply (m : Bytes32) (a v p : BitVec 32) (h : 4 ≤ (p - a).toNat) :
    writeWord m a v p = m p := by
  rw [writeWord, copyIn_apply (by decide), if_neg (by omega)]

namespace Stack

theorem nil (m : Bytes32) (a : BitVec 32) : Stack m a [] := trivial

/-- A stack depends on its own bytes only. -/
theorem congr (h : Stack m a ws)
    (hm : ∀ k < 4 * ws.length, m' (a + BitVec.ofNat 32 k) = m (a + BitVec.ofNat 32 k)) :
    Stack m' a ws := by
  induction ws generalizing a with
  | nil => exact nil m' a
  | cons w ws ih =>
    rw [List.length_cons] at hm
    obtain ⟨hw, hws⟩ := h
    refine ⟨?_, ih hws fun k hk => ?_⟩
    · rw [← hw]
      exact leWord_congr fun k hk => hm k (by omega)
    · have hadd : a + 4 + BitVec.ofNat 32 k = a + BitVec.ofNat 32 (4 + k) := by
        rw [BitVec.ofNat_add, BitVec.add_assoc]
        rfl
      rw [hadd]
      exact hm (4 + k) (by omega)

/-- The word at a place in a stack. -/
theorem word (h : Stack m a ws) {i : Nat} (hi : ws[i]? = some w) :
    readWord m (a + BitVec.ofNat 32 (4 * i)) = w := by
  induction ws generalizing a i with
  | nil => cases hi
  | cons v ws ih =>
    cases i with
    | zero =>
      cases hi
      rw [Nat.mul_zero, BitVec.add_zero]
      exact h.1
    | succ i =>
      have hnext := ih h.2 (by simpa using hi)
      rwa [BitVec.add_assoc, show (4 : BitVec 32) = BitVec.ofNat 32 4 from rfl, ← BitVec.ofNat_add,
        Nat.add_comm, ← Nat.mul_succ] at hnext

theorem append {vs : List (BitVec 32)} (h : Stack m a (vs ++ ws)) :
    Stack m a vs ∧ Stack m (a + BitVec.ofNat 32 (4 * vs.length)) ws := by
  induction vs generalizing a with
  | nil =>
    refine ⟨nil m a, ?_⟩
    simpa using h
  | cons v vs ih =>
    obtain ⟨hv, hrest⟩ := h
    obtain ⟨hvs, hws⟩ := ih hrest
    refine ⟨⟨hv, hvs⟩, ?_⟩
    have hadd : a + 4 + BitVec.ofNat 32 (4 * vs.length) =
        a + BitVec.ofNat 32 (4 * (v :: vs).length) := by
      rw [List.length_cons, Nat.mul_add, Nat.add_comm, BitVec.ofNat_add, BitVec.add_assoc]
      rfl
    rwa [hadd] at hws

/-- Writing below a stack. -/
theorem push (h : Stack m a ws) (hroom : 4 * (ws.length + 1) ≤ 2 ^ 32) (v : BitVec 32) :
    Stack (writeWord m (a - 4) v) (a - 4) (v :: ws) := by
  refine ⟨readWord_writeWord m (a - 4) v, ?_⟩
  rw [BitVec.sub_add_cancel]
  refine h.congr fun k hk => writeWord_apply m (a - 4) v _ ?_
  have hd : a + BitVec.ofNat 32 k - (a - 4) = BitVec.ofNat 32 (4 + k) := by
    rw [BitVec.ofNat_add]
    show _ = 4 + BitVec.ofNat 32 k
    ring
  rw [hd, BitVec.toNat_ofNat]
  omega

/-- Writing over the top of a stack. -/
theorem replace (h : Stack m a (w :: ws)) (hroom : 4 * (ws.length + 1) ≤ 2 ^ 32) (v : BitVec 32) :
    Stack (writeWord m a v) a (v :: ws) := by
  refine ⟨readWord_writeWord m a v, h.2.congr fun k hk => writeWord_apply m a v _ ?_⟩
  have hd : a + 4 + BitVec.ofNat 32 k - a = BitVec.ofNat 32 (4 + k) := by
    rw [BitVec.ofNat_add]
    show _ = 4 + BitVec.ofNat 32 k
    ring
  rw [hd, BitVec.toNat_ofNat]
  omega

theorem below (a : BitVec 32) (n : Nat) : a - BitVec.ofNat 32 (4 * n) - 4 =
    a - BitVec.ofNat 32 (4 * (n + 1)) := by
  rw [Nat.mul_add, BitVec.ofNat_add]
  show _ = a - (_ + 4)
  ring

end Stack

/-! ## Pushing and popping several words -/

/-- The memory after the words of a list were pushed, the first one first. -/
def pushWords (m : Bytes32) (a : BitVec 32) : List (BitVec 32) → Bytes32
  | [] => m
  | v :: vs => pushWords (writeWord m (a - 4) v) (a - 4) vs

/-- Where the stack ends after `n` words more. -/
def downTo (a : BitVec 32) (n : Nat) : BitVec 32 := a - BitVec.ofNat 32 (4 * n)

theorem downTo_sub (a : BitVec 32) (n : Nat) : downTo (a - 4) n = downTo a (n + 1) := by
  rw [downTo, downTo, ← Stack.below]
  ring

theorem downTo_add (a : BitVec 32) (n : Nat) : downTo a n + BitVec.ofNat 32 (4 * n) = a :=
  BitVec.sub_add_cancel ..

theorem pushWords_stack (vs : List (BitVec 32)) (h : Stack m a ws)
    (hroom : 4 * (vs.length + ws.length) ≤ 2 ^ 32) :
    Stack (pushWords m a vs) (downTo a vs.length) (vs.reverse ++ ws) := by
  induction vs generalizing m a ws with
  | nil =>
    rw [downTo]
    simpa [pushWords] using h
  | cons v vs ih =>
    rw [List.length_cons] at hroom
    have hnext := ih (h.push (by omega) v) (by rw [List.length_cons]; omega)
    rw [downTo_sub] at hnext
    rw [List.reverse_cons, List.append_assoc]
    exact hnext

/-- Only the bytes between the old end of the stack and the new one change. -/
theorem pushWords_apply (vs : List (BitVec 32)) (hroom : 4 * vs.length ≤ 2 ^ 32) {p : BitVec 32}
    (hp : 4 * vs.length ≤ (p - downTo a vs.length).toNat) : pushWords m a vs p = m p := by
  induction vs generalizing m a with
  | nil => rfl
  | cons v vs ih =>
    rw [List.length_cons] at hroom hp
    rw [pushWords, ih (by omega) (by rw [downTo_sub]; omega)]
    apply writeWord_apply
    -- `a - 4` is `4 * vs.length` above the new end
    have hd : p - downTo a (vs.length + 1) = p - (a - 4) + BitVec.ofNat 32 (4 * vs.length) := by
      rw [← downTo_sub, downTo]
      ring
    rw [hd, BitVec.toNat_add, BitVec.toNat_ofNat] at hp
    have hlt := (p - (a - 4)).isLt
    by_contra hsmall
    rw [Nat.mod_eq_of_lt (a := 4 * vs.length) (by omega), Nat.mod_eq_of_lt (by omega)] at hp
    omega

end Lib
end CherryOS
