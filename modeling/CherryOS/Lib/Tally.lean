import Mathlib

/-!
# Counted references

Owners of type `ω` hold references to resources of type `ρ`, one at a time, and further
references are `out`, with nobody the development knows.  A resource's count is `Tally`
when it is the number of its references: those out and those of the owners.

An owner without a reference takes a new one (`join`) or one that was out (`claim`), and
one with a reference drops it (`leave`) or passes it out (`release`).
-/

namespace CherryOS
namespace Lib

variable {ω ρ : Type*}

def Tally (holds : ω → Option ρ) (out count : ρ → Nat) : Prop :=
  ∀ r, ∃ S : Finset ω, (∀ o, o ∈ S ↔ holds o = some r) ∧ count r = out r + S.card

namespace Tally

variable {holds holds' : ω → Option ρ} {out out' count count' : ρ → Nat} {o : ω} {r : ρ}

theorem congr (h : Tally holds out count) (hh : ∀ o, holds' o = holds o)
    (ho : ∀ r, out' r = out r) (hc : ∀ r, count' r = count r) : Tally holds' out' count' := by
  intro r
  obtain ⟨S, hS, hcount⟩ := h r
  refine ⟨S, fun o => ?_, ?_⟩
  · rw [hh, hS]
  · rw [hc, ho, hcount]

/-- A resource somebody holds is counted. -/
theorem pos (h : Tally holds out count) (ho : holds o = some r) : 0 < count r := by
  obtain ⟨S, hS, hcount⟩ := h r
  have hcard : 0 < S.card := Finset.card_pos.mpr ⟨o, (hS o).mpr ho⟩
  omega

/-- A resource with count 0 has no references. -/
theorem eq_zero (h : Tally holds out count) (h0 : count r = 0) :
    out r = 0 ∧ ∀ o, holds o ≠ some r := by
  obtain ⟨S, hS, hcount⟩ := h r
  refine ⟨by omega, fun o ho => ?_⟩
  have hpos := h.pos ho
  omega

variable [DecidableEq ω]

/-- An owner changes what it holds of one resource; the others are held by whom they were. -/
theorem change (h : Tally holds out count) {x : Option ρ}
    (ho : ∀ s, holds o = some s → s = r) (hx : ∀ s, x = some s → s = r)
    (hr : ∃ S : Finset ω, (∀ o', o' ∈ S ↔ Function.update holds o x o' = some r) ∧
      count' r = out' r + S.card)
    (hout : ∀ s, s ≠ r → out' s = out s) (hcount : ∀ s, s ≠ r → count' s = count s) :
    Tally (Function.update holds o x) out' count' := by
  intro s
  by_cases hs : s = r
  · rw [hs]
    exact hr
  · obtain ⟨S, hS, hsum⟩ := h s
    refine ⟨S, fun o' => ?_, by rw [hcount s hs, hout s hs, hsum]⟩
    rw [hS]
    by_cases hoo : o' = o
    · subst hoo
      rw [Function.update_self]
      exact ⟨fun e => absurd (ho s e) hs, fun e => absurd (hx s e) hs⟩
    · rw [Function.update_of_ne hoo]

theorem add (h : Tally holds out count) (ho : holds o = none) :
    ∃ S : Finset ω, (∀ o', o' ∈ S ↔ Function.update holds o (some r) o' = some r) ∧
      count r + 1 = out r + S.card := by
  obtain ⟨S, hS, hcount⟩ := h r
  have hnot : o ∉ S := by
    intro hmem
    rw [(hS o).mp hmem] at ho
    cases ho
  refine ⟨insert o S, fun o' => ?_, ?_⟩
  · by_cases hoo : o' = o
    · subst hoo
      simp
    · rw [Function.update_of_ne hoo, Finset.mem_insert, hS]
      simp [hoo]
  · rw [Finset.card_insert_of_notMem hnot]
    omega

theorem sub (h : Tally holds out count) (ho : holds o = some r) :
    ∃ S : Finset ω, (∀ o', o' ∈ S ↔ Function.update holds o none o' = some r) ∧
      count r = out r + S.card + 1 := by
  obtain ⟨S, hS, hcount⟩ := h r
  have hmem : o ∈ S := (hS o).mpr ho
  refine ⟨S.erase o, fun o' => ?_, ?_⟩
  · by_cases hoo : o' = o
    · subst hoo
      simp
    · rw [Function.update_of_ne hoo, Finset.mem_erase, hS]
      simp [hoo]
  · have hcard := Finset.card_erase_add_one hmem
    omega

variable [DecidableEq ρ]

theorem join (h : Tally holds out count) (ho : holds o = none) (r : ρ) :
    Tally (Function.update holds o (some r)) out
      (Function.update count r (count r + 1)) := by
  obtain ⟨S, hS, hcount⟩ := h.add (r := r) ho
  exact h.change (by simp [ho]) (by simp) ⟨S, hS, by rw [Function.update_self, hcount]⟩
    (fun _ _ => rfl) fun _ hs => Function.update_of_ne hs ..

theorem leave (h : Tally holds out count) (ho : holds o = some r) :
    Tally (Function.update holds o none) out (Function.update count r (count r - 1)) := by
  obtain ⟨S, hS, hcount⟩ := h.sub ho
  exact h.change (by simp [ho]) (by simp) ⟨S, hS, by rw [Function.update_self]; omega⟩
    (fun _ _ => rfl) fun _ hs => Function.update_of_ne hs ..

theorem release (h : Tally holds out count) (ho : holds o = some r) :
    Tally (Function.update holds o none) (Function.update out r (out r + 1)) count := by
  obtain ⟨S, hS, hcount⟩ := h.sub ho
  exact h.change (by simp [ho]) (by simp) ⟨S, hS, by rw [Function.update_self]; omega⟩
    (fun _ hs => Function.update_of_ne hs ..) fun _ _ => rfl

theorem claim (h : Tally holds out count) (ho : holds o = none) (hr : 0 < out r) :
    Tally (Function.update holds o (some r)) (Function.update out r (out r - 1)) count := by
  obtain ⟨S, hS, hcount⟩ := h.add (r := r) ho
  exact h.change (by simp [ho]) (by simp) ⟨S, hS, by rw [Function.update_self]; omega⟩
    (fun _ hs => Function.update_of_ne hs ..) fun _ _ => rfl

end Tally

end Lib
end CherryOS
