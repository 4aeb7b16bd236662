/-
Who holds which resource.

Owners of type `ω` hold resources of type `ρ`: `holds o` is the one `o` holds, if it
holds one.  Of the resources under management an allocator keeps a use count.  A ledger
is `Balanced` when the counts say what the holdings say: a count is 0 or 1, it is 1
exactly when somebody holds the resource, and nobody else does.  An owner may hold a
resource that is not managed; the ledger says nothing about it.

`take` and `drop` are the two entries of the ledger, an owner without a resource getting
a free one and an owner giving its resource back.
-/
import Mathlib

namespace CherryOS
namespace Lib

variable {ω ρ : Type*}

structure Balanced (managed : ρ → Prop) (holds : ω → Option ρ) (count : ρ → Nat) : Prop where
  free : ∀ r o, managed r → count r = 0 → holds o ≠ some r
  held : ∀ r, managed r → count r ≠ 0 → count r = 1 ∧ ∃ o, holds o = some r
  alone : ∀ r o o', managed r → holds o = some r → holds o' = some r → o = o'

namespace Balanced

variable {managed : ρ → Prop} {holds holds' : ω → Option ρ} {count count' : ρ → Nat}

theorem count_of_holds (h : Balanced managed holds count) {r : ρ} {o : ω} (hr : managed r)
    (ho : holds o = some r) : count r = 1 := by
  have hne : count r ≠ 0 := fun h0 => h.free r o hr h0 ho
  exact (h.held r hr hne).1

/-- A managed resource is free and nobody's, or in use and exactly one owner's. -/
theorem ownership (h : Balanced managed holds count) {r : ρ} (hr : managed r) :
    (count r = 0 ∧ ∀ o, holds o ≠ some r) ∨ (count r = 1 ∧ ∃! o, holds o = some r) := by
  by_cases h0 : count r = 0
  · exact Or.inl ⟨h0, fun o => h.free r o hr h0⟩
  · obtain ⟨h1, o, ho⟩ := h.held r hr h0
    exact Or.inr ⟨h1, o, ho, fun o' ho' => h.alone r o' o hr ho' ho⟩

/-- Only the holdings and the counts of managed resources matter. -/
theorem congr (h : Balanced managed holds count)
    (hh : ∀ r o, managed r → (holds' o = some r ↔ holds o = some r))
    (hc : ∀ r, managed r → count' r = count r) : Balanced managed holds' count' where
  free r o hr h0 ho := h.free r o hr (by rwa [hc r hr] at h0) ((hh r o hr).mp ho)
  held r hr hne := by
    rw [hc r hr] at hne ⊢
    obtain ⟨h1, o, ho⟩ := h.held r hr hne
    exact ⟨h1, o, (hh r o hr).mpr ho⟩
  alone r o o' hr ho ho' := h.alone r o o' hr ((hh r o hr).mp ho) ((hh r o' hr).mp ho')

/-- The count of a resource is determined by who holds it. -/
theorem count_eq (h : Balanced managed holds count) (h' : Balanced managed holds' count')
    {r : ρ} (hr : managed r) (hh : ∀ o, holds' o = some r ↔ holds o = some r) :
    count' r = count r := by
  rcases h.ownership hr with ⟨h0, hno⟩ | ⟨h1, o, ho, _⟩
  · rcases h'.ownership hr with ⟨h0', _⟩ | ⟨_, o, ho, _⟩
    · rw [h0, h0']
    · exact absurd ((hh o).mp ho) (hno o)
  · rw [h1, h'.count_of_holds hr ((hh o).mpr ho)]

variable [DecidableEq ω] [DecidableEq ρ]

theorem take (h : Balanced managed holds count) {r : ρ} {o : ω} (hr : managed r)
    (hfree : count r = 0) (ho : holds o = none) :
    Balanced managed (Function.update holds o (some r)) (Function.update count r 1) := by
  have hold : ∀ x s, managed s → (Function.update holds o (some r) x = some s ↔
      (x = o ∧ s = r) ∨ (s ≠ r ∧ holds x = some s)) := by
    intro x s hs
    by_cases hx : x = o
    · subst hx
      simp [ho, eq_comm]
    · have hxr : holds x ≠ some r := h.free r x hr hfree
      simp only [Function.update_of_ne hx, hx, false_and, false_or]
      exact ⟨fun hxs => ⟨fun e => hxr (e ▸ hxs), hxs⟩, And.right⟩
  refine ⟨fun s x hs h0 hx => ?_, fun s hs hne => ?_, fun s x y hs hx hy => ?_⟩
  · by_cases hsr : s = r
    · subst hsr
      simp at h0
    · rw [Function.update_of_ne hsr] at h0
      rcases (hold x s hs).mp hx with ⟨_, e⟩ | ⟨_, hx⟩
      · exact hsr e
      · exact h.free s x hs h0 hx
  · by_cases hsr : s = r
    · subst hsr
      exact ⟨by simp, o, by simp⟩
    · rw [Function.update_of_ne hsr] at hne ⊢
      obtain ⟨h1, x, hx⟩ := h.held s hs hne
      exact ⟨h1, x, (hold x s hs).mpr (Or.inr ⟨hsr, hx⟩)⟩
  · rcases (hold x s hs).mp hx with ⟨ex, e⟩ | ⟨hsr, hx⟩ <;>
      rcases (hold y s hs).mp hy with ⟨ey, e'⟩ | ⟨hsr', hy⟩
    · rw [ex, ey]
    · exact absurd e hsr'
    · exact absurd e' hsr
    · exact h.alone s x y hs hx hy

theorem drop (h : Balanced managed holds count) {r : ρ} {o : ω} (hr : managed r)
    (ho : holds o = some r) :
    Balanced managed (Function.update holds o none) (Function.update count r 0) := by
  have hold : ∀ x s, managed s → (Function.update holds o none x = some s ↔
      s ≠ r ∧ holds x = some s) := by
    intro x s hs
    by_cases hx : x = o
    · subst hx
      simp [ho, eq_comm]
    · simp only [Function.update_of_ne hx]
      refine ⟨fun hxs => ⟨fun e => hx ?_, hxs⟩, And.right⟩
      exact h.alone r x o hr (e ▸ hxs) ho
  refine ⟨fun s x hs h0 hx => ?_, fun s hs hne => ?_, fun s x y hs hx hy => ?_⟩
  · obtain ⟨hsr, hx⟩ := (hold x s hs).mp hx
    rw [Function.update_of_ne hsr] at h0
    exact h.free s x hs h0 hx
  · by_cases hsr : s = r
    · subst hsr
      simp at hne
    · rw [Function.update_of_ne hsr] at hne ⊢
      obtain ⟨h1, x, hx⟩ := h.held s hs hne
      exact ⟨h1, x, (hold x s hs).mpr ⟨hsr, hx⟩⟩
  · exact h.alone s x y hs ((hold x s hs).mp hx).2 ((hold y s hs).mp hy).2

/-- The resource goes from one owner to another. -/
theorem move (h : Balanced managed holds count) {r : ρ} {o q : ω} (hr : managed r)
    (ho : holds o = some r) (hq : holds q = none) :
    Balanced managed (Function.update (Function.update holds o none) q (some r)) count := by
  have hne : q ≠ o := by
    rintro rfl
    rw [hq] at ho
    cases ho
  have hdrop := h.drop hr ho
  have htake := hdrop.take (o := q) hr (Function.update_self ..)
    ((Function.update_of_ne hne ..).trans hq)
  refine htake.congr (fun _ _ _ => Iff.rfl) fun s _ => ?_
  by_cases hs : s = r
  · subst hs
    rw [Function.update_self, h.count_of_holds hr ho]
  · rw [Function.update_of_ne hs, Function.update_of_ne hs]

end Balanced

end Lib
end CherryOS
