import CherryOS.Fs.CacheInv

/-!
# The order of the free list

The pointer `free_list` makes a list of the ring.  `getblk` takes the head it chose out of
the list, wherever it is, and puts it in front of the node that `free_list` points to, which
on a ring is the end of the list.
-/

namespace CherryOS
namespace Fs
namespace Cache

open Kernel (U32)
open Lib

variable {n : Nat} {c c' : Cache n} {b : Fin n} {l low high : List (Fin n)}

/-- The free list from `free_list` on, once around. -/
structure FreeList (c : Cache n) (l : List (Fin n)) : Prop where
  ring : Lib.Ring c.nextFree c.prevFree ↑l
  head : l.head? = some c.freeList

theorem FreeList.nodup (h : FreeList c l) : l.Nodup := Cycle.nodup_coe_iff.mp h.ring.nodup

theorem FreeList.congr (h : FreeList c l) (hs : SameLinks c c') : FreeList c' l :=
  ⟨h.ring.congr hs.nextFree hs.prevFree, by rw [hs.freeList]; exact h.head⟩

theorem coe_middle (low high : List (Fin n)) (b : Fin n) :
    (↑(low ++ b :: high) : Cycle (Fin n)) = ↑(b :: (high ++ low)) :=
  Cycle.coe_eq_coe.mpr List.isRotated_append

/-- The list comes round to where it began. -/
theorem FreeList.next_last (h : FreeList c (low ++ [b])) : c.nextFree b = some c.freeList := by
  cases hl : low ++ [b] with
  | nil => simp at hl
  | cons f l =>
    rw [hl] at h
    have hf : f = c.freeList := Option.some.inj h.head
    have hlast : (f :: l).getLast? = some b := by
      rw [← hl]
      simp
    exact hf ▸ (h.ring.around.2 b hlast).1

theorem FreeList.next {y : Fin n} (h : FreeList c (low ++ b :: y :: high)) :
    c.nextFree b = some y ∧ y ≠ c.freeList := by
  have hring := h.ring
  rw [coe_middle] at hring
  refine ⟨(List.isChain_cons_cons.mp hring.around.1).1.1, ?_⟩
  rintro rfl
  have hnodup := h.nodup
  have hhead := h.head
  cases low with
  | nil =>
    have hb : b = c.freeList := Option.some.inj hhead
    rw [hb] at hnodup
    simp at hnodup
  | cons x low =>
    have hx : x = c.freeList := Option.some.inj hhead
    rw [hx] at hnodup
    simp at hnodup

/-- Every head of a well-formed cache is on the list. -/
theorem WellFormed.freeList (h : WellFormed c) : ∃ l, FreeList c l ∧ ∀ x, x ∈ l := by
  obtain ⟨r, hring, hall⟩ := h.ring
  obtain ⟨l, rfl⟩ := cycle_at (hall c.freeList)
  exact ⟨c.freeList :: l, ⟨hring, rfl⟩, fun x => Cycle.mem_coe_iff.mp (hall x)⟩

theorem Removed.freeList_list (hr : Removed c b c') (h : FreeList c (low ++ b :: high))
    (hne : low ++ high ≠ []) : FreeList c' (low ++ high) := by
  have hrest : high ++ low ≠ [] := by
    simpa [and_comm] using hne
  obtain ⟨a, l, hal⟩ := List.exists_cons_of_ne_nil hrest
  have hring := h.ring
  rw [coe_middle, hal] at hring
  have hring' : Lib.Ring c'.nextFree c'.prevFree ↑(a :: l) :=
    hring.remove (fun x _ => by rw [nextFree, hr.bh x]) fun x _ => by rw [prevFree, hr.bh x]
  have hswap : (↑(low ++ high) : Cycle (Fin n)) = ↑(high ++ low) :=
    Cycle.coe_eq_coe.mpr List.isRotated_append
  refine ⟨by rw [hswap, hal]; exact hring', ?_⟩
  have hfree := hr.freeList
  cases low with
  | nil =>
    have hb : c.freeList = b := (Option.some.inj h.head).symm
    have hba : c.nextFree b = some a := (List.isChain_cons_cons.mp hring.around.1).1.1
    rw [List.append_nil] at hal
    rw [if_pos hb, hba] at hfree
    rw [List.nil_append, hal, hfree]
    rfl
  | cons x low =>
    have hx : x = c.freeList := Option.some.inj h.head
    have hxb : c.freeList ≠ b := by
      rintro rfl
      have hnodup := h.nodup
      rw [hx] at hnodup
      simp at hnodup
    rw [if_neg hxb] at hfree
    rw [hfree]
    exact h.head

theorem Inserted.links (hi : Inserted c b c') (x : Fin n) :
    (c'.nextFree x = if x = b then some c.freeList
      else if c.prevFree c.freeList = some x then some b else c.nextFree x) ∧
    c'.prevFree x = if x = c.freeList then some b
      else if x = b then c.prevFree c.freeList else c.prevFree x :=
  ⟨by rw [nextFree, hi.bh x], by rw [prevFree, hi.bh x]⟩

theorem Inserted.freeList_list (hi : Inserted c b c') (h : FreeList c l) (hb : b ∉ l) :
    FreeList c' (l ++ [b]) := by
  have hne : ∀ x ∈ l, x ≠ b := fun x hx e => hb (e ▸ hx)
  cases l with
  | nil => exact absurd h.head (by simp)
  | cons f l =>
    have hf : f = c.freeList := Option.some.inj h.head
    subst hf
    have hfb := hne _ List.mem_cons_self
    have hring : Lib.Ring c'.nextFree c'.prevFree ↑(b :: c.freeList :: l) := by
      refine h.ring.insert hb ?_ ?_ (fun x hx => ?_) fun x hx => ?_
      · rw [(hi.links b).1, if_pos rfl]
      · rw [(hi.links b).2, if_neg (Ne.symm hfb), if_pos rfl]
      · rw [(hi.links x).1, if_neg (hne x hx)]
      · rw [(hi.links x).2, if_neg (hne x hx)]
    refine ⟨?_, by rw [hi.freeList]; rfl⟩
    rw [coe_middle]
    exact hring

/-- The head that is claimed goes to the end of the list. -/
theorem ClaimSteps.freeList {c₂ : Cache n} {dev block : U32}
    (hsteps : ClaimSteps c b dev block c₂ c') (h : FreeList c (low ++ b :: high)) :
    FreeList c' (low ++ high ++ [b]) := by
  have hnodup := List.nodup_middle.mp h.nodup
  have hb : b ∉ low ++ high := (List.nodup_cons.mp hnodup).1
  have hfresh := h.congr (sameLinks_fresh c b)
  have hlinks : ∀ x, (c₂.rekey b dev block).nextFree x = c₂.nextFree x ∧
      (c₂.rekey b dev block).prevFree x = c₂.prevFree x := by
    intro x
    by_cases hx : x = b
    · subst hx
      exact ⟨by rw [nextFree, rekey, store_self], by rw [prevFree, rekey, store_self]⟩
    · exact ⟨by rw [nextFree, rekey, store_other _ hx], by rw [prevFree, rekey, store_other _ hx]⟩
  by_cases hne : low ++ high = []
  · -- the only head is its own neighbour
    obtain ⟨rfl, rfl⟩ := List.append_eq_nil_iff.mp hne
    have hself : (c.fresh b).freeList = b := (Option.some.inj hfresh.head).symm
    have hback : (c.fresh b).nextFree b = some b := (hfresh.ring.around.2 b rfl).1
    have hfree := hsteps.removed.freeList
    rw [if_pos hself, hback, Option.some.injEq] at hfree
    have hfree : (c₂.rekey b dev block).freeList = b := hfree
    refine ⟨Lib.Ring.single ?_ ?_, ?_⟩
    · rw [(hsteps.inserted.links b).1, if_pos rfl, hfree]
    · rw [(hsteps.inserted.links b).2, if_pos hfree.symm]
    · rw [hsteps.inserted.freeList, hfree]
      rfl
  · have hmid := hsteps.removed.freeList_list hfresh hne
    refine hsteps.inserted.freeList_list ⟨?_, hmid.head⟩ hb
    exact hmid.ring.congr (funext fun x => (hlinks x).1) (funext fun x => (hlinks x).2)

theorem freeList_bufferInit [NeZero n] (bufferEnd : U32) (blocknr : Fin n → U32) :
    FreeList (bufferInit bufferEnd blocknr) (List.finRange n) := by
  refine ⟨bufferInit_ring bufferEnd blocknr, ?_⟩
  obtain ⟨m, rfl⟩ := Nat.exists_eq_succ_of_ne_zero (NeZero.ne n)
  rw [List.finRange_succ]
  rfl

end Cache
end Fs
end CherryOS
