import CherryOS.Lib.Ledger
import CherryOS.Mm.Memory

/-!
# Who owns a frame

A frame has three kinds of owner: the slot whose `task_union` lies in it, the directory
entry that names it as a page table, and the table entry that maps it.  `union` says which
frame the task of a slot lies in, and `holds` reads the other two off memory.  An entry
of a 4 MB page names no table and maps no frame of the allocator, so it owns nothing.

`MmInv` is the invariant of the allocator.  What a frame change does to it is said once,
by `MmInv.enter` and `MmInv.leave`; each operation then only has to say how it moves
`holds`.  The one table whose entries are not the allocator's is that of task 1, which
maps the first megabyte.
-/

namespace CherryOS
namespace Mm

open Kernel Lib

inductive Owner
  | taskUnion (nr : Fin NUMBER_OF_TASKS)
  | dirEntry (d : Nat)
  | tabEntry (d j : Nat)
deriving DecidableEq

/-- The directory entry an owner belongs to. -/
def Owner.dir : Owner → Option Nat
  | .taskUnion _ => none
  | .dirEntry d => some d
  | .tabEntry d _ => some d

/-- The directory entry names a page table. -/
def Table (e : U32) : Prop := e &&& 1 = 1 ∧ e &&& 0x80 = 0

instance (e : U32) : Decidable (Table e) := inferInstanceAs (Decidable (_ ∧ _))

/-- The word that holds entry `j` of the table of directory entry `d`. -/
def Mem.entryWord (m : Mem) (d j : Nat) : Nat := frameOf (m.phys d) * 1024 + j

def holds (union : Fin NUMBER_OF_TASKS → Option Nat) (m : Mem) : Owner → Option Nat
  | .taskUnion nr => union nr
  | .dirEntry d => if d < 1024 ∧ Table (m.phys d) then some (frameOf (m.phys d)) else none
  | .tabEntry d j =>
    if d < 1024 ∧ j < 1024 ∧ Table (m.phys d) ∧ m.phys (m.entryWord d j) &&& 1 = 1 then
      some (frameOf (m.phys (m.entryWord d j)))
    else none

/-- The use count of a frame. -/
def Mem.count (m : Mem) (f : Nat) : Nat := (m.memMap (f - 256)).toNat

structure MmInv (managed : Nat → Prop) (union : Fin NUMBER_OF_TASKS → Option Nat) (m : Mem) :
    Prop where
  range : ∀ f, managed f → 256 ≤ f ∧ f < 4096
  outside : ∀ i < 3840, ¬ managed (i + 256) → m.memMap i = NOT_EXIST
  balanced : Balanced managed (holds union m) m.count
  named : ∀ o f, holds union m o = some f → managed f ∨ ∃ j, o = .tabEntry 16 j

variable {managed : Nat → Prop} {union union' : Fin NUMBER_OF_TASKS → Option Nat} {m m' : Mem}

theorem holds_taskUnion (nr : Fin NUMBER_OF_TASKS) : holds union m (.taskUnion nr) = union nr := rfl

theorem holds_dirEntry {d : Nat} (hd : d < 1024) (ht : Table (m.phys d)) :
    holds union m (.dirEntry d) = some (frameOf (m.phys d)) := if_pos ⟨hd, ht⟩

theorem holds_dirEntry_none {d : Nat} (ht : ¬ Table (m.phys d)) :
    holds union m (.dirEntry d) = none := if_neg fun h => ht h.2

theorem holds_tabEntry {d j : Nat} (hd : d < 1024) (hj : j < 1024) (ht : Table (m.phys d))
    (he : m.phys (m.entryWord d j) &&& 1 = 1) :
    holds union m (.tabEntry d j) = some (frameOf (m.phys (m.entryWord d j))) :=
  if_pos ⟨hd, hj, ht, he⟩

theorem holds_tabEntry_none {d j : Nat} (he : ¬ m.phys (m.entryWord d j) &&& 1 = 1) :
    holds union m (.tabEntry d j) = none := if_neg fun h => he h.2.2.2

theorem holds_tabEntry_no_table {d j : Nat} (ht : ¬ Table (m.phys d)) :
    holds union m (.tabEntry d j) = none := if_neg fun h => ht h.2.2.1

theorem entryWord_congr {d j : Nat} (h : m'.phys d = m.phys d) :
    m'.entryWord d j = m.entryWord d j := by rw [Mem.entryWord, Mem.entryWord, h]

theorem holds_of_dir_none {o : Owner} (ho : o.dir = none) : holds union m' o = holds union m o := by
  cases o with
  | taskUnion nr => rfl
  | dirEntry d => cases ho
  | tabEntry d j => cases ho

theorem holds_beyond {o : Owner} {d : Nat} (ho : o.dir = some d) (hd : ¬ d < 1024) :
    holds union m o = none := by
  cases o with
  | taskUnion nr => cases ho
  | dirEntry e =>
    cases ho
    exact if_neg fun hc => hd hc.1
  | tabEntry e j =>
    cases ho
    exact if_neg fun hc => hd hc.1

/-- An owner of entry `d` holds the same when the directory entry and the entries of its
table are the same. -/
theorem holds_congr {o : Owner} {d : Nat} (ho : o.dir = some d) (hdir : m'.phys d = m.phys d)
    (htab : d < 1024 → Table (m.phys d) → ∀ j < 1024, o = .tabEntry d j →
      m'.phys (m.entryWord d j) = m.phys (m.entryWord d j)) :
    holds union' m' o = holds union m o := by
  cases o with
  | taskUnion nr => cases ho
  | dirEntry e =>
    cases ho
    rw [holds, holds, hdir]
  | tabEntry e j =>
    cases ho
    have hw := entryWord_congr (j := j) hdir
    by_cases hc : d < 1024 ∧ j < 1024 ∧ Table (m.phys d)
    · rw [holds, holds, hdir, hw, htab hc.1 hc.2.2 j hc.2.1 rfl]
    · rw [holds, holds, hdir, if_neg (fun h => hc ⟨h.1, h.2.1, h.2.2.1⟩),
        if_neg (fun h => hc ⟨h.1, h.2.1, h.2.2.1⟩)]

namespace MmInv

/-- The frame of a page table is the allocator's. -/
theorem table_managed (h : MmInv managed union m) {d : Nat} (hd : d < 1024)
    (ht : Table (m.phys d)) : managed (frameOf (m.phys d)) := by
  rcases h.named _ _ (holds_dirEntry hd ht) with hm | ⟨j, hj⟩
  · exact hm
  · cases hj

theorem table_inj (h : MmInv managed union m) {d e : Nat} (hd : d < 1024) (he : e < 1024)
    (ht : Table (m.phys d)) (ht' : Table (m.phys e))
    (heq : frameOf (m.phys d) = frameOf (m.phys e)) : d = e := by
  have ho : holds union m (.dirEntry e) = _ := holds_dirEntry he ht'
  rw [← heq] at ho
  have := h.balanced.alone _ _ _ (h.table_managed hd ht) (holds_dirEntry hd ht) ho
  cases this
  rfl

theorem memMap_of_holds (h : MmInv managed union m) {o : Owner} {f : Nat} (hf : managed f)
    (ho : holds union m o = some f) : m.memMap (f - 256) = 1 := by
  have := h.balanced.count_of_holds hf ho
  exact BitVec.eq_of_toNat_eq this

/-- A free frame is no page table. -/
theorem table_ne_free (h : MmInv managed union m) {d f : Nat} (hd : d < 1024)
    (ht : Table (m.phys d)) (hfree : m.memMap (f - 256) = 0) : frameOf (m.phys d) ≠ f := by
  intro heq
  have h1 := h.memMap_of_holds (h.table_managed hd ht) (holds_dirEntry hd ht)
  rw [heq, hfree] at h1
  exact absurd h1 (by decide)

/-- The words of a page table lie above the page directory. -/
theorem entryWord_ge (h : MmInv managed union m) {d : Nat} (hd : d < 1024)
    (ht : Table (m.phys d)) (j : Nat) : 1024 ≤ m.entryWord d j := by
  have := (h.range _ (h.table_managed hd ht)).1
  rw [Mem.entryWord]
  omega

theorem entryWord_frame {d j : Nat} (hj : j < 1024) :
    m.entryWord d j / 1024 = frameOf (m.phys d) := by
  rw [Mem.entryWord]
  omega

/-- The tables of two directory entries share no word. -/
theorem entryWord_ne (h : MmInv managed union m) {d e j k : Nat} (hd : d < 1024)
    (he : e < 1024) (ht : Table (m.phys d)) (ht' : Table (m.phys e)) (hj : j < 1024)
    (hk : k < 1024) (hne : d ≠ e ∨ j ≠ k) : m.entryWord d j ≠ m.entryWord e k := by
  intro heq
  have hframe : frameOf (m.phys d) = frameOf (m.phys e) := by
    rw [← entryWord_frame hj, ← entryWord_frame hk, heq]
  rw [Mem.entryWord, Mem.entryWord, hframe] at heq
  rcases hne with hne | hne
  · exact hne (h.table_inj hd he ht ht' hframe)
  · omega

/-! ## Three ways a frame changes hands -/

/-- One owner and one frame change, and the frame is the allocator's. -/
theorem change (h : MmInv managed union m) {o : Owner} {f : Nat} {x : Option Nat} {v : BitVec 8}
    (hf : managed f) (hx : ∀ g, x = some g → g = f)
    (hh : holds union' m' = Function.update (holds union m) o x)
    (hm : m'.memMap = Function.update m.memMap (f - 256) v)
    (hbal : Balanced managed (Function.update (holds union m) o x)
      (Function.update m.count f v.toNat)) : MmInv managed union' m' where
  range := h.range
  outside i hi hno := by
    have hne : i ≠ f - 256 := by
      intro heq
      have := (h.range f hf).1
      exact hno (by rwa [heq, Nat.sub_add_cancel this])
    rw [hm, Function.update_of_ne hne]
    exact h.outside i hi hno
  balanced := by
    rw [hh]
    refine hbal.congr (fun _ _ _ => Iff.rfl) fun r hr => ?_
    by_cases hrf : r = f
    · subst hrf
      rw [Mem.count, hm, Function.update_self, Function.update_self]
    · have := (h.range f hf).1
      have := (h.range r hr).1
      rw [Mem.count, hm, Function.update_of_ne (by omega), Function.update_of_ne hrf, Mem.count]
  named y g hy := by
    rw [hh] at hy
    by_cases hyo : y = o
    · subst hyo
      rw [Function.update_self] at hy
      rw [hx g hy]
      exact Or.inl hf
    · rw [Function.update_of_ne hyo] at hy
      exact h.named y g hy

theorem enter (h : MmInv managed union m) {o : Owner} {f : Nat} (hf : managed f)
    (hfree : m.memMap (f - 256) = 0) (ho : holds union m o = none)
    (hh : holds union' m' = Function.update (holds union m) o (some f))
    (hm : m'.memMap = Function.update m.memMap (f - 256) 1) : MmInv managed union' m' := by
  have hzero : m.count f = 0 := by
    rw [Mem.count, hfree]
    rfl
  exact h.change hf (fun g hg => (Option.some.inj hg).symm) hh hm (h.balanced.take hf hzero ho)

theorem leave (h : MmInv managed union m) {o : Owner} {f : Nat} (hf : managed f)
    (ho : holds union m o = some f)
    (hh : holds union' m' = Function.update (holds union m) o none)
    (hm : m'.memMap = Function.update m.memMap (f - 256) 0) : MmInv managed union' m' :=
  h.change hf (fun g hg => by cases hg) hh hm (h.balanced.drop hf ho)

theorem keep (h : MmInv managed union m) (hh : holds union' m' = holds union m)
    (hm : m'.memMap = m.memMap) : MmInv managed union' m' where
  range := h.range
  outside i hi hno := by
    rw [hm]
    exact h.outside i hi hno
  balanced := by
    rw [hh]
    exact h.balanced.congr (fun _ _ _ => Iff.rfl) fun r _ => by rw [Mem.count, hm, Mem.count]
  named := by
    rw [hh]
    exact h.named

/-- `get_free_page` finds no frame, or hands out one of the allocator's that is free. -/
theorem getFreePage (h : MmInv managed union m) :
    m.getFreePage = none ∨ ∃ f, managed f ∧ f < 4096 ∧ m.memMap (f - 256) = 0 ∧
      m.getFreePage = some (Mem.frameAddr f, m.taken f) := by
  rcases m.getFreePage_cases with ⟨hnone, _⟩ | ⟨f, hlo, hhi, h0, hsome⟩
  · exact Or.inl hnone
  · refine Or.inr ⟨f, ?_, hhi, h0, hsome⟩
    by_contra hno
    have := h.outside (f - 256) (by omega) (by rwa [Nat.sub_add_cancel hlo])
    rw [h0] at this
    exact absurd this (by decide)

theorem freePage (h : MmInv managed union m) {o : Owner} {f : Nat} {addr : U32}
    (hf : managed f) (ho : holds union m o = some f) (ha : addr.toNat = f * 4096) :
    Mem.freePage addr m = .ok (m.released f) := by
  obtain ⟨hlo, hhi⟩ := h.range f hf
  exact Mem.freePage_ok hlo hhi (h.memMap_of_holds hf ho) ha

end MmInv

end Mm
end CherryOS
