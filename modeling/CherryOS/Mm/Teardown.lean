import CherryOS.Mm.Copying
import CherryOS.Mm.PageTables

/-!
# What a teardown writes

`free_page_tables` writes the directory entries of the window and the words of the tables
that they name.  Every other word of memory stays as it was.
-/

namespace CherryOS
namespace Mm

open Kernel

namespace Mem

variable {m m' : Mem}

theorem freePage_phys {addr : U32} (h : m.freePage addr = .ok m') : m'.phys = m.phys := by
  unfold freePage at h
  split at h
  · cases h
  · split at h
    · cases h
    · split at h
      · cases h
        rfl
      · cases h

theorem freePresent_phys {entry : U32} (h : freePresent entry m = .ok m') : m'.phys = m.phys := by
  unfold freePresent at h
  split at h
  · exact freePage_phys h
  · cases h
    rfl

theorem freeTabEnts_phys {tab : U32} {js : List Nat} (h : freeTabEnts tab js m = .ok m') {x : Nat}
    (hx : ∀ j ∈ js, x ≠ wordAt tab j) : m'.phys x = m.phys x := by
  induction js generalizing m with
  | nil =>
    cases h
    rfl
  | cons j js ih =>
    obtain ⟨m₁, hfree, hrest⟩ := bind_eq_ok h
    rw [ih hrest fun k hk => hx k (List.mem_cons_of_mem j hk), setWord_phys,
      if_neg (hx j List.mem_cons_self), freePresent_phys hfree]

/-- An entry that maps a page below 1 MB cannot be freed. -/
theorem freeTabEnts_low {tab : U32} {j : Nat} {js : List Nat}
    (hp : m.phys (wordAt tab j) &&& 1 = 1) (hlow : frameOf (m.phys (wordAt tab j)) < 256) :
    freeTabEnts tab (j :: js) m = .error (.panic "free addr < 1MB\n") := by
  have haddr : (pageAddr (m.phys (wordAt tab j))).toNat < LOW_MEM := by
    rw [pageAddr_toNat]
    show _ < 0x100000
    omega
  rw [freeTabEnts, freePresent, if_pos hp, freePage, if_pos haddr, error_bind]

theorem freeDirEnts_absent {dir : U32} {is : List Nat}
    (h : ∀ i ∈ is, m.phys (wordAt dir i) &&& 1 = 0) : freeDirEnts dir is m = .ok m := by
  induction is with
  | nil => rfl
  | cons i is ih =>
    rw [freeDirEnts, if_pos (h i List.mem_cons_self)]
    exact ih fun k hk => h k (List.mem_cons_of_mem i hk)

/-- The entry names no table, or one that is neither the directory nor the frame of `x`. -/
def Elsewhere (x : Nat) (e : U32) : Prop := e &&& 1 = 0 ∨ 1 ≤ frameOf e ∧ frameOf e ≠ x / 1024

theorem freeDirEnts_phys {dir : U32} {is : List Nat} (h : freeDirEnts dir is m = .ok m') {x : Nat}
    (hx : ∀ i ∈ is, x ≠ wordAt dir i ∧ wordAt dir i < 1024 ∧ Elsewhere x (m.phys (wordAt dir i))) :
    m'.phys x = m.phys x := by
  induction is generalizing m with
  | nil =>
    cases h
    rfl
  | cons i is ih =>
    have htail : ∀ k ∈ is, k ∈ i :: is := fun k hk => List.mem_cons_of_mem i hk
    obtain ⟨hxi, _, helse⟩ := hx i List.mem_cons_self
    rw [freeDirEnts] at h
    split at h
    · exact ih h fun k hk => hx k (htail k hk)
    · rename_i hpres
      obtain ⟨h1, hframe⟩ := helse.resolve_left hpres
      obtain ⟨m₁, htab, h⟩ := bind_eq_ok h
      obtain ⟨m₂, hpage, hrest⟩ := bind_eq_ok h
      -- the table lies in neither the directory nor the frame of `x`
      have hkeep : ∀ y, y / 1024 ≠ frameOf (m.phys (wordAt dir i)) → m₁.phys y = m.phys y := by
        refine fun y hy => freeTabEnts_phys htab fun j hj hc => hy ?_
        rw [hc, wordAt_div _ (mem_tabIndices.mp hj)]
      have hsame : ∀ y, y / 1024 ≠ frameOf (m.phys (wordAt dir i)) → y ≠ wordAt dir i →
          (m₂.setWord (wordAt dir i) 0).phys y = m.phys y := by
        intro y hy hne
        rw [setWord_phys, if_neg hne, freePage_phys hpage, hkeep y hy]
      rw [ih hrest fun k hk => ?_, hsame x (Ne.symm hframe) hxi]
      obtain ⟨hxk, hlow, hk'⟩ := hx k (htail k hk)
      refine ⟨hxk, hlow, ?_⟩
      by_cases hki : wordAt dir k = wordAt dir i
      · left
        rw [hki, setWord_phys, if_pos rfl]
        decide
      · rwa [hsame _ (by omega) hki]

/-- A teardown of the window of a slot leaves every word alone that is neither one of its
directory entries nor in one of its tables. -/
theorem freePageTables_phys {nr : Nat} (hnr : nr < 64) {size : U32}
    (hsize : nrOfDirEnt size ≤ 16) (h : freePageTables (windowBase nr) size m = .ok m') {x : Nat}
    (hx : ∀ k < nrOfDirEnt size, x ≠ 16 * nr + k ∧ Elsewhere x (m.phys (16 * nr + k))) :
    m'.phys x = m.phys x := by
  unfold freePageTables at h
  split at h
  · cases h
  · split at h
    · cases h
    · refine freeDirEnts_phys h fun i hi => ?_
      have hi := List.mem_range.mp hi
      rw [MmInv.wordAt_window hnr]
      exact ⟨(hx i hi).1, by omega, (hx i hi).2⟩

end Mem

/-- A word of the table of one directory entry is not in the table of another. -/
theorem MmInv.entryWord_elsewhere {managed : Nat → Prop}
    {union : Fin NUMBER_OF_TASKS → Option Nat} {m : Mem} (h : MmInv managed union m)
    {d e j : Nat} (hd : d < 1024)
    (he : e < 1024) (hne : d ≠ e) (ht : Table (m.phys d)) (hj : j < 1024)
    (hent : m.phys e = 0 ∨ Table (m.phys e)) :
    Mem.Elsewhere (m.entryWord d j) (m.phys e) := by
  rcases hent with h0 | ht'
  · left
    rw [h0]
    decide
  · right
    have := (h.range _ (h.table_managed he ht')).1
    rw [MmInv.entryWord_frame hj]
    exact ⟨by omega, fun hc => hne (h.table_inj hd he ht ht' hc.symm)⟩

end Mm
end CherryOS
