import CherryOS.Mm.Owners

/-!
# What a copy of page tables holds

`get_free_page` hands out frames whose use count is 0, so what a frame in use holds is not
touched by the copy, except for the entries the copy fills in.  Two facts about
`copy_page_tables` are here: what is left alone, and how many frames it takes at most.
-/

namespace CherryOS
namespace Mm

open Kernel

namespace Mem

/-- `get_free_page` does not hand out the frame. -/
def InUse (m : Mem) (g : Nat) : Prop := 256 ≤ g → g < 4096 → m.memMap (g - 256) ≠ 0

/-- The indices in `mem_map` of the free frames. -/
def freeFrames (m : Mem) : Finset Nat := (Finset.range 3840).filter fun i => m.memMap i = 0

variable {m m' : Mem} {f g : Nat} {page : U32}

theorem getFreePage_some (h : m.getFreePage = some (page, m')) : ∃ f, 256 ≤ f ∧ f < 4096 ∧
    m.memMap (f - 256) = 0 ∧ page = frameAddr f ∧ m' = m.taken f := by
  rcases m.getFreePage_cases with ⟨hnone, _⟩ | ⟨f, hlo, hhi, h0, hsome⟩
  · rw [hnone] at h
    cases h
  · rw [hsome] at h
    cases h
    exact ⟨f, hlo, hhi, h0, rfl, rfl⟩

theorem freeFrames_of_getFreePage_none (h : m.getFreePage = none) : m.freeFrames = ∅ := by
  rcases m.getFreePage_cases with ⟨_, hall⟩ | ⟨f, _, _, _, hsome⟩
  · refine Finset.filter_eq_empty_iff.mpr fun i hi => ?_
    have hlt := Finset.mem_range.mp hi
    have := hall (i + 256) (by omega) (by omega)
    rwa [Nat.add_sub_cancel] at this
  · rw [h] at hsome
    cases hsome

theorem inUse_low (m : Mem) (hg : g < 256) : m.InUse g := fun hlo _ => absurd hlo (by omega)

theorem inUse_of_one (h : m.memMap (g - 256) = 1) : m.InUse g := by
  intro _ _ h0
  rw [h] at h0
  exact absurd h0 (by decide)

/-- A free frame is not in use. -/
theorem InUse.ne_free (h : m.InUse g) (hlo : 256 ≤ f) (hhi : f < 4096)
    (h0 : m.memMap (f - 256) = 0) : g ≠ f := by
  intro heq
  rw [heq] at h
  exact h hlo hhi h0

theorem InUse.congr (h : m.InUse g) (hmap : m'.memMap = m.memMap) : m'.InUse g := by
  intro hlo hhi
  rw [hmap]
  exact h hlo hhi

theorem taken_memMap (m : Mem) (f : Nat) :
    (m.taken f).memMap = Function.update m.memMap (f - 256) 1 := rfl

theorem InUse.taken (h : m.InUse g) (f : Nat) : (m.taken f).InUse g := by
  intro hlo hhi
  rw [taken_memMap]
  by_cases hgf : g - 256 = f - 256
  · rw [hgf, Function.update_self]
    decide
  · rw [Function.update_of_ne hgf]
    exact h hlo hhi

theorem taken_inUse (m : Mem) (f : Nat) : (m.taken f).InUse f :=
  inUse_of_one (by rw [taken_memMap, Function.update_self])

theorem freeFrames_congr (h : m'.memMap = m.memMap) : m'.freeFrames = m.freeFrames := by
  rw [freeFrames, freeFrames, h]

/-- Handing out a free frame leaves one less. -/
theorem freeFrames_taken (hlo : 256 ≤ f) (hhi : f < 4096) (h0 : m.memMap (f - 256) = 0) :
    (m.taken f).freeFrames.card + 1 = m.freeFrames.card := by
  have hmem : f - 256 ∈ m.freeFrames :=
    Finset.mem_filter.mpr ⟨Finset.mem_range.mpr (by omega), h0⟩
  have herase : (m.taken f).freeFrames = m.freeFrames.erase (f - 256) := by
    ext i
    rw [Finset.mem_erase, freeFrames, freeFrames, Finset.mem_filter, Finset.mem_filter,
      taken_memMap]
    by_cases hi : i = f - 256
    · rw [hi, Function.update_self]
      exact ⟨fun h => absurd h.2 (by decide), fun h => absurd rfl h.1⟩
    · rw [Function.update_of_ne hi]
      exact ⟨fun h => ⟨hi, h⟩, fun h => h.2⟩
  rw [herase, Finset.card_erase_add_one hmem]

/-! ## One page -/

theorem freeFrames_pos : 1 ≤ m.freeFrames.card ↔ m.getFreePage ≠ none := by
  constructor
  · intro hcard hno
    rw [freeFrames_of_getFreePage_none hno] at hcard
    exact absurd hcard (by decide)
  · intro hsome
    obtain ⟨⟨page, m'⟩, hpage⟩ := Option.ne_none_iff_exists'.mp hsome
    obtain ⟨f, hlo, hhi, h0, _, _⟩ := getFreePage_some hpage
    have := freeFrames_taken hlo hhi h0
    omega

/-- The frame a word lies in. -/
theorem frame_div {g x : Nat} (hx : x < 1024) : (g * 1024 + x) / 1024 = g := by omega

theorem wordAt_div (e : U32) {x : Nat} (hx : x < 1024) :
    wordAt (pageAddr e) x / 1024 = frameOf e := by
  rw [wordAt_pageAddr]
  omega

/-- Frame `f` is taken for a copy of the page at `src`, and the entry at word `w` maps it. -/
def paged (m : Mem) (f : Nat) (src : U32) (w : Nat) : Mem :=
  ((m.taken f).copyPage src (frameAddr f)).setWord w (frameAddr f ||| 7)

theorem paged_entry (m : Mem) (f : Nat) (src : U32) (w : Nat) :
    (m.paged f src w).phys w = frameAddr f ||| 7 := by
  rw [paged, setWord_phys, if_pos rfl]

theorem paged_phys {src : U32} {w x : Nat} (hhi : f < 4096) (hw : x ≠ w) (hf : x / 1024 ≠ f) :
    (m.paged f src w).phys x = m.phys x := by
  rw [paged, setWord_phys, if_neg hw, copyPage_phys _ hhi hf, taken_phys hf]

theorem paged_copy {src : U32} {w x : Nat} (hhi : f < 4096) (hw : w / 1024 ≠ f) (hx : x < 1024)
    (hsrc : wordAt src x / 1024 ≠ f) :
    (m.paged f src w).phys (f * 1024 + x) = m.phys (wordAt src x) := by
  have hdiv : (f * 1024 + x) / 1024 = f := frame_div hx
  have hmod : (f * 1024 + x) % 1024 = x := by omega
  have hframe : (frameAddr f).toNat / 4096 = f := by
    rw [frameAddr_toNat hhi, Nat.mul_div_cancel _ (by decide)]
  rw [paged, setWord_phys, if_neg (fun h => hw (by rw [← h, hdiv])), copyPage, hframe]
  show (if (f * 1024 + x) / 1024 = f then _ else _) = _
  rw [if_pos hdiv, hmod, taken_phys hsrc]

theorem paged_memMap (m : Mem) (f : Nat) (src : U32) (w : Nat) :
    (m.paged f src w).memMap = (m.taken f).memMap := rfl

theorem InUse.paged (h : m.InUse g) (f : Nat) (src : U32) (w : Nat) :
    (m.paged f src w).InUse g := (h.taken f).congr (paged_memMap m f src w)

theorem paged_inUse (m : Mem) (f : Nat) (src : U32) (w : Nat) : (m.paged f src w).InUse f :=
  (taken_inUse m f).congr (paged_memMap m f src w)

/-- The three ways through one turn of the inner loop. -/
theorem copyTabEnts_cons (fromTab toTab : U32) (j : Nat) (js : List Nat) (m : Mem) :
    (m.phys (wordAt fromTab j) &&& 1 ≠ 1 ∧
        copyTabEnts fromTab toTab (j :: js) m = copyTabEnts fromTab toTab js m) ∨
      (m.phys (wordAt fromTab j) &&& 1 = 1 ∧ m.getFreePage = none ∧
        copyTabEnts fromTab toTab (j :: js) m = (m, -ENOMEM)) ∨
      ∃ f, m.phys (wordAt fromTab j) &&& 1 = 1 ∧ 256 ≤ f ∧ f < 4096 ∧
        m.memMap (f - 256) = 0 ∧ copyTabEnts fromTab toTab (j :: js) m = copyTabEnts fromTab toTab js
          (m.paged f (pageAddr (m.phys (wordAt fromTab j))) (wordAt toTab j)) := by
  by_cases hp : m.phys (wordAt fromTab j) &&& 1 = 1
  · right
    rcases m.getFreePage_cases with ⟨hnone, _⟩ | ⟨f, hlo, hhi, h0, hsome⟩
    · left
      refine ⟨hp, hnone, ?_⟩
      rw [copyTabEnts]
      simp only [hp, if_true, hnone]
    · right
      refine ⟨f, hp, hlo, hhi, h0, ?_⟩
      rw [copyTabEnts]
      simp only [hp, if_true, hsome]
      rfl
  · left
    refine ⟨hp, ?_⟩
    rw [copyTabEnts]
    simp only [hp, if_false]

/-! ## One table -/

variable (fromTab toTab : U32) {js : List Nat}

/-- What is in use stays in use and, but for the entries filled in, as it was. -/
theorem copyTabEnts_frozen (js : List Nat) (m : Mem) :
    (∀ g, m.InUse g → (copyTabEnts fromTab toTab js m).1.InUse g) ∧
      ∀ x, m.InUse (x / 1024) → (∀ j ∈ js, x ≠ wordAt toTab j) →
        (copyTabEnts fromTab toTab js m).1.phys x = m.phys x := by
  induction js generalizing m with
  | nil => exact ⟨fun _ hg => hg, fun _ _ _ => rfl⟩
  | cons j js ih =>
    rcases copyTabEnts_cons fromTab toTab j js m with
      ⟨_, heq⟩ | ⟨_, _, heq⟩ | ⟨f, _, hlo, hhi, h0, heq⟩
    · rw [heq]
      exact ⟨(ih m).1, fun x hx hne => (ih m).2 x hx fun k hk => hne k (List.mem_cons_of_mem j hk)⟩
    · rw [heq]
      exact ⟨fun _ hg => hg, fun _ _ _ => rfl⟩
    · rw [heq]
      refine ⟨fun g hg => (ih _).1 g (hg.paged f _ _), fun x hx hne => ?_⟩
      rw [(ih _).2 x (hx.paged f _ _) fun k hk => hne k (List.mem_cons_of_mem j hk)]
      exact paged_phys hhi (hne j List.mem_cons_self) (hx.ne_free hlo hhi h0)

/-- The inner loop takes a frame for an entry at most, and fails only when none is left. -/
theorem copyTabEnts_free (js : List Nat) (m : Mem) :
    ((copyTabEnts fromTab toTab js m).2 ≠ 0 → m.freeFrames.card < js.length) ∧
      m.freeFrames.card ≤ (copyTabEnts fromTab toTab js m).1.freeFrames.card + js.length := by
  induction js generalizing m with
  | nil => exact ⟨fun h => absurd rfl h, Nat.le_add_right _ _⟩
  | cons j js ih =>
    rw [List.length_cons]
    rcases copyTabEnts_cons fromTab toTab j js m with
      ⟨_, heq⟩ | ⟨_, hnone, heq⟩ | ⟨f, _, hlo, hhi, h0, heq⟩
    · rw [heq]
      obtain ⟨hret, hcard⟩ := ih m
      exact ⟨fun h => by have := hret h; omega, by omega⟩
    · rw [heq, freeFrames_of_getFreePage_none hnone, Finset.card_empty]
      exact ⟨fun _ => by omega, by omega⟩
    · rw [heq]
      obtain ⟨hret, hcard⟩ := ih (m.paged f (pageAddr (m.phys (wordAt fromTab j))) (wordAt toTab j))
      have hone := freeFrames_taken hlo hhi h0
      rw [freeFrames_congr (paged_memMap m f _ _)] at hret hcard
      exact ⟨fun h => by have := hret h; omega, by omega⟩

/-! ## The directory -/

/-- Frame `t` is taken for a table, and the directory entry at word `w` names it. -/
def tabled (m : Mem) (t w : Nat) : Mem := (m.taken t).setWord w (frameAddr t ||| 7)

theorem tabled_memMap (m : Mem) (t w : Nat) : (m.tabled t w).memMap = (m.taken t).memMap := rfl

theorem tabled_entry (m : Mem) (t w : Nat) : (m.tabled t w).phys w = frameAddr t ||| 7 := by
  rw [tabled, setWord_phys, if_pos rfl]

theorem tabled_phys {t w x : Nat} (hw : x ≠ w) (ht : x / 1024 ≠ t) :
    (m.tabled t w).phys x = m.phys x := by
  rw [tabled, setWord_phys, if_neg hw, taken_phys ht]

theorem InUse.tabled (h : m.InUse g) (t w : Nat) : (m.tabled t w).InUse g :=
  (h.taken t).congr (tabled_memMap m t w)

theorem tabled_inUse (m : Mem) (t w : Nat) : (m.tabled t w).InUse t :=
  (taken_inUse m t).congr (tabled_memMap m t w)

theorem wordAt_frame {t : Nat} (ht : t < 4096) (j : Nat) :
    wordAt (frameAddr t) j = t * 1024 + j := by
  rw [wordAt, frameAddr_toNat ht]
  omega

theorem wordAt_frame_div {t j : Nat} (ht : t < 4096) (hj : j < 1024) :
    wordAt (frameAddr t) j / 1024 = t := by
  rw [wordAt_frame ht]
  omega

variable {fromDir toDir : U32} {ret : Int32}

/-- The three ways through one turn of the outer loop. -/
theorem copyDirEnts_cons {i : Nat} {is : List Nat}
    (h : copyDirEnts fromDir toDir (i :: is) m = .ok (m', ret)) :
    (m.getFreePage = none ∧ m' = m ∧ ret ≠ 0) ∨
      ∃ t, 256 ≤ t ∧ t < 4096 ∧ m.memMap (t - 256) = 0 ∧
        (((copyTabEnts (pageAddr (m.phys (wordAt fromDir i))) (frameAddr t) tabIndices
              (m.tabled t (wordAt toDir i))).2 ≠ 0 ∧
            m' = (copyTabEnts (pageAddr (m.phys (wordAt fromDir i))) (frameAddr t) tabIndices
              (m.tabled t (wordAt toDir i))).1 ∧ ret ≠ 0) ∨
          ((copyTabEnts (pageAddr (m.phys (wordAt fromDir i))) (frameAddr t) tabIndices
              (m.tabled t (wordAt toDir i))).2 = 0 ∧
            copyDirEnts fromDir toDir is (copyTabEnts (pageAddr (m.phys (wordAt fromDir i)))
              (frameAddr t) tabIndices (m.tabled t (wordAt toDir i))).1 = .ok (m', ret))) := by
  rw [copyDirEnts] at h
  split at h
  · cases h
  · split at h
    · cases h
    · rcases m.getFreePage_cases with ⟨hnone, _⟩ | ⟨t, hlo, hhi, h0, hsome⟩
      · left
        rw [hnone] at h
        cases h
        exact ⟨hnone, rfl, show (-ENOMEM : Int32) ≠ 0 by decide⟩
      · right
        refine ⟨t, hlo, hhi, h0, ?_⟩
        rw [hsome] at h
        dsimp only at h
        rw [← show m.tabled t (wordAt toDir i) =
          (m.taken t).setWord (wordAt toDir i) (frameAddr t ||| 7) from rfl] at h
        split at h
        · rename_i hret
          left
          cases h
          exact ⟨hret, rfl, hret⟩
        · rename_i hret
          exact Or.inr ⟨not_not.mp hret, h⟩

/-- The words that a first part of a copy has to leave alone for the rest. -/
structure Keeps (m m₁ : Mem) (w : Nat) : Prop where
  used : ∀ g, m.InUse g → m₁.InUse g
  phys : ∀ x, m.InUse (x / 1024) → x ≠ w → m₁.phys x = m.phys x

theorem keeps_of_copyTabEnts (fromTab : U32) (w : Nat) {t : Nat} (hlo : 256 ≤ t) (hhi : t < 4096)
    (h0 : m.memMap (t - 256) = 0) :
    Keeps m (copyTabEnts fromTab (frameAddr t) tabIndices (m.tabled t w)).1 w := by
  obtain ⟨huse, hfroz⟩ := copyTabEnts_frozen fromTab (frameAddr t) tabIndices (m.tabled t w)
  refine ⟨fun g hg => huse g (hg.tabled t _), fun x hx hne => ?_⟩
  have hxt := hx.ne_free hlo hhi h0
  rw [hfroz x (hx.tabled t _) fun j hj hc => hxt ?_, tabled_phys hne hxt]
  rw [hc, wordAt_frame_div hhi (mem_tabIndices.mp hj)]

/-- What is in use stays in use and, but for the directory entries filled in, as it was. -/
theorem copyDirEnts_frozen {is : List Nat} (h : copyDirEnts fromDir toDir is m = .ok (m', ret)) :
    (∀ g, m.InUse g → m'.InUse g) ∧
      ∀ x, m.InUse (x / 1024) → (∀ i ∈ is, x ≠ wordAt toDir i) → m'.phys x = m.phys x := by
  induction is generalizing m with
  | nil =>
    cases h
    exact ⟨fun _ hg => hg, fun _ _ _ => rfl⟩
  | cons i is ih =>
    rcases copyDirEnts_cons h with ⟨_, rfl, _⟩ | ⟨t, hlo, hhi, h0, hturn⟩
    · exact ⟨fun _ hg => hg, fun _ _ _ => rfl⟩
    · obtain ⟨huse, hone⟩ := keeps_of_copyTabEnts (pageAddr (m.phys (wordAt fromDir i)))
        (wordAt toDir i) hlo hhi h0
      rcases hturn with ⟨_, rfl, _⟩ | ⟨_, hrest⟩
      · exact ⟨huse, fun x hx hne => hone x hx (hne i List.mem_cons_self)⟩
      · obtain ⟨huse', hfroz'⟩ := ih hrest
        refine ⟨fun g hg => huse' g (huse g hg), fun x hx hne => ?_⟩
        rw [hfroz' x (huse _ hx) fun k hk => hne k (List.mem_cons_of_mem i hk),
          hone x hx (hne i List.mem_cons_self)]

theorem length_tabIndices : tabIndices.length = 1024 := by
  unfold tabIndices
  exact List.length_range

/-- A copy of `n` directory entries takes `1025 * n` frames at most, and fails only when they
are not there. -/
theorem copyDirEnts_free {is : List Nat} (h : copyDirEnts fromDir toDir is m = .ok (m', ret)) :
    ret ≠ 0 → m.freeFrames.card < 1025 * is.length := by
  induction is generalizing m with
  | nil =>
    cases h
    exact fun hc => absurd rfl hc
  | cons i is ih =>
    rw [List.length_cons]
    intro hret
    rcases copyDirEnts_cons h with ⟨hnone, _, _⟩ | ⟨t, hlo, hhi, h0, hturn⟩
    · rw [freeFrames_of_getFreePage_none hnone, Finset.card_empty]
      omega
    · have htab := copyTabEnts_free (pageAddr (m.phys (wordAt fromDir i)))
        (frameAddr t) tabIndices (m.tabled t (wordAt toDir i))
      have hone := freeFrames_taken hlo hhi h0
      rw [freeFrames_congr (tabled_memMap m t _), length_tabIndices] at htab
      rcases hturn with ⟨hfail, _, _⟩ | ⟨_, hrest⟩
      · have := htab.1 hfail
        omega
      · have := ih hrest hret
        have := htab.2
        omega

/-- `copy_page_tables` as its loop over directory entries. -/
theorem copyDirEnts_of_copyPageTables {a b size : U32} (h : m.copyPageTables a b size = .ok (m', ret)) :
    copyDirEnts ((a >>> 22) * 4) ((b >>> 22) * 4) (List.range (nrOfDirEnt size)) m =
      .ok (m', ret) := by
  unfold copyPageTables at h
  split at h
  · cases h
  · exact h

end Mem

end Mm
end CherryOS
