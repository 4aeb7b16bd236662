import CherryOS.Mm.Owners

/-!
# The page tables keep the ledger

One lemma for each time a frame changes hands in `copy_page_tables` and
`free_page_tables`: a table is taken for a directory entry, a page is taken for a table
entry, and both are given back.  Over them one lemma for each loop.  `OnlyIn D` is what the
loops leave alone: directory entries outside `D` and what the owners there hold.
-/

namespace CherryOS
namespace Mm

open Kernel Lib

/-- The first `n` directory entries of the window of slot `nr`: the linear addresses of a
slot are 16 directory entries. -/
def InWindow (nr n d : Nat) : Prop := ∃ k < n, d = 16 * nr + k

/-- From `m` to `m'` only directory entries in `D`, and what belongs to them, change. -/
structure OnlyIn (D : Nat → Prop) (union : Fin NUMBER_OF_TASKS → Option Nat) (m m' : Mem) :
    Prop where
  dir : ∀ e < 1024, ¬ D e → m'.phys e = m.phys e
  holds : ∀ o : Owner, (∀ d, o.dir = some d → ¬ D d) → holds union m' o = holds union m o

namespace OnlyIn

variable {D E : Nat → Prop} {union : Fin NUMBER_OF_TASKS → Option Nat} {m m' m'' : Mem}

theorem refl : OnlyIn D union m m := ⟨fun _ _ _ => rfl, fun _ _ => rfl⟩

theorem trans (h : OnlyIn D union m m') (h' : OnlyIn D union m' m'') : OnlyIn D union m m'' :=
  ⟨fun e he hD => (h'.dir e he hD).trans (h.dir e he hD),
    fun o ho => (h'.holds o ho).trans (h.holds o ho)⟩

theorem mono (h : OnlyIn D union m m') (hDE : ∀ d, D d → E d) : OnlyIn E union m m' :=
  ⟨fun e he hE => h.dir e he fun hD => hE (hDE e hD),
    fun o ho => h.holds o fun d hd hD => ho d hd (hDE d hD)⟩

end OnlyIn

namespace MmInv

variable {managed : Nat → Prop} {union : Fin NUMBER_OF_TASKS → Option Nat} {m m' : Mem}

/-! ## One frame -/

/-- A free frame becomes the empty page table of an entry that is not present. -/
theorem allocTable (h : MmInv managed union m) {d f : Nat} (hd : d < 1024)
    (hno : m.phys d &&& 1 = 0) (hf : managed f) (h0 : m.memMap (f - 256) = 0)
    (hm' : m' = (m.taken f).setWord d (Mem.frameAddr f ||| 7)) :
    MmInv managed union m' ∧ OnlyIn (· = d) union m m' ∧ Table (m'.phys d) ∧
      ∀ j < 1024, m'.phys (m'.entryWord d j) = 0 := by
  obtain ⟨hlo, hhi⟩ := h.range f hf
  obtain ⟨hframe, hpres, hlarge⟩ := frameAddr_entry hhi
  have hnt : ¬ Table (m.phys d) := by
    intro ht
    rw [ht.1] at hno
    exact absurd hno (by decide)
  have hself : m'.phys d = Mem.frameAddr f ||| 7 := by rw [hm', Mem.setWord_phys, if_pos rfl]
  have hother : ∀ w, w ≠ d → w / 1024 ≠ f → m'.phys w = m.phys w := by
    intro w hw hwf
    rw [hm', Mem.setWord_phys, if_neg hw, Mem.taken_phys hwf]
  have hdir : ∀ e < 1024, e ≠ d → m'.phys e = m.phys e := fun e he hne =>
    hother e hne (by omega)
  have hempty : ∀ j < 1024, m'.phys (m'.entryWord d j) = 0 := by
    intro j hj
    have hw : m'.entryWord d j = f * 1024 + j := by rw [Mem.entryWord, hself, hframe]
    have hdiv : (f * 1024 + j) / 1024 = f := by omega
    rw [hw, hm', Mem.setWord_phys, if_neg (by omega)]
    exact if_pos hdiv
  have hsame : ∀ o, o.dir ≠ some d → holds union m' o = holds union m o := by
    intro o ho
    cases hod : o.dir with
    | none => exact holds_of_dir_none hod
    | some e =>
      have hne : e ≠ d := fun heq => ho (by rw [hod, heq])
      by_cases he : e < 1024
      · refine holds_congr hod (hdir e he hne) fun _ ht j hj _ => ?_
        have hge := h.entryWord_ge he ht j
        refine hother _ (by omega) ?_
        rw [entryWord_frame hj]
        exact h.table_ne_free he ht h0
      · rw [holds_beyond hod he, holds_beyond hod he]
  have hupd : holds union m' = Function.update (holds union m) (.dirEntry d) (some f) := by
    funext o
    by_cases ho : o = .dirEntry d
    · subst ho
      have ht : Table (m'.phys d) := by
        rw [hself]
        exact ⟨hpres, hlarge⟩
      rw [Function.update_self, holds_dirEntry hd ht, hself, hframe]
    · rw [Function.update_of_ne ho]
      cases o with
      | taskUnion nr => rfl
      | dirEntry e => exact hsame _ fun hc => ho (by cases hc; rfl)
      | tabEntry e j =>
        by_cases he : e = d
        · subst he
          rw [holds_tabEntry_no_table hnt]
          by_cases hj : j < 1024
          · exact holds_tabEntry_none (by rw [hempty j hj]; decide)
          · rw [holds, if_neg (fun hc => hj hc.2.1)]
        · exact hsame _ fun hc => he (by cases hc; rfl)
  refine ⟨h.enter hf h0 (holds_dirEntry_none hnt) hupd (by rw [hm']; rfl), ⟨?_, ?_⟩, ?_, hempty⟩
  · exact fun e he hne => hdir e he hne
  · exact fun o ho => hsame o fun hc => ho d hc rfl
  · rw [hself]
    exact ⟨hpres, hlarge⟩

/-- What a change of one table entry, and of frames that are no table, leaves alone. -/
theorem holds_of_entry (h : MmInv managed union m) {d j : Nat} (hd : d < 1024) (hj : j < 1024)
    (ht : Table (m.phys d)) (hdir : ∀ e < 1024, m'.phys e = m.phys e)
    (htab : ∀ e < 1024, Table (m.phys e) → ∀ k < 1024, m.entryWord e k ≠ m.entryWord d j →
      m'.phys (m.entryWord e k) = m.phys (m.entryWord e k))
    {o : Owner} (ho : o ≠ .tabEntry d j) : holds union m' o = holds union m o := by
  cases o with
  | taskUnion nr => rfl
  | dirEntry e =>
    by_cases he : e < 1024
    · exact holds_congr rfl (hdir e he) fun _ _ _ _ hc => by cases hc
    · rw [holds_beyond rfl he, holds_beyond rfl he]
  | tabEntry e k =>
    by_cases he : e < 1024
    · refine holds_congr rfl (hdir e he) fun _ hte k' hk' hc => ?_
      cases hc
      refine htab e he hte k hk' (h.entryWord_ne he hd hte ht hk' hj ?_)
      by_contra hno
      rw [not_or, not_not, not_not] at hno
      exact ho (by rw [hno.1, hno.2])
    · rw [holds_beyond rfl he, holds_beyond rfl he]

/-- A free frame, filled with a copy of some page, becomes the page of a table entry that
is not present. -/
theorem allocPage (h : MmInv managed union m) {d j f : Nat} (src : U32) (hd : d < 1024)
    (hj : j < 1024) (ht : Table (m.phys d)) (hno : m.phys (m.entryWord d j) &&& 1 = 0)
    (hf : managed f) (h0 : m.memMap (f - 256) = 0)
    (hm' : m' = ((m.taken f).copyPage src (Mem.frameAddr f)).setWord (m.entryWord d j)
      (Mem.frameAddr f ||| 7)) :
    MmInv managed union m' ∧ (∀ e < 1024, m'.phys e = m.phys e) ∧
      (∀ o, o ≠ .tabEntry d j → holds union m' o = holds union m o) ∧
      ∀ k < 1024, k ≠ j → m'.phys (m.entryWord d k) = m.phys (m.entryWord d k) := by
  obtain ⟨hlo, hhi⟩ := h.range f hf
  obtain ⟨hframe, hpres, hlarge⟩ := frameAddr_entry hhi
  have hge := h.entryWord_ge hd ht j
  have hself : m'.phys (m.entryWord d j) = Mem.frameAddr f ||| 7 := by
    rw [hm', Mem.setWord_phys, if_pos rfl]
  have hother : ∀ w, w ≠ m.entryWord d j → w / 1024 ≠ f → m'.phys w = m.phys w := by
    intro w hw hwf
    rw [hm', Mem.setWord_phys, if_neg hw, Mem.copyPage_phys _ hhi hwf, Mem.taken_phys hwf]
  have hdir : ∀ e < 1024, m'.phys e = m.phys e := fun e he =>
    hother e (by omega) (by omega)
  have htab : ∀ e < 1024, Table (m.phys e) → ∀ k < 1024, m.entryWord e k ≠ m.entryWord d j →
      m'.phys (m.entryWord e k) = m.phys (m.entryWord e k) := by
    intro e he hte k hk hne
    refine hother _ hne ?_
    rw [entryWord_frame hk]
    exact h.table_ne_free he hte h0
  have hsame : ∀ o, o ≠ .tabEntry d j → holds union m' o = holds union m o := fun o ho =>
    h.holds_of_entry hd hj ht hdir htab ho
  have hupd : holds union m' = Function.update (holds union m) (.tabEntry d j) (some f) := by
    funext o
    by_cases ho : o = .tabEntry d j
    · subst ho
      have hw := entryWord_congr (j := j) (hdir d hd)
      have ht' : Table (m'.phys d) := by rwa [hdir d hd]
      rw [Function.update_self, holds_tabEntry hd hj ht' (by rw [hw, hself]; exact hpres), hw,
        hself, hframe]
    · rw [Function.update_of_ne ho, hsame o ho]
  have hnone : holds union m (.tabEntry d j) = none :=
    holds_tabEntry_none (by rw [hno]; decide)
  refine ⟨h.enter hf h0 hnone hupd (by rw [hm']; rfl), hdir, hsame, fun k hk hkj => ?_⟩
  exact htab d hd ht k hk (h.entryWord_ne hd hd ht ht hk hj (Or.inr hkj))

/-- One turn of the inner loop of `free_page_tables`: the page of the entry, if there is
one, is given back and the entry cleared. -/
theorem freeEntry (h : MmInv managed union m) {d j : Nat} (hd : d < 1024) (h16 : d ≠ 16)
    (hj : j < 1024) (ht : Table (m.phys d)) :
    ∃ m₁, Mem.freePresent (m.phys (m.entryWord d j)) m = .ok m₁ ∧
      MmInv managed union (m₁.setWord (m.entryWord d j) 0) ∧
      (∀ e < 1024, (m₁.setWord (m.entryWord d j) 0).phys e = m.phys e) ∧
      (∀ o, o ≠ .tabEntry d j →
        holds union (m₁.setWord (m.entryWord d j) 0) o = holds union m o) ∧
      holds union (m₁.setWord (m.entryWord d j) 0) (.tabEntry d j) = none := by
  have hge := h.entryWord_ge hd ht j
  -- both branches leave the memory words alone, so the cleared entry is all that changes
  have key : ∀ m₁ : Mem, m₁.phys = m.phys →
      (∀ e < 1024, (m₁.setWord (m.entryWord d j) 0).phys e = m.phys e) ∧
      (∀ o, o ≠ .tabEntry d j →
        holds union (m₁.setWord (m.entryWord d j) 0) o = holds union m o) ∧
      holds union (m₁.setWord (m.entryWord d j) 0) (.tabEntry d j) = none := by
    intro m₁ hphys
    have hother : ∀ w, w ≠ m.entryWord d j →
        (m₁.setWord (m.entryWord d j) 0).phys w = m.phys w := by
      intro w hw
      rw [Mem.setWord_phys, if_neg hw, hphys]
    have hdir : ∀ e < 1024, (m₁.setWord (m.entryWord d j) 0).phys e = m.phys e :=
      fun e he => hother e (by omega)
    refine ⟨hdir, fun o ho => ?_, ?_⟩
    · exact h.holds_of_entry hd hj ht hdir (fun e _ _ k _ hne => hother _ hne) ho
    · refine holds_tabEntry_none ?_
      rw [entryWord_congr (hdir d hd), Mem.setWord_phys, if_pos rfl]
      decide
  by_cases hp : m.phys (m.entryWord d j) &&& 1 = 1
  · have ho : holds union m (.tabEntry d j) = _ := holds_tabEntry hd hj ht hp
    have hf : managed (frameOf (m.phys (m.entryWord d j))) := by
      rcases h.named _ _ ho with hf | ⟨k, hk⟩
      · exact hf
      · cases hk
        exact absurd rfl h16
    obtain ⟨hdir, hsame, hnone⟩ := key (m.released (frameOf (m.phys (m.entryWord d j)))) rfl
    refine ⟨_, by rw [Mem.freePresent, if_pos hp, h.freePage hf ho (pageAddr_toNat _)], ?_, hdir,
      hsame, hnone⟩
    refine h.leave hf ho (funext fun o => ?_) rfl
    by_cases heq : o = .tabEntry d j
    · rw [heq, Function.update_self, hnone]
    · rw [Function.update_of_ne heq, hsame o heq]
  · obtain ⟨hdir, hsame, hnone⟩ := key m rfl
    refine ⟨m, if_neg hp, ?_, hdir, hsame, hnone⟩
    refine h.keep (funext fun o => ?_) rfl
    by_cases heq : o = .tabEntry d j
    · rw [heq, hnone, holds_tabEntry_none hp]
    · exact hsame o heq

/-- The table of a directory entry that maps nothing is given back and the entry cleared. -/
theorem freeTable (h : MmInv managed union m) {d : Nat} (hd : d < 1024)
    (ht : Table (m.phys d)) (hnone : ∀ j < 1024, holds union m (.tabEntry d j) = none) :
    ∃ m₁, Mem.freePage (pageAddr (m.phys d)) m = .ok m₁ ∧
      MmInv managed union (m₁.setWord d 0) ∧ OnlyIn (· = d) union m (m₁.setWord d 0) ∧
      (m₁.setWord d 0).phys d = 0 := by
  have hf := h.table_managed hd ht
  have ho : holds union m (.dirEntry d) = _ := holds_dirEntry hd ht
  have hself : ((m.released (frameOf (m.phys d))).setWord d 0).phys d = 0 := by
    rw [Mem.setWord_phys, if_pos rfl]
  have hother : ∀ w, w ≠ d →
      ((m.released (frameOf (m.phys d))).setWord d 0).phys w = m.phys w := by
    intro w hw
    rw [Mem.setWord_phys, if_neg hw]
    rfl
  have hsame : ∀ o, o.dir ≠ some d →
      holds union ((m.released (frameOf (m.phys d))).setWord d 0) o = holds union m o := by
    intro o hod
    cases ho' : o.dir with
    | none => exact holds_of_dir_none ho'
    | some e =>
      have hne : e ≠ d := fun heq => hod (by rw [ho', heq])
      refine holds_congr ho' (hother e hne) fun he hte j _ _ => hother _ ?_
      have := h.entryWord_ge he hte j
      omega
  have hnt : ¬ Table (((m.released (frameOf (m.phys d))).setWord d 0).phys d) := by
    rw [hself]
    decide
  refine ⟨_, h.freePage hf ho (pageAddr_toNat _), ?_, ⟨?_, ?_⟩, hself⟩
  · refine h.leave hf ho (funext fun o => ?_) rfl
    by_cases heq : o = .dirEntry d
    · rw [heq, Function.update_self, holds_dirEntry_none hnt]
    · rw [Function.update_of_ne heq]
      cases o with
      | taskUnion nr => rfl
      | dirEntry e => exact hsame _ fun hc => heq (by cases hc; rfl)
      | tabEntry e j =>
        by_cases he : e = d
        · subst he
          rw [holds_tabEntry_no_table hnt]
          by_cases hj : j < 1024
          · rw [hnone j hj]
          · rw [holds, if_neg (fun hc => hj hc.2.1)]
        · exact hsame _ fun hc => he (by cases hc; rfl)
  · exact fun e _ hne => hother e hne
  · exact fun o hod => hsame o fun hc => hod d hc rfl

end MmInv

end Mm
end CherryOS
