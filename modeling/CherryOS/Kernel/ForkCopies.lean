import CherryOS.Kernel.ManyTasks
import CherryOS.Mm.DeepCopy
import CherryOS.Mm.Translate

/-!
# Does fork copy memory?

A child gets a copy of each page its parent maps through a page table.  Task 0 has no page
tables: its window is four 4 MB pages, and `copy_page_tables` takes what lies at their start
for tables.  Task 1 maps the page directory, which changes between the call and the copy of
that page.  So the children of the other tasks are copies, and theirs are not.
-/

namespace CherryOS
namespace Kernel

open Mm Lib

/-- For each offset up to the segment limit that the parent has mapped, the child in slot
`nr` has a byte that equals the parent's at the call. -/
def Copies (s s' : State) (nr : Fin NUMBER_OF_TASKS) : Prop :=
  ∀ off, off ≤ s.dataLimit → ∀ a, s.mem.translate (s.dataBase + off) = some a →
    ∃ a', s'.mem.translate (windowBase nr + off) = some a' ∧ s'.mem.byteAt a' = s.mem.byteAt a

/-- What a fork that gives a task the slot `nr` has done to memory. -/
theorem ForkMemory.copy_of_new {s s' : State} (h : ForkMemory s s') {nr : Fin NUMBER_OF_TASKS}
    (hold : s.tasksPtr nr = none) (hnew : s'.tasksPtr nr ≠ none) (h1 : nr ≠ 1) :
    ∃ page m, s.findEmptySlot = some nr ∧ s.mem.getFreePage = some (page, m) ∧
      m.copyPageTables s.dataBase (windowBase nr) s.dataLimit = .ok (s'.mem, 0) := by
  cases h with
  | refused _ _ hptr =>
    rw [hptr] at hnew
    exact absurd hold hnew
  | init page m _ _ _ hptr =>
    rw [hptr, Function.update_of_ne h1] at hnew
    exact absurd hold hnew
  | copied nr' page m hslot _ hpage hmem hptr =>
    by_cases hnr : nr = nr'
    · rw [hnr]
      exact ⟨page, m, hslot, hpage, hmem⟩
    · rw [hptr, Function.update_of_ne hnr] at hnew
      exact absurd hold hnew
  | dropped _ _ _ _ _ _ _ _ _ _ _ _ hptr =>
    rw [hptr] at hnew
    exact absurd hold hnew

theorem Parent.limit_lt {s : State} {i : Fin NUMBER_OF_TASKS} {n : Nat} (h : Parent s i n)
    {off : U32} (hoff : off ≤ s.dataLimit) : off.toNat < n * 2 ^ 22 ∧ off.toNat < 2 ^ 26 := by
  have hle := BitVec.le_def.mp hoff
  rw [h.limit] at hle
  rcases h.size with rfl | rfl
  · have h1 : (if (1 : Nat) = 4 then 0xFFFFFF else 0xFFFFF : U32).toNat = 1048575 := rfl
    omega
  · have h4 : (if (4 : Nat) = 4 then 0xFFFFFF else 0xFFFFF : U32).toNat = 16777215 := rfl
    omega

/-! ## Parents with page tables of their own -/

/-- The frames of a parent's tables and pages are in use, and none is that of the page
directory. -/
structure ParentFrames (s : State) (i : Fin NUMBER_OF_TASKS) (n : Nat) : Prop where
  table : ∀ k < n, 1 ≤ frameOf (s.mem.phys (16 * i.val + k)) ∧
    s.mem.InUse (frameOf (s.mem.phys (16 * i.val + k)))
  page : ∀ k < n, ∀ j < 1024, s.mem.phys (s.mem.entryWord (16 * i.val + k) j) &&& 1 = 1 →
    1 ≤ frameOf (s.mem.phys (s.mem.entryWord (16 * i.val + k) j)) ∧
      s.mem.InUse (frameOf (s.mem.phys (s.mem.entryWord (16 * i.val + k) j)))

theorem KInv.parentFrames {managed : Nat → Prop} {s : State} (h : KInv managed s)
    {i : Fin NUMBER_OF_TASKS} {n : Nat} (hp : Parent s i n) (h2 : 2 ≤ i.val) : ParentFrames s i n := by
  have hi64 : i.val < 64 := i.isLt
  have hn : n ≤ 4 := by rcases hp.size with rfl | rfl <;> omega
  have hi0 : i ≠ 0 := by
    rintro rfl
    exact absurd h2 (by decide)
  have hframe : ∀ {o g}, holds s.unionFrame s.mem o = some g → (∀ j, o ≠ .tabEntry 16 j) →
      1 ≤ g ∧ s.mem.InUse g := by
    intro o g ho hno
    rcases h.mm.named o g ho with hm | ⟨j, hj⟩
    · have hge := (h.mm.range g hm).1
      exact ⟨by omega, Mem.inUse_of_one (h.mm.memMap_of_holds hm ho)⟩
    · exact absurd hj (hno j)
  refine ⟨fun k hk => ?_, fun k hk j hj hpj => ?_⟩
  · exact hframe (holds_dirEntry (by omega) ((hp.present k hk).2 hi0)) fun j hj => by cases hj
  · refine hframe (holds_tabEntry (by omega) hj ((hp.present k hk).2 hi0) hpj) fun j' hj' => ?_
    have := (Owner.tabEntry.inj hj').1
    omega

theorem ParentFrames.inUse {s : State} {i : Fin NUMBER_OF_TASKS} {n : Nat}
    (h : ParentFrames s i n) : WindowInUse s i n :=
  ⟨h.table, fun k hk j hj hpj => (h.page k hk j hj hpj).2⟩

theorem copies_of_two_le {managed : Nat → Prop} {s s' : State} (h : KInv managed s)
    {i nr : Fin NUMBER_OF_TASKS} (hi : s.tasksPtr i = some s.current)
    (hlive : (s.task s.current).state ≠ .zombie) (hmem : ForkMemory s s')
    (hold : s.tasksPtr nr = none) (hnew : s'.tasksPtr nr ≠ none) (hnr2 : 2 ≤ nr.val)
    (h2 : 2 ≤ i.val) : Copies s s' nr := by
  have hi64 : i.val < 64 := i.isLt
  have hnr64 : nr.val < 64 := nr.isLt
  have hne : i ≠ nr := by
    rintro rfl
    rw [hi] at hold
    cases hold
  have h1 : nr ≠ 1 := by
    rintro rfl
    exact absurd hnr2 (by decide)
  have hi0 : i ≠ 0 := by
    rintro rfl
    exact absurd h2 (by decide)
  obtain ⟨n, hp⟩ := h.parent hi hlive
  have hn : n ≤ 4 := by rcases hp.size with rfl | rfl <;> omega
  have hframes := h.parentFrames hp h2
  obtain ⟨page, m, -, hpage, hcopy⟩ := hmem.copy_of_new hold hnew h1
  obtain ⟨f, hlo, hhi, h0, _, rfl⟩ := Mem.getFreePage_some hpage
  have hcopy := Mem.copyDirEnts_of_copyPageTables hcopy
  rw [hp.entries, hp.base] at hcopy
  have hready := hframes.inUse.ready hn hne hlo hhi h0
  have hcopies := Mem.copyDirEnts_copies (· < 1024) hready hcopy hready.target
  intro off hoff a ha
  obtain ⟨hoffn, hoff26⟩ := hp.limit_lt hoff
  obtain ⟨k, j, x, ho⟩ : ∃ k j x, Offset off k j x := ⟨_, _, _, Offset.of_lt hoff26⟩
  have hk : k < n := by
    have := ho.sum
    omega
  rw [hp.base, ho.translate_table hi64 ((hp.present k hk).2 hi0)] at ha
  split at ha
  · rename_i hpj
    cases ha
    have hentry := hframes.inUse.taken_entry hi64 hn hlo hhi h0 hk ho.tab
    obtain ⟨t, g, ht, hg, hdirent, htabent, hcopied⟩ :=
      hcopies.exists_copy (fun _ h => h) (List.mem_range.mpr hk) ho.tab (hentry ▸ hpj)
        (hentry ▸ (hframes.page k hk j ho.tab hpj).1)
    rw [hentry] at hcopied
    rw [MmInv.wordAt_window hnr64] at hdirent
    obtain ⟨hframet, hprest, hlarget⟩ := frameAddr_entry ht
    obtain ⟨hframeg, hpresg, _⟩ := frameAddr_entry hg
    have hchild : s'.mem.phys (s'.mem.entryWord (16 * nr.val + k) j) = Mem.frameAddr g ||| 7 := by
      rw [Mem.entryWord, hdirent, hframet]
      exact htabent
    refine ⟨_, by rw [ho.translate_table hnr64 (by rw [hdirent]; exact ⟨hprest, hlarget⟩),
      hchild, if_pos hpresg], ?_⟩
    rw [ho.byteAt hnr64, ho.byteAt hi64, hframeg]
    have hx := ho.byte
    have huse := (hframes.page k hk j ho.tab hpj).2
    rw [hcopied (x / 4) (by omega), Mem.taken_phys]
    rw [Mem.frame_div (by omega)]
    exact huse.ne_free hlo hhi h0
  · cases ha

/-! ## Task 0 -/

/-- In the window of any slot but the first, what is present is a table. -/
theorem KInv.table_of_present {managed : Nat → Prop} {s : State} (h : KInv managed s)
    {nr : Fin NUMBER_OF_TASKS} (hnr : nr ≠ 0) {k : Nat} (hk : k < 16)
    (hp : s.mem.phys (16 * nr.val + k) &&& 1 ≠ 0) : Table (s.mem.phys (16 * nr.val + k)) := by
  have hno : s.mem.phys (16 * nr.val + k) ≠ 0 := by
    intro h0
    rw [h0] at hp
    exact absurd hp (by decide)
  by_cases hdead : ∀ p, s.tasksPtr nr = some p → (s.task p).state = .zombie
  · exact absurd (h.empty nr hnr hdead k hk) hno
  · simp only [not_forall] at hdead
    obtain ⟨p, hsome, hlive⟩ := hdead
    obtain ⟨_, n, _, _, _, hpres, hzero⟩ := h.live nr p hsome hlive
    by_cases hkn : k < n
    · exact (hpres k hkn).2 fun hc => hnr (Fin.ext hc)
    · exact absurd (hzero k (by omega) hk) hno

/-- A window that had a page in each of its first 4096 places would take more frames than
there are. -/
theorem KInv.not_all_held {managed : Nat → Prop} {s : State} (h : KInv managed s) {d : Nat}
    (hd : 17 ≤ d) : ¬ ∀ c < 4096, ∃ g, holds s.unionFrame s.mem
      (.tabEntry (d + c / 1024) (c % 1024)) = some g := by
  intro hholds
  choose! g hg using hholds
  have hmanaged : ∀ c < 4096, managed (g c) := by
    intro c hc4
    rcases h.mm.named _ _ (hg c hc4) with hm | ⟨j, hj⟩
    · exact hm
    · have := (Owner.tabEntry.inj hj).1
      omega
  have hcard : (Finset.range 4096).card ≤ (Finset.Ico 256 4096).card := by
    refine Finset.card_le_card_of_injOn g (fun c hc4 => ?_) fun c hc4 d hd4 heq => ?_
    · have hr := h.mm.range _ (hmanaged c (Finset.mem_range.mp hc4))
      exact Finset.mem_coe.mpr (Finset.mem_Ico.mpr hr)
    · have hc4 := Finset.mem_range.mp hc4
      have hd4 := Finset.mem_range.mp hd4
      have hd := hg d hd4
      rw [← heq] at hd
      have howner := h.mm.balanced.alone _ _ _ (hmanaged c hc4) (hg c hc4) hd
      obtain ⟨hdir, htab⟩ := Owner.tabEntry.inj howner
      omega
  rw [Finset.card_range, Nat.card_Ico] at hcard
  omega

/-- A copy of 16 MB would take more frames than there are. -/
theorem not_copies_kernel {managed : Nat → Prop} {s s' : State} (h : KInv managed s)
    (h' : KInv managed s') (hfirst : FirstWindows s) {nr : Fin NUMBER_OF_TASKS}
    (hi : s.tasksPtr 0 = some s.current) (hlive : (s.task s.current).state ≠ .zombie)
    (hnr2 : 2 ≤ nr.val) : ¬ Copies s s' nr := by
  intro hc
  have hnr64 : nr.val < 64 := nr.isLt
  have hnr0 : nr ≠ 0 := by
    rintro rfl
    exact absurd hnr2 (by decide)
  obtain ⟨n, hp⟩ := h.parent hi hlive
  have hzero : (0 : Fin NUMBER_OF_TASKS).val = 0 := rfl
  have hn : n = 4 := by
    rcases hp.size with rfl | rfl
    · have := hp.rest 1 (by omega) (by omega)
      rw [hzero, show 16 * 0 + 1 = 1 from rfl, hfirst.kernel 1 (by omega)] at this
      exact absurd this (by decide)
    · rfl
  -- each of the 4096 pages of the child has a frame
  refine h'.not_all_held (show 17 ≤ 16 * nr.val by omega) fun c hc4 => ?_
  obtain ⟨off, hoff⟩ : ∃ off : U32, off = BitVec.ofNat 32 (c * 4096) := ⟨_, rfl⟩
  have hsum : off.toNat = c * 4096 := by
    rw [hoff, BitVec.toNat_ofNat]
    omega
  have ho : Offset off (c / 1024) (c % 1024) 0 :=
    ⟨by omega, by omega, by omega, by rw [hsum]; omega⟩
  have hle : off ≤ s.dataLimit := by
    rw [hp.limit, if_pos hn, BitVec.le_def, hsum]
    show c * 4096 ≤ 16777215
    omega
  have hpde : s.mem.phys (16 * (0 : Fin NUMBER_OF_TASKS).val + c / 1024) =
      Mem.bootDir (c / 1024) := by
    rw [hzero, Nat.mul_zero, Nat.zero_add]
    exact hfirst.kernel _ (by omega)
  have hboot : Mem.bootDir (c / 1024) &&& 1 ≠ 0 ∧ Mem.bootDir (c / 1024) &&& 0x80 ≠ 0 := by
    have hlt : c / 1024 < 4 := by omega
    interval_cases c / 1024 <;> decide
  have hmapped : ∃ a, s.mem.translate (s.dataBase + off) = some a := by
    rw [hp.base, ho.translate (by decide), hpde, if_neg hboot.1, if_pos hboot.2]
    exact ⟨_, rfl⟩
  obtain ⟨a, ha⟩ := hmapped
  obtain ⟨a', ha', _⟩ := hc off hle a ha
  have hpres : s'.mem.phys (16 * nr.val + c / 1024) &&& 1 ≠ 0 := by
    intro h0
    rw [ho.translate hnr64, if_pos h0] at ha'
    cases ha'
  have ht := h'.table_of_present hnr0 (k := c / 1024) (by omega) hpres
  rw [ho.translate_table hnr64 ht] at ha'
  split at ha'
  · rename_i hpte
    exact ⟨_, holds_tabEntry (by omega) (by omega) ht hpte⟩
  · cases ha'

/-! ## Task 1 -/

/-- The table of task 1 is a frame in use, and its first entry maps the page directory. -/
theorem KInv.init_page {managed : Nat → Prop} {s : State} (h : KInv managed s)
    (hfirst : FirstWindows s) (hinit : s.tasksPtr 1 ≠ none) (htable : Table (s.mem.phys 16)) :
    s.mem.InUse (frameOf (s.mem.phys 16)) ∧ 256 ≤ frameOf (s.mem.phys 16) ∧
      s.mem.phys (s.mem.entryWord 16 0) &&& 1 = 1 ∧
      frameOf (s.mem.phys (s.mem.entryWord 16 0)) = 0 := by
  have hmf : managed (frameOf (s.mem.phys 16)) := h.mm.table_managed (by omega) htable
  refine ⟨Mem.inUse_of_one (h.mm.memMap_of_holds hmf (holds_dirEntry (by omega) htable)),
    (h.mm.range _ hmf).1, ?_⟩
  have hheld := hfirst.init hinit
  rw [holds] at hheld
  split at hheld
  · rename_i hall
    exact ⟨hall.2.2.2, Option.some.inj hheld⟩
  · cases hheld

/-- The child of task 1 gets a frame `t` for its first table and a frame `g` for its first
page.  The directory entry for `t` is there when the directory is copied to `g`. -/
theorem init_page_copied {managed : Nat → Prop} {s s' : State} (h : KInv managed s)
    (hfirst : FirstWindows s) {nr : Fin NUMBER_OF_TASKS} {n : Nat} (hp : Parent s 1 n)
    (hinit : s.tasksPtr 1 ≠ none) (hmem : ForkMemory s s') (hold : s.tasksPtr nr = none)
    (hnew : s'.tasksPtr nr ≠ none) (hnr2 : 2 ≤ nr.val) :
    ∃ t g, t < 4096 ∧ g < 4096 ∧ s'.mem.phys (16 * nr.val) = Mem.frameAddr t ||| 7 ∧
      s'.mem.phys (t * 1024) = Mem.frameAddr g ||| 7 ∧
      s'.mem.phys (g * 1024 + 16 * nr.val) = Mem.frameAddr t ||| 7 := by
  have hnr64 : nr.val < 64 := nr.isLt
  have h1 : nr ≠ 1 := by
    rintro rfl
    exact absurd hnr2 (by decide)
  obtain ⟨page, m, -, hpage, hcopy⟩ := hmem.copy_of_new hold hnew h1
  obtain ⟨f, hlo, hhi, h0, _, rfl⟩ := Mem.getFreePage_some hpage
  have hcopy := Mem.copyDirEnts_of_copyPageTables hcopy
  obtain ⟨k, hn⟩ : ∃ k, n = k + 1 := ⟨n - 1, by rcases hp.size with rfl | rfl <;> rfl⟩
  rw [hp.entries, hp.base, hn, List.range_succ_eq_map] at hcopy
  have hsrc : wordAt ((windowBase (1 : Fin NUMBER_OF_TASKS) >>> 22) * 4) 0 = 16 :=
    MmInv.wordAt_window (by decide) 0
  have hdst : wordAt ((windowBase nr >>> 22) * 4) 0 = 16 * nr.val := MmInv.wordAt_window hnr64 0
  obtain ⟨htuse, htab1, hpte, hframe⟩ :=
    h.init_page hfirst hinit ((hp.present 0 (by omega)).2 (by decide))
  have hdir16 : (s.mem.taken f).phys 16 = s.mem.phys 16 :=
    Mem.taken_phys ((Mem.inUse_low s.mem (show 16 / 1024 < 256 by decide)).ne_free hlo hhi h0)
  rcases Mem.copyDirEnts_cons hcopy with
    ⟨_, _, hne⟩ | ⟨t, htlo, hthi, ht0, ⟨_, _, hne⟩ | ⟨hret, hrest⟩⟩
  · exact absurd rfl hne
  · exact absurd rfl hne
  rw [hsrc, hdst, hdir16] at hret hrest
  obtain ⟨m₁, hm₁⟩ : ∃ m₁, m₁ = (s.mem.taken f).tabled t (16 * nr.val) := ⟨_, rfl⟩
  rw [← hm₁] at hret hrest
  obtain ⟨e, he⟩ : ∃ e, e = s.mem.phys 16 := ⟨_, rfl⟩
  rw [← he] at hret hrest htuse htab1
  have hsame : ∀ x, s.mem.InUse (x / 1024) → x ≠ 16 * nr.val → m₁.phys x = s.mem.phys x := by
    intro x hx hne
    rw [hm₁, Mem.tabled_phys hne ((hx.taken f).ne_free htlo hthi ht0),
      Mem.taken_phys (hx.ne_free hlo hhi h0)]
  have hword : s.mem.entryWord 16 0 = wordAt (pageAddr e) 0 := by
    rw [wordAt_pageAddr, Mem.entryWord, he]
  have hfirstEnt : m₁.phys (wordAt (pageAddr e) 0) = s.mem.phys (s.mem.entryWord 16 0) := by
    rw [hword]
    refine hsame _ ?_ ?_
    · rwa [Mem.wordAt_div e (by decide)]
    · rw [wordAt_pageAddr]
      omega
  have hcons : tabIndices = 0 :: (List.range 1023).map Nat.succ := by
    unfold tabIndices
    exact List.range_succ_eq_map
  rw [hcons] at hret hrest
  rcases Mem.copyTabEnts_cons (pageAddr e) (Mem.frameAddr t) 0 ((List.range 1023).map Nat.succ) m₁
    with ⟨hno, _⟩ | ⟨_, _, heq⟩ | ⟨g, _, hglo, hghi, hg0, heq⟩
  · rw [hfirstEnt] at hno
    exact absurd hpte hno
  · rw [heq] at hret
    exact absurd hret (show (-ENOMEM : Int32) ≠ 0 by decide)
  rw [heq, hfirstEnt] at hrest
  obtain ⟨m₂, hm₂⟩ : ∃ m₂, m₂ = m₁.paged g (pageAddr (s.mem.phys (s.mem.entryWord 16 0)))
    (wordAt (Mem.frameAddr t) 0) := ⟨_, rfl⟩
  rw [← hm₂] at hrest
  obtain ⟨huse₂, hfroz₂⟩ := Mem.copyTabEnts_frozen (pageAddr e)
    (Mem.frameAddr t) ((List.range 1023).map Nat.succ) m₂
  obtain ⟨_, hfroz₃⟩ := Mem.copyDirEnts_frozen hrest
  -- what the rest of the copy leaves alone
  have hlast : ∀ x, m₂.InUse (x / 1024) → (∀ l < 4, x ≠ 16 * nr.val + (l + 1)) →
      (∀ l < 1023, x ≠ t * 1024 + (l + 1)) → s'.mem.phys x = m₂.phys x := by
    intro x hx hd ht
    have hk : k ≤ 3 := by rcases hp.size with h1 | h4 <;> omega
    rw [hfroz₃ x (huse₂ _ hx) fun l hl => ?_, hfroz₂ x hx fun l hl => ?_]
    · obtain ⟨l', hl', rfl⟩ := List.mem_map.mp hl
      rw [Mem.wordAt_frame hthi]
      exact ht l' (List.mem_range.mp hl')
    · obtain ⟨l', hl', rfl⟩ := List.mem_map.mp hl
      have := List.mem_range.mp hl'
      rw [MmInv.wordAt_window hnr64]
      exact hd l' (by omega)
  have ht1 : m₁.InUse t := by
    rw [hm₁]
    exact Mem.tabled_inUse _ _ _
  have hgt : t ≠ g := ht1.ne_free hglo hghi hg0
  have ht0word : wordAt (Mem.frameAddr t) 0 = t * 1024 := by
    rw [Mem.wordAt_frame hthi, Nat.add_zero]
  have hentry : m₁.phys (16 * nr.val) = Mem.frameAddr t ||| 7 := by
    rw [hm₁, Mem.tabled_entry]
  refine ⟨t, g, hthi, hghi, ?_, ?_, ?_⟩
  · rw [hlast _ (Mem.inUse_low m₂ (by omega)) (fun l _ => by omega) (fun l _ => by omega), hm₂,
      Mem.paged_phys hghi (by rw [ht0word]; omega) (by omega), hentry]
  · have ht2 : m₂.InUse (t * 1024 / 1024) := by
      rw [Nat.mul_div_cancel _ (by decide), hm₂]
      exact ht1.paged g _ _
    rw [hlast _ ht2 (fun l _ => by omega) (fun l _ => by omega), hm₂, ← ht0word, Mem.paged_entry]
  · have hx : 16 * nr.val < 1024 := by omega
    have hsrc0 : wordAt (pageAddr (s.mem.phys (s.mem.entryWord 16 0))) (16 * nr.val) =
        16 * nr.val := by
      rw [wordAt_pageAddr, hframe, Nat.zero_mul, Nat.zero_add]
    have hg2 : m₂.InUse ((g * 1024 + 16 * nr.val) / 1024) := by
      rw [Mem.frame_div hx, hm₂]
      exact Mem.paged_inUse _ _ _ _
    rw [hlast _ hg2 (fun l _ => by omega) (fun l _ => by omega), hm₂,
      Mem.paged_copy hghi (by rw [ht0word]; omega) hx (by rw [hsrc0]; omega), hsrc0, hentry]

/-- The first page of task 1 is the page directory, which has a new entry when it is copied. -/
theorem not_copies_init {managed : Nat → Prop} {s s' : State} (h : KInv managed s)
    (hfirst : FirstWindows s) {nr : Fin NUMBER_OF_TASKS} (hi : s.tasksPtr 1 = some s.current)
    (hlive : (s.task s.current).state ≠ .zombie) (hmem : ForkMemory s s')
    (hold : s.tasksPtr nr = none) (hnew : s'.tasksPtr nr ≠ none) (hnr2 : 2 ≤ nr.val) :
    ¬ Copies s s' nr := by
  intro hc
  have hnr64 : nr.val < 64 := nr.isLt
  have hnr0 : nr ≠ 0 := by
    rintro rfl
    exact absurd hnr2 (by decide)
  have hinit : s.tasksPtr 1 ≠ none := by
    rw [hi]
    exact Option.some_ne_none _
  obtain ⟨n, hp⟩ := h.parent hi hlive
  have hn : 0 < n := by rcases hp.size with rfl | rfl <;> decide
  have htable : Table (s.mem.phys 16) := (hp.present 0 hn).2 (by decide)
  obtain ⟨_, _, hpte, hframe⟩ := h.init_page hfirst hinit htable
  obtain ⟨t, g, hthi, hghi, hdirent, htabent, hcopied⟩ :=
    init_page_copied h hfirst hp hinit hmem hold hnew hnr2
  obtain ⟨hframet, hprest, hlarget⟩ := frameAddr_entry hthi
  obtain ⟨hframeg, hpresg, _⟩ := frameAddr_entry hghi
  -- the byte of the page directory that tells the two apart
  obtain ⟨off, hoff⟩ : ∃ off : U32, off = BitVec.ofNat 32 (64 * nr.val) := ⟨_, rfl⟩
  have hsum : off.toNat = 64 * nr.val := by
    rw [hoff, BitVec.toNat_ofNat]
    omega
  have ho : Offset off 0 0 (64 * nr.val) :=
    ⟨by decide, by decide, by omega, by rw [hsum]; omega⟩
  have hle : off ≤ s.dataLimit := by
    rw [hp.limit, BitVec.le_def, hsum]
    have : (0xFFFFF : U32).toNat = 1048575 := rfl
    have : (0xFFFFFF : U32).toNat = 16777215 := rfl
    split <;> omega
  have hparent : s.mem.translate (s.dataBase + off) = some (pageAddr (s.mem.phys
      (s.mem.entryWord 16 0)) + ((windowBase (1 : Fin NUMBER_OF_TASKS) + off) &&& 0xFFF)) := by
    rw [hp.base, ho.translate_table (by decide) htable]
    exact if_pos hpte
  obtain ⟨a', ha', hbyte⟩ := hc off hle _ hparent
  have hword' : s'.mem.entryWord (16 * nr.val + 0) 0 = t * 1024 := by
    rw [Nat.add_zero, Mem.entryWord, hdirent, hframet, Nat.add_zero]
  rw [ho.translate_table hnr64 (by rw [Nat.add_zero, hdirent]; exact ⟨hprest, hlarget⟩), hword',
    htabent, if_pos hpresg] at ha'
  cases ha'
  have hquarter : 64 * nr.val / 4 = 16 * nr.val := by omega
  have hmod : 64 * nr.val % 4 = 0 := by omega
  have hempty : s.mem.phys (16 * nr.val) = 0 :=
    h.empty nr hnr0 (fun p hp => by rw [hold] at hp; cases hp) 0 (by decide)
  rw [ho.byteAt hnr64, ho.byteAt (by decide), hframeg, hframe, hquarter, hmod, hcopied,
    Nat.zero_mul, Nat.zero_add, hempty] at hbyte
  have hbit := congrArg (fun v : BitVec 8 => v.getLsbD 0) hbyte
  have hset : (Mem.frameAddr t ||| 7).getLsbD 0 = true := by simp
  simp [leByte] at hbit

/-! ## The condition -/

/-- Over any run of forks and exits, a fork that gives a child a slot from 2 on copies the
memory of the parent, in the sense of `Copies`, if and only if the parent is neither task 0
nor task 1. -/
theorem fork_copies_iff {b : Boot} {ls : List Label} {s : State}
    (h : Run (Steps State.next) b.state ls s) {i nr : Fin NUMBER_OF_TASKS} {regs : ForkRegs}
    {t s' : State} {ret : Int32} (ht : s.onCpu i = some t)
    (hok : t.copyProcess regs = .ok (s', ret)) (hold : t.tasksPtr nr = none)
    (hnew : s'.tasksPtr nr ≠ none) (hnr : 2 ≤ nr.val) : Copies t s' nr ↔ 2 ≤ i.val := by
  obtain ⟨hs, hfirst⟩ := b.firstWindows_of_run h
  have hnext : s.next (.fork i regs) = some s' := by
    rw [State.next, ht, Option.bind_some, hok]
    rfl
  have hs' := hs.step hnext
  obtain ⟨p, hp, hz, rfl⟩ := State.onCpu_spec ht
  have hinv := hs.inv.withCurrent p
  have hf := hfirst.withCurrent p
  have hmem := State.copyProcess_memory hok
  refine ⟨fun hc => ?_, copies_of_two_le hinv hp hz hmem hold hnew hnr⟩
  by_contra hlt
  by_cases hi0 : i = 0
  · rw [hi0] at hp
    exact not_copies_kernel hinv hs'.inv hf hp hz hnr hc
  · have hi1 : i = 1 := by
      have : i.val ≠ 0 := fun hc => hi0 (Fin.ext hc)
      exact Fin.ext (show i.val = 1 by omega)
    rw [hi1] at hp
    exact not_copies_init hinv hf hp hz hmem hold hnew hnr hc

/-- Task 0 forks, and then task 1 forks into slot 2. -/
theorem run_fork_of_task_one : ∃ s t s' ret,
    Run (Steps State.next) scheduledBoot.state [.fork 0 zeroRegs] s ∧ s.onCpu 1 = some t ∧
      t.copyProcess zeroRegs = .ok (s', ret) ∧ t.tasksPtr 2 = none ∧ s'.tasksPtr 2 ≠ none := by
  obtain ⟨s, hs, hstage⟩ := stage_two
  obtain ⟨s', hs', hgrown⟩ := hstage.fork (by decide) (by decide)
  rw [schedInit_bootOf16MB] at hs
  obtain ⟨t, ht, hres⟩ := Option.bind_eq_some_iff.mp hs'
  obtain ⟨ret, hok⟩ := State.result_eq_some hres
  obtain ⟨p, _, _, rfl⟩ := State.onCpu_spec ht
  obtain ⟨q, hq, _⟩ := hgrown.child 2 rfl
  exact ⟨s, _, s', ret, Run.single hs, ht, hok, hstage.vacant 2 (by decide),
    by rw [hq]; exact fun hc => by cases hc⟩

theorem fork_copies_iff_task_one : ∃ s t s' ret,
    Run (Steps State.next) scheduledBoot.state [.fork 0 zeroRegs] s ∧ s.onCpu 1 = some t ∧
      t.copyProcess zeroRegs = .ok (s', ret) ∧
      (Copies t s' 2 ↔ 2 ≤ (1 : Fin NUMBER_OF_TASKS).val) := by
  obtain ⟨s, t, s', ret, hrun, ht, hok, hold, hnew⟩ := run_fork_of_task_one
  exact ⟨s, t, s', ret, hrun, ht, hok, fork_copies_iff hrun ht hok hold hnew (by decide)⟩

/-- The child of task 1 in slot 2 is no copy: it has the page directory as it was during the
copy. -/
theorem task_one_not_copied : ∃ s t s' ret,
    Run (Steps State.next) scheduledBoot.state [.fork 0 zeroRegs] s ∧ s.onCpu 1 = some t ∧
      t.copyProcess zeroRegs = .ok (s', ret) ∧ t.tasksPtr 2 = none ∧ s'.tasksPtr 2 ≠ none ∧
      ¬ Copies t s' 2 := by
  obtain ⟨s, t, s', ret, hrun, ht, hok, hold, hnew⟩ := run_fork_of_task_one
  refine ⟨s, t, s', ret, hrun, ht, hok, hold, hnew, ?_⟩
  obtain ⟨hs, hfirst⟩ := scheduledBoot.firstWindows_of_run hrun
  obtain ⟨p, hp, hz, rfl⟩ := State.onCpu_spec ht
  exact not_copies_init (hs.inv.withCurrent p) (hfirst.withCurrent p) hp hz
    (State.copyProcess_memory hok) hold hnew (by decide)

end Kernel
end CherryOS
