import CherryOS.Mm.Windows

/-!
# The loops of `copy_page_tables` and `free_page_tables`

Each loop has one specification: it keeps the ledger, touches only the entries it visits,
and reaches no `panic`.  A copy may stop at any allocation; what it has built by then is
still a well-formed part of the window, so tearing the window down takes all of it back.
-/

namespace CherryOS
namespace Mm

open Kernel Lib

namespace MmInv

variable {managed : Nat → Prop} {union : Fin NUMBER_OF_TASKS → Option Nat} {m : Mem}

theorem freeTabEnts (h : MmInv managed union m) {d : Nat} (hd : d < 1024) (h16 : d ≠ 16)
    (ht : Table (m.phys d)) {js : List Nat} (hjs : ∀ j ∈ js, j < 1024) :
    ∃ m', Mem.freeTabEnts (pageAddr (m.phys d)) js m = .ok m' ∧ MmInv managed union m' ∧
      (∀ e < 1024, m'.phys e = m.phys e) ∧
      (∀ o, (∀ j ∈ js, o ≠ .tabEntry d j) → holds union m' o = holds union m o) ∧
      ∀ j ∈ js, holds union m' (.tabEntry d j) = none := by
  induction js generalizing m with
  | nil => exact ⟨m, rfl, h, fun _ _ => rfl, fun _ _ => rfl, by simp⟩
  | cons j js ih =>
    obtain ⟨m₁, hfree, h₂, hdir₂, hsame₂, hnone₂⟩ :=
      h.freeEntry hd h16 (hjs j List.mem_cons_self) ht
    have hd₂ := hdir₂ d hd
    obtain ⟨m', hm', h', hdir', hsame', hnone'⟩ :=
      ih h₂ (by rwa [hd₂]) fun k hk => hjs k (List.mem_cons_of_mem j hk)
    refine ⟨m', ?_, h', fun e he => (hdir' e he).trans (hdir₂ e he), fun o ho => ?_, ?_⟩
    · rw [Mem.freeTabEnts, wordAt_pageAddr, ← Mem.entryWord, hfree, ← hm', hd₂]
      rfl
    · rw [hsame' o fun k hk => ho k (List.mem_cons_of_mem j hk),
        hsame₂ o (ho j List.mem_cons_self)]
    · intro k hk
      by_cases hks : k ∈ js
      · exact hnone' k hks
      · have hkj : k = j := (List.mem_cons.mp hk).resolve_right hks
        rw [hkj, hsame' _ fun i hi hc => ?_, hnone₂]
        cases hc
        exact hks (hkj ▸ hi)

theorem freeDirEnts (h : MmInv managed union m) {dir : U32} {b : Nat}
    (hb : ∀ i, wordAt dir i = b + i) (is : List Nat)
    (his : ∀ i ∈ is, b + i < 1024 ∧ b + i ≠ 16 ∧ (m.phys (b + i) = 0 ∨ Table (m.phys (b + i)))) :
    ∃ m', Mem.freeDirEnts dir is m = .ok m' ∧ MmInv managed union m' ∧
      OnlyIn (fun d => ∃ i ∈ is, d = b + i) union m m' ∧ ∀ i ∈ is, m'.phys (b + i) = 0 := by
  induction is generalizing m with
  | nil => exact ⟨m, rfl, h, OnlyIn.refl, by simp⟩
  | cons i is ih =>
    obtain ⟨hi, h16, hword⟩ := his i List.mem_cons_self
    -- the rest of the loop, from any memory whose entries are those of `m` or cleared
    have rest : ∀ m₂ : Mem, MmInv managed union m₂ → OnlyIn (· = b + i) union m m₂ →
        m₂.phys (b + i) = 0 → ∃ m', Mem.freeDirEnts dir is m₂ = .ok m' ∧
          MmInv managed union m' ∧ OnlyIn (fun d => ∃ k ∈ i :: is, d = b + k) union m m' ∧
          ∀ k ∈ i :: is, m'.phys (b + k) = 0 := by
      intro m₂ h₂ hon₂ hzero₂
      obtain ⟨m', hm', h', hon', hzero'⟩ := ih h₂ fun k hk => by
        obtain ⟨hk1, hk2, hkw⟩ := his k (List.mem_cons_of_mem i hk)
        refine ⟨hk1, hk2, ?_⟩
        by_cases hki : b + k = b + i
        · rw [hki]
          exact Or.inl hzero₂
        · rwa [hon₂.dir _ hk1 hki]
      refine ⟨m', hm', h', ?_, fun k hk => ?_⟩
      · refine (hon₂.mono ?_).trans (hon'.mono ?_)
        · exact fun e he => ⟨i, List.mem_cons_self, he⟩
        · exact fun e ⟨k, hk, he⟩ => ⟨k, List.mem_cons_of_mem i hk, he⟩
      · by_cases hks : k ∈ is
        · exact hzero' k hks
        · have hki : k = i := (List.mem_cons.mp hk).resolve_right hks
          subst hki
          rw [hon'.dir _ hi, hzero₂]
          rintro ⟨k', hk', heq⟩
          have : k = k' := by omega
          exact hks (this ▸ hk')
    rw [Mem.freeDirEnts, hb]
    rcases hword with hword | ht
    · rw [hword, if_pos (by decide)]
      exact rest m h OnlyIn.refl hword
    · have hpres : ¬ m.phys (b + i) &&& 1 = 0 := by
        rw [ht.1]
        decide
      obtain ⟨m₁, hm₁, h₁, hdir₁, hsame₁, hnone₁⟩ :=
        h.freeTabEnts hi h16 ht fun j hj => mem_tabIndices.mp hj
      have hd₁ := hdir₁ (b + i) hi
      obtain ⟨m₂, hm₂, h₂, hon₂, hzero₂⟩ := h₁.freeTable hi (by rwa [hd₁])
        fun j hj => hnone₁ j (mem_tabIndices.mpr hj)
      have hon : OnlyIn (· = b + i) union m (m₂.setWord (b + i) 0) := by
        refine OnlyIn.trans ⟨fun e he _ => hdir₁ e he, fun o ho => hsame₁ o ?_⟩ hon₂
        intro j _ hc
        exact ho (b + i) (by rw [hc]; rfl) rfl
      obtain ⟨m', hm', hspec⟩ := rest _ h₂ hon hzero₂
      refine ⟨m', ?_, hspec⟩
      rw [if_neg hpres, hm₁]
      show (Mem.freePage (pageAddr (m₁.phys (b + i))) m₁).bind
        (fun m => Mem.freeDirEnts dir is (m.setWord (b + i) 0)) = _
      rw [hm₂]
      exact hm'

theorem copyTabEnts (h : MmInv managed union m) (fromTab : U32) {toTab : U32} {d : Nat}
    (hd : d < 1024)
    (ht : Table (m.phys d)) (hw : ∀ j, wordAt toTab j = m.entryWord d j) {js : List Nat}
    (hnd : js.Nodup) (hjs : ∀ j ∈ js, j < 1024 ∧ m.phys (m.entryWord d j) &&& 1 = 0) :
    ∃ m' ret, Mem.copyTabEnts fromTab toTab js m = (m', ret) ∧ MmInv managed union m' ∧
      (∀ e < 1024, m'.phys e = m.phys e) ∧
      ∀ o : Owner, o.dir ≠ some d → holds union m' o = holds union m o := by
  induction js generalizing m with
  | nil => exact ⟨m, 0, rfl, h, fun _ _ => rfl, fun _ _ => rfl⟩
  | cons j js ih =>
    obtain ⟨hj, hno⟩ := hjs j List.mem_cons_self
    obtain ⟨hnotin, hnd'⟩ := List.nodup_cons.mp hnd
    have hjs' : ∀ k ∈ js, k < 1024 ∧ m.phys (m.entryWord d k) &&& 1 = 0 := fun k hk =>
      hjs k (List.mem_cons_of_mem j hk)
    rw [Mem.copyTabEnts]
    by_cases hp : m.phys (wordAt fromTab j) &&& 1 = 1
    · rw [if_pos hp, hw]
      rcases h.getFreePage with hnone | ⟨f, hf, hhi, h0, hsome⟩
      · rw [hnone]
        exact ⟨m, -ENOMEM, rfl, h, fun _ _ => rfl, fun _ _ => rfl⟩
      · rw [hsome]
        obtain ⟨h₂, hdir₂, hsame₂, htab₂⟩ :=
          h.allocPage (pageAddr (m.phys (wordAt fromTab j))) hd hj ht hno hf h0 rfl
        have hd₂ := hdir₂ d hd
        obtain ⟨m', ret, hm', h', hdir', hsame'⟩ := ih h₂ (by rwa [hd₂])
          (fun k => (hw k).trans (entryWord_congr hd₂).symm) hnd' (fun k hk => by
            obtain ⟨hk1, hkno⟩ := hjs' k hk
            refine ⟨hk1, ?_⟩
            rwa [entryWord_congr hd₂, htab₂ k hk1 fun heq => hnotin (heq ▸ hk)])
        refine ⟨m', ret, hm', h', fun e he => (hdir' e he).trans (hdir₂ e he), fun o ho => ?_⟩
        rw [hsame' o ho, hsame₂ o fun hc => ho (by rw [hc]; rfl)]
    · rw [if_neg hp]
      exact ih h ht hw hnd' hjs'

/-- One turn of the copy fills a new table, as far as there are frames. -/
theorem copyDirEnt (h : MmInv managed union m) {d f : Nat} (hd : d < 1024) (hzero : m.phys d = 0)
    (hf : managed f) (hhi : f < 4096) (h0 : m.memMap (f - 256) = 0) (fromTab : U32) :
    ∃ m' ret, Mem.copyTabEnts fromTab (Mem.frameAddr f) tabIndices
        ((m.taken f).setWord d (Mem.frameAddr f ||| 7)) = (m', ret) ∧ MmInv managed union m' ∧
      OnlyIn (· = d) union m m' ∧ Table (m'.phys d) := by
  obtain ⟨h₁, hon₁, ht₁, hempty₁⟩ := h.allocTable hd (by rw [hzero]; decide) hf h0 rfl
  have hentry : ((m.taken f).setWord d (Mem.frameAddr f ||| 7)).phys d =
      Mem.frameAddr f ||| 7 := by rw [Mem.setWord_phys, if_pos rfl]
  have hword : ∀ j, wordAt (Mem.frameAddr f) j =
      ((m.taken f).setWord d (Mem.frameAddr f ||| 7)).entryWord d j := by
    intro j
    rw [wordAt, Mem.frameAddr_toNat hhi, Mem.entryWord, hentry, (frameAddr_entry hhi).1]
    omega
  obtain ⟨m', ret, hm', h', hdir, hsame⟩ := h₁.copyTabEnts fromTab hd ht₁ hword nodup_tabIndices
    fun j hj => ⟨mem_tabIndices.mp hj, by rw [hempty₁ j (mem_tabIndices.mp hj)]; decide⟩
  refine ⟨m', ret, hm', h', hon₁.trans ⟨fun e he _ => hdir e he, fun o ho => hsame o ?_⟩,
    by rwa [hdir _ hd]⟩
  exact fun hc => ho d hc rfl

/-- A copy into an empty part of the directory never panics.  It ends with the whole part
present, or stops early with each entry of the part either a table or still empty. -/
theorem copyDirEnts (h : MmInv managed union m) {fromDir toDir : U32} {a b : Nat}
    (ha : ∀ i, wordAt fromDir i = a + i) (hb : ∀ i, wordAt toDir i = b + i) {is : List Nat}
    (hnd : is.Nodup) (his : ∀ i ∈ is, b + i < 1024 ∧ m.phys (b + i) = 0)
    (hsrc : ∀ i ∈ is, a + i < 1024 ∧ m.phys (a + i) &&& 1 ≠ 0 ∧ ∀ k ∈ is, a + i ≠ b + k) :
    ∃ m' ret, Mem.copyDirEnts fromDir toDir is m = .ok (m', ret) ∧ MmInv managed union m' ∧
      OnlyIn (fun d => ∃ i ∈ is, d = b + i) union m m' ∧
      (∀ i ∈ is, m'.phys (b + i) = 0 ∨ Table (m'.phys (b + i))) ∧
      (ret = 0 → ∀ i ∈ is, Table (m'.phys (b + i))) := by
  induction is generalizing m with
  | nil => exact ⟨m, 0, rfl, h, OnlyIn.refl, by simp, by simp⟩
  | cons i is ih =>
    obtain ⟨hi, hzero⟩ := his i List.mem_cons_self
    obtain ⟨hai, hpres, _⟩ := hsrc i List.mem_cons_self
    obtain ⟨hnotin, hnd'⟩ := List.nodup_cons.mp hnd
    have hto : ¬ (m.phys (wordAt toDir i) &&& 1 ≠ 0) := by
      rw [hb, hzero]
      decide
    have hfrom : ¬ m.phys (wordAt fromDir i) &&& 1 = 0 := by rwa [ha]
    have hsub : ∀ d, d = b + i → ∃ k ∈ i :: is, d = b + k :=
      fun d hd => ⟨i, List.mem_cons_self, hd⟩
    rw [Mem.copyDirEnts, if_neg hto, if_neg hfrom]
    rcases h.getFreePage with hnone | ⟨f, hf, hhi, h0, hsome⟩
    · rw [hnone]
      refine ⟨m, -ENOMEM, rfl, h, OnlyIn.refl, fun k hk => Or.inl (his k hk).2, ?_⟩
      intro hc
      exact absurd hc (by decide)
    · obtain ⟨m₂, ret, hm₂, h₂, hon₂, ht₂⟩ :=
        h.copyDirEnt hi hzero hf hhi h0 (pageAddr (m.phys (wordAt fromDir i)))
      have hrest : ∀ k ∈ is, m₂.phys (b + k) = 0 := by
        intro k hk
        obtain ⟨hk1, hk0⟩ := his k (List.mem_cons_of_mem i hk)
        rw [hon₂.dir _ hk1 ?_, hk0]
        intro heq
        have : k = i := by omega
        exact hnotin (this ▸ hk)
      rw [hsome]
      simp only [hb, hm₂]
      by_cases hret : ret = 0
      · obtain ⟨m', ret', hm', h', hon', hpart', hall'⟩ := ih h₂ hnd'
          (fun k hk => ⟨(his k (List.mem_cons_of_mem i hk)).1, hrest k hk⟩) fun k hk => by
            obtain ⟨hak, hpk, hne⟩ := hsrc k (List.mem_cons_of_mem i hk)
            refine ⟨hak, ?_, fun l hl => hne l (List.mem_cons_of_mem i hl)⟩
            rwa [hon₂.dir _ hak (hne i List.mem_cons_self)]
        have hkeep : m'.phys (b + i) = m₂.phys (b + i) := by
          refine hon'.dir _ hi ?_
          rintro ⟨k, hk, heq⟩
          have : i = k := by omega
          exact hnotin (this ▸ hk)
        rw [if_neg (not_not.mpr hret)]
        refine ⟨m', ret', hm', h', (hon₂.mono hsub).trans (hon'.mono ?_), ?_, ?_⟩
        · rintro d ⟨k, hk, hd⟩
          exact ⟨k, List.mem_cons_of_mem i hk, hd⟩
        · intro k hk
          rcases List.mem_cons.mp hk with rfl | hk
          · rw [hkeep]
            exact Or.inr ht₂
          · exact hpart' k hk
        · intro hr k hk
          rcases List.mem_cons.mp hk with rfl | hk
          · rwa [hkeep]
          · exact hall' hr k hk
      · rw [if_pos hret]
        refine ⟨m₂, ret, rfl, h₂, hon₂.mono hsub, fun k hk => ?_, fun hr => absurd hr hret⟩
        rcases List.mem_cons.mp hk with rfl | hk
        · exact Or.inr ht₂
        · exact Or.inl (hrest k hk)

/-! ## Windows -/

theorem wordAt_window {nr : Nat} (hnr : nr < 64) (k : Nat) :
    wordAt ((windowBase nr >>> 22) * 4) k = 16 * nr + k := by
  have hbase : (windowBase nr).toNat = nr * 2 ^ 26 := by
    rw [windowBase, BitVec.toNat_mul, BitVec.toNat_ofNat]
    show nr % 2 ^ 32 * 67108864 % 2 ^ 32 = _
    omega
  have hshift : (windowBase nr >>> 22).toNat = 16 * nr := by
    rw [BitVec.toNat_ushiftRight, hbase, Nat.shiftRight_eq_div_pow]
    omega
  have hmul : ((windowBase nr >>> 22) * 4).toNat = 64 * nr := by
    rw [BitVec.toNat_mul, hshift]
    show 16 * nr * 4 % 2 ^ 32 = _
    omega
  rw [wordAt, hmul]
  omega

theorem windowBase_aligned {nr : Nat} (hnr : nr < 64) : windowBase nr &&& 0x3FFFFF = 0 := by
  interval_cases nr <;> decide

theorem windowBase_ne_zero {nr : Nat} (hnr : nr < 64) (h0 : nr ≠ 0) : windowBase nr ≠ 0 := by
  interval_cases nr
  · exact absurd rfl h0
  all_goals decide

theorem freeWindow (h : MmInv managed union m) {nr n : Nat} {size : U32} (hnr : nr < 64)
    (h2 : 2 ≤ nr) (hn : n ≤ 16) (hsize : Mem.nrOfDirEnt size = n)
    (hent : ∀ k < n, m.phys (16 * nr + k) = 0 ∨ Table (m.phys (16 * nr + k))) :
    ∃ m', Mem.freePageTables (windowBase nr) size m = .ok m' ∧ MmInv managed union m' ∧
      OnlyIn (InWindow nr n) union m m' ∧ ∀ k < n, m'.phys (16 * nr + k) = 0 := by
  obtain ⟨m', hm', h', hon, hzero⟩ := h.freeDirEnts (wordAt_window hnr)
    (List.range n) fun k hk => by
      have hk' := List.mem_range.mp hk
      exact ⟨by omega, by omega, hent k hk'⟩
  refine ⟨m', ?_, h', hon.mono ?_, fun k hk => hzero k (List.mem_range.mpr hk)⟩
  · rw [Mem.freePageTables, if_neg (not_not.mpr (windowBase_aligned hnr)),
      if_neg (windowBase_ne_zero hnr (by omega)), hsize, hm']
  · exact fun d ⟨k, hk, hd⟩ => ⟨k, List.mem_range.mp hk, hd⟩

theorem copyWindow (h : MmInv managed union m) {i nr n : Nat} {size : U32} (hi : i < 64)
    (hnr : nr < 64) (hne : i ≠ nr) (hn : n ≤ 16) (hsize : Mem.nrOfDirEnt size = n)
    (hsrc : ∀ k < n, m.phys (16 * i + k) &&& 1 ≠ 0) (hdst : ∀ k < n, m.phys (16 * nr + k) = 0) :
    ∃ m' ret, Mem.copyPageTables (windowBase i) (windowBase nr) size m = .ok (m', ret) ∧
      MmInv managed union m' ∧ OnlyIn (InWindow nr n) union m m' ∧
      (∀ k < n, m'.phys (16 * nr + k) = 0 ∨ Table (m'.phys (16 * nr + k))) ∧
      (ret = 0 → ∀ k < n, Table (m'.phys (16 * nr + k))) := by
  obtain ⟨m', ret, hm', h', hon, hpart, hall⟩ := h.copyDirEnts (wordAt_window hi)
    (wordAt_window hnr) (List.nodup_range (n := n))
    (fun k hk => by
      have hk' := List.mem_range.mp hk
      exact ⟨by omega, hdst k hk'⟩)
    (fun k hk => by
      have hk' := List.mem_range.mp hk
      refine ⟨by omega, hsrc k hk', fun l hl => ?_⟩
      have hl' := List.mem_range.mp hl
      omega)
  refine ⟨m', ret, ?_, h', hon.mono ?_, fun k hk => hpart k (List.mem_range.mpr hk),
    fun hr k hk => hall hr k (List.mem_range.mpr hk)⟩
  · rw [Mem.copyPageTables, if_neg, hsize, hm']
    rw [windowBase_aligned hi, windowBase_aligned hnr]
    simp
  · exact fun d ⟨k, hk, hd⟩ => ⟨k, List.mem_range.mp hk, hd⟩

/-- A frame that the same owners hold in two states of the allocator has the same use count. -/
theorem memMap_eq_at {union' : Fin NUMBER_OF_TASKS → Option Nat} {m' : Mem}
    (h : MmInv managed union m) (h' : MmInv managed union' m') {i : Nat} (hi : i < 3840)
    (hh : ∀ o, holds union' m' o = some (i + 256) ↔ holds union m o = some (i + 256)) :
    m'.memMap i = m.memMap i := by
  by_cases hf : managed (i + 256)
  · have := h.balanced.count_eq h'.balanced hf hh
    rw [Mem.count, Mem.count, Nat.add_sub_cancel] at this
    exact BitVec.eq_of_toNat_eq this
  · rw [h.outside i hi hf, h'.outside i hi hf]

/-- Two states of the allocator in which everybody holds the same have the same
`mem_map`. -/
theorem memMap_eq {union' : Fin NUMBER_OF_TASKS → Option Nat} {m' : Mem}
    (h : MmInv managed union m) (h' : MmInv managed union' m')
    (hh : ∀ o, holds union' m' o = holds union m o) {i : Nat} (hi : i < 3840) :
    m'.memMap i = m.memMap i :=
  h.memMap_eq_at h' hi fun o => by rw [hh]

/-- When a window is empty before and after and nothing else has changed, every holding is
what it was. -/
theorem holds_eq_of_empty {nr n : Nat} {m' : Mem}
    (hon : OnlyIn (InWindow nr n) union m m') (h0 : ∀ k < n, m.phys (16 * nr + k) = 0)
    (h0' : ∀ k < n, m'.phys (16 * nr + k) = 0) :
    (∀ d < 1024, m'.phys d = m.phys d) ∧ ∀ o, holds union m' o = holds union m o := by
  constructor
  · intro d hd
    by_cases hw : InWindow nr n d
    · obtain ⟨k, hk, rfl⟩ := hw
      rw [h0 k hk, h0' k hk]
    · exact hon.dir d hd hw
  · intro o
    by_cases hw : ∃ d, o.dir = some d ∧ InWindow nr n d
    · obtain ⟨d, ho, k, hk, rfl⟩ := hw
      have hnt : ∀ e : U32, e = 0 → ¬ Table e := by
        intro e he
        rw [he]
        decide
      cases o with
      | taskUnion _ => rfl
      | dirEntry e =>
        cases ho
        rw [holds_dirEntry_none (hnt _ (h0 k hk)), holds_dirEntry_none (hnt _ (h0' k hk))]
      | tabEntry e j =>
        cases ho
        rw [holds_tabEntry_no_table (hnt _ (h0 k hk)), holds_tabEntry_no_table (hnt _ (h0' k hk))]
    · exact hon.holds o fun d hd hD => hw ⟨d, hd, hD⟩

/-! ## The page table of task 1 -/

theorem foldl_setWord (m : Mem) (b n : Nat) (v : Nat → U32) (addr : U32)
    (hb : ∀ i, wordAt addr i = b + i) :
    ((List.range n).foldl (fun m i => m.setWord (wordAt addr i) (v i)) m).memMap = m.memMap ∧
      ∀ w, ((List.range n).foldl (fun m i => m.setWord (wordAt addr i) (v i)) m).phys w =
        if b ≤ w ∧ w < b + n then v (w - b) else m.phys w := by
  induction n with
  | zero =>
    refine ⟨rfl, fun w => ?_⟩
    rw [if_neg (by omega)]
    rfl
  | succ n ih =>
    rw [List.range_succ, List.foldl_append, List.foldl_cons, List.foldl_nil, hb]
    refine ⟨ih.1, fun w => ?_⟩
    rw [Mem.setWord_phys, ih.2]
    by_cases hw : w = b + n
    · rw [if_pos hw, if_pos (by omega), hw, Nat.add_sub_cancel_left]
    · rw [if_neg hw]
      by_cases hin : b ≤ w ∧ w < b + n
      · rw [if_pos hin, if_pos (by omega)]
      · rw [if_neg hin, if_neg (by omega)]

/-- Frames below 1 MB are nobody's, so filling an empty table of task 1 with them takes no
frame. -/
theorem fillTable (h : MmInv managed union m) {m' : Mem} {f : Nat} (hlo : 256 ≤ f)
    (ht : Table (m.phys 16)) (hframe : frameOf (m.phys 16) = f)
    (hempty : ∀ j < 1024, m.phys (m.entryWord 16 j) = 0) (hmap : m'.memMap = m.memMap)
    (hphys : ∀ w, m'.phys w = if f * 1024 ≤ w ∧ w < f * 1024 + 256 then
      BitVec.ofNat 32 ((w - f * 1024) * 0x1000) ||| 7 else m.phys w) :
    MmInv managed union m' ∧ OnlyIn (InWindow 1 1) union m m' := by
  have hdir : ∀ d < 1024, m'.phys d = m.phys d := by
    intro d hd
    rw [hphys, if_neg (by omega)]
  have hsame : ∀ o, (∀ j < 256, o ≠ .tabEntry 16 j) → holds union m' o = holds union m o := by
    intro o ho
    cases hod : o.dir with
    | none => exact holds_of_dir_none hod
    | some d =>
      by_cases hd : d < 1024
      · refine holds_congr hod (hdir d hd) fun _ htd j hj hoj => ?_
        have hout : ¬ (f * 1024 ≤ m.entryWord d j ∧ m.entryWord d j < f * 1024 + 256) := by
          intro hin
          have hd16 : d = 16 := by
            refine h.table_inj hd (by omega) htd ht ?_
            rw [hframe, ← entryWord_frame hj]
            omega
          subst hd16
          have hw : m.entryWord 16 j = f * 1024 + j := by rw [Mem.entryWord, hframe]
          exact ho j (by omega) hoj
        rw [hphys, if_neg hout]
      · rw [holds_beyond hod hd, holds_beyond hod hd]
  have hlow : ∀ j < 256, holds union m (.tabEntry 16 j) = none ∧
      ∀ g, holds union m' (.tabEntry 16 j) = some g → g < 256 := by
    intro j hj
    refine ⟨holds_tabEntry_none (by rw [hempty j (by omega)]; decide), fun g hg => ?_⟩
    have hw : m'.entryWord 16 j = f * 1024 + j := by
      rw [entryWord_congr (hdir 16 (by omega)), Mem.entryWord, hframe]
    have hval : m'.phys (m'.entryWord 16 j) = Mem.frameAddr j ||| 7 := by
      rw [hw, hphys, if_pos (by omega), Nat.add_sub_cancel_left]
      rfl
    rw [holds] at hg
    split at hg
    · cases hg
      rw [hval, (frameAddr_entry (by omega)).1]
      exact hj
    · cases hg
  have hiff : ∀ r o, managed r → (holds union m' o = some r ↔ holds union m o = some r) := by
    intro r o hr
    by_cases ho : ∃ j < 256, o = .tabEntry 16 j
    · obtain ⟨j, hj, rfl⟩ := ho
      obtain ⟨hnone, hlt⟩ := hlow j hj
      have hge := (h.range r hr).1
      refine ⟨fun hc => ?_, fun hc => ?_⟩
      · exact absurd (hlt r hc) (by omega)
      · rw [hnone] at hc
        cases hc
    · rw [hsame o fun j hj hc => ho ⟨j, hj, hc⟩]
  refine ⟨⟨h.range, by rw [hmap]; exact h.outside, ?_, fun o g hg => ?_⟩,
    fun e he _ => hdir e he, fun o ho => hsame o fun j _ hc => ?_⟩
  · refine h.balanced.congr hiff fun r _ => ?_
    rw [Mem.count, Mem.count, hmap]
  · by_cases ho : ∃ j < 256, o = .tabEntry 16 j
    · obtain ⟨j, _, rfl⟩ := ho
      exact Or.inr ⟨j, rfl⟩
    · rw [hsame o fun j hj hc => ho ⟨j, hj, hc⟩] at hg
      exact h.named o g hg
  · exact ho 16 (by rw [hc]; rfl) ⟨0, by omega, by omega⟩

/-- The table of task 1 maps the first megabyte, so the one frame it takes is its own. -/
theorem initTask1Paging (h : MmInv managed union m) (h0 : m.phys 16 = 0) :
    (m.getFreePage = none ∧
        Mem.initTask1Paging m = .error (.panic "init task1 failed\n")) ∨
      ∃ m', Mem.initTask1Paging m = .ok m' ∧ MmInv managed union m' ∧
        OnlyIn (InWindow 1 1) union m m' ∧ Table (m'.phys 16) := by
  rcases h.getFreePage with hnone | ⟨f, hf, hhi, hfree, hsome⟩
  · left
    exact ⟨hnone, by rw [Mem.initTask1Paging, hnone]⟩
  · right
    obtain ⟨hlo, _⟩ := h.range f hf
    have hword : ∀ i, wordAt (Mem.frameAddr f) i = f * 1024 + i := by
      intro i
      rw [wordAt, Mem.frameAddr_toNat hhi]
      omega
    obtain ⟨hmap, hphys⟩ := foldl_setWord (m.taken f) (f * 1024) (1024 / 4)
      (fun i => BitVec.ofNat 32 (i * 0x1000) ||| 7) (Mem.frameAddr f) hword
    -- `m₁` is the same memory with the table still empty
    obtain ⟨m₁, hm₁⟩ : ∃ m₁, m₁ = (m.taken f).setWord 16 (Mem.frameAddr f ||| 7) := ⟨_, rfl⟩
    obtain ⟨h₁, hon₁, ht₁, hempty₁⟩ := h.allocTable (by omega) (by rw [h0]; decide) hf hfree hm₁
    have hentry : m₁.phys 16 = Mem.frameAddr f ||| 7 := by
      rw [hm₁, Mem.setWord_phys, if_pos rfl]
    have hframe : frameOf (m₁.phys 16) = f := by rw [hentry, (frameAddr_entry hhi).1]
    have hmem : ∃ m', Mem.initTask1Paging m = .ok m' ∧ m'.memMap = m₁.memMap ∧
        ∀ w, m'.phys w = if f * 1024 ≤ w ∧ w < f * 1024 + 256 then
          BitVec.ofNat 32 ((w - f * 1024) * 0x1000) ||| 7 else m₁.phys w := by
      refine ⟨_, by rw [Mem.initTask1Paging, hsome], ?_, fun w => ?_⟩
      · rw [Mem.setWord_memMap, hm₁, Mem.setWord_memMap, hmap]
      · rw [Mem.setWord_phys, hm₁, Mem.setWord_phys, hphys]
        by_cases hw : w = 16
        · rw [if_pos hw, if_pos hw, if_neg (by omega)]
        · rw [if_neg hw, if_neg hw]
    obtain ⟨m', hm', hmap', hphys'⟩ := hmem
    obtain ⟨h', hon'⟩ := h₁.fillTable hlo ht₁ hframe hempty₁ hmap' hphys'
    have hin : ∀ d, d = 16 → InWindow 1 1 d := fun d hd => ⟨0, by omega, by omega⟩
    refine ⟨m', hm', h', (hon₁.mono hin).trans hon', ?_⟩
    rwa [hphys', if_neg (by omega)]

/-! ## The union of a task -/

/-- A free frame becomes the `task_union` of a slot. -/
theorem takeUnion (h : MmInv managed union m) {nr : Fin NUMBER_OF_TASKS} {f : Nat}
    (hno : union nr = none) (hf : managed f) (h0 : m.memMap (f - 256) = 0) :
    MmInv managed (Function.update union nr (some f)) (m.taken f) ∧
      (∀ d < 1024, (m.taken f).phys d = m.phys d) ∧
      ∀ o, o ≠ .taskUnion nr →
        holds (Function.update union nr (some f)) (m.taken f) o = holds union m o := by
  obtain ⟨hlo, hhi⟩ := h.range f hf
  have hdir : ∀ d < 1024, (m.taken f).phys d = m.phys d := fun d hd =>
    Mem.taken_phys (by omega)
  have hsame : ∀ o, o ≠ .taskUnion nr →
      holds (Function.update union nr (some f)) (m.taken f) o = holds union m o := by
    intro o ho
    cases hod : o.dir with
    | none =>
      cases o with
      | taskUnion nr' =>
        rw [holds_taskUnion, holds_taskUnion, Function.update_of_ne fun hc => ho (by rw [hc])]
      | dirEntry d => cases hod
      | tabEntry d j => cases hod
    | some d =>
      by_cases hd : d < 1024
      · refine holds_congr hod (hdir d hd) fun _ ht j hj _ => Mem.taken_phys ?_
        rw [entryWord_frame hj]
        exact h.table_ne_free hd ht h0
      · rw [holds_beyond hod hd, holds_beyond hod hd]
  refine ⟨h.enter hf h0 (o := .taskUnion nr) hno (funext fun o => ?_) rfl, hdir, hsame⟩
  by_cases ho : o = .taskUnion nr
  · rw [ho, Function.update_self, holds_taskUnion, Function.update_self]
  · rw [Function.update_of_ne ho, hsame o ho]

/-- The `task_union` of a slot is given back. -/
theorem freeUnion (h : MmInv managed union m) {nr : Fin NUMBER_OF_TASKS} {f : Nat}
    (hu : union nr = some f) {addr : U32} (ha : addr.toNat = f * 4096) :
    ∃ m', Mem.freePage addr m = .ok m' ∧ m'.phys = m.phys ∧
      MmInv managed (Function.update union nr none) m' ∧
      ∀ o, o ≠ .taskUnion nr →
        holds (Function.update union nr none) m' o = holds union m o := by
  have ho : holds union m (.taskUnion nr) = some f := hu
  have hf : managed f := by
    rcases h.named _ _ ho with hf | ⟨j, hj⟩
    · exact hf
    · cases hj
  have hsame : ∀ o, o ≠ .taskUnion nr →
      holds (Function.update union nr none) (m.released f) o = holds union m o := by
    intro o ho
    cases o with
    | taskUnion nr' =>
      rw [holds_taskUnion, holds_taskUnion, Function.update_of_ne fun hc => ho (by rw [hc])]
    | dirEntry d => rfl
    | tabEntry d j => rfl
  refine ⟨m.released f, h.freePage hf ho ha, rfl, ?_, hsame⟩
  refine h.leave hf ho (funext fun o => ?_) rfl
  by_cases heq : o = .taskUnion nr
  · rw [heq, Function.update_self, holds_taskUnion, Function.update_self]
  · rw [Function.update_of_ne heq, hsame o heq]

end MmInv

end Mm
end CherryOS
