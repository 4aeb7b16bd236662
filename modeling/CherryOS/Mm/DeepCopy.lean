import CherryOS.Mm.Copying

/-!
# Deep copies

When `copy_page_tables` succeeds each page of the source has a copy of its own, in a frame
that was free, and no frame serves two entries.  A window may map the page directory, as that
of task 1 does: the copy of that page is taken while the entries of the new window are
written into it.
-/

namespace CherryOS
namespace Mm

open Kernel

namespace Mem

variable {m m' : Mem} {f g : Nat} {js : List Nat}

/-! ## One table -/

/-- The frame `f` is a copy of the frame `g` as it is in `m`. -/
def IsCopy (m m' : Mem) (g f : Nat) : Prop :=
  ∀ x < 1024, m'.phys (f * 1024 + x) = m.phys (g * 1024 + x)

/-- The frame has been handed out. -/
structure Fresh (m m' : Mem) (f : Nat) : Prop where
  low : 256 ≤ f
  high : f < 4096
  free : m.memMap (f - 256) = 0
  used : m'.InUse f

/-- What is free once a frame has been taken is another frame that was free before. -/
theorem free_of_taken {m₁ : Mem} (hmap : m₁.memMap = (m.taken g).memMap)
    (h : m₁.memMap (f - 256) = 0) : m.memMap (f - 256) = 0 := by
  rw [hmap, taken_memMap] at h
  by_cases hfg : f - 256 = g - 256
  · rw [hfg, Function.update_self] at h
    exact absurd h (by decide)
  · rwa [Function.update_of_ne hfg] at h

theorem Fresh.of_taken {m₁ : Mem} (h : Fresh m₁ m' f) (hmap : m₁.memMap = (m.taken g).memMap) :
    Fresh m m' f := ⟨h.low, h.high, free_of_taken hmap h.free, h.used⟩

/-- A frame in use is none that is handed out later. -/
theorem Fresh.ne {m₁ : Mem} (h : Fresh m₁ m' f) (hg : m₁.InUse g) : g ≠ f :=
  hg.ne_free h.low h.high h.free

theorem frameAddr_entry_inj (hf : f < 4096) (hg : g < 4096)
    (h : frameAddr f ||| 7 = frameAddr g ||| 7) : f = g := by
  rw [← (frameAddr_entry hf).1, h, (frameAddr_entry hg).1]

/-- What the inner loop relies on: the tables and the pages are in use and do not overlap. -/
structure TabReady (m : Mem) (fromTab toTab : U32) (js : List Nat) : Prop where
  nodup : js.Nodup
  target : ∀ j ∈ js, m.InUse (wordAt toTab j / 1024)
  source : ∀ j ∈ js, m.InUse (wordAt fromTab j / 1024) ∧
    ∀ k ∈ js, wordAt fromTab j ≠ wordAt toTab k
  page : ∀ j ∈ js, m.phys (wordAt fromTab j) &&& 1 = 1 →
    m.InUse (frameOf (m.phys (wordAt fromTab j))) ∧
      ∀ k ∈ js, wordAt toTab k / 1024 ≠ frameOf (m.phys (wordAt fromTab j))

/-- The pages of a table have been copied to frames that were free, one for each. -/
structure TabCopied (m m' : Mem) (fromTab toTab : U32) (js : List Nat) : Prop where
  page : ∀ j ∈ js, m.phys (wordAt fromTab j) &&& 1 = 1 → ∃ f, Fresh m m' f ∧
    m'.phys (wordAt toTab j) = frameAddr f ||| 7 ∧
      IsCopy m m' (frameOf (m.phys (wordAt fromTab j))) f
  absent : ∀ j ∈ js, m.phys (wordAt fromTab j) &&& 1 ≠ 1 →
    m'.phys (wordAt toTab j) = m.phys (wordAt toTab j)
  inj : ∀ j ∈ js, ∀ k ∈ js, m.phys (wordAt fromTab j) &&& 1 = 1 →
    m.phys (wordAt fromTab k) &&& 1 = 1 →
      m'.phys (wordAt toTab j) = m'.phys (wordAt toTab k) → j = k

section
variable {fromTab toTab : U32} {j : Nat}

theorem TabReady.tail (h : TabReady m fromTab toTab (j :: js)) : TabReady m fromTab toTab js := by
  have htail : ∀ {k}, k ∈ js → k ∈ j :: js := fun hk => List.mem_cons_of_mem j hk
  refine ⟨(List.nodup_cons.mp h.nodup).2, fun k hk => h.target k (htail hk), fun k hk => ?_,
    fun k hk hp => ?_⟩
  · exact ⟨(h.source k (htail hk)).1, fun l hl => (h.source k (htail hk)).2 l (htail hl)⟩
  · exact ⟨(h.page k (htail hk) hp).1, fun l hl => (h.page k (htail hk) hp).2 l (htail hl)⟩

/-- A word that is in use, but for the entry filled in, is as it was. -/
theorem paged_keep {src : U32} {w x : Nat} (hlo : 256 ≤ f) (hhi : f < 4096)
    (h0 : m.memMap (f - 256) = 0) (hx : m.InUse (x / 1024)) (hne : x ≠ w) :
    (m.paged f src w).phys x = m.phys x :=
  paged_phys hhi hne (hx.ne_free hlo hhi h0)

theorem TabReady.paged (h : TabReady m fromTab toTab (j :: js)) (hlo : 256 ≤ f) (hhi : f < 4096)
    (h0 : m.memMap (f - 256) = 0) (src : U32) :
    (∀ k ∈ js, (m.paged f src (wordAt toTab j)).phys (wordAt fromTab k) = m.phys (wordAt fromTab k)) ∧
      TabReady (m.paged f src (wordAt toTab j)) fromTab toTab js := by
  have hent : ∀ k ∈ js, (m.paged f src (wordAt toTab j)).phys (wordAt fromTab k) =
      m.phys (wordAt fromTab k) := fun k hk =>
    paged_keep hlo hhi h0 (h.tail.source k hk).1
      ((h.source k (List.mem_cons_of_mem j hk)).2 j List.mem_cons_self)
  refine ⟨hent, h.tail.nodup, fun k hk => (h.tail.target k hk).paged f _ _, fun k hk => ?_,
    fun k hk hp => ?_⟩
  · exact ⟨(h.tail.source k hk).1.paged f _ _, (h.tail.source k hk).2⟩
  · rw [hent k hk] at hp ⊢
    exact ⟨(h.tail.page k hk hp).1.paged f _ _, (h.tail.page k hk hp).2⟩

/-- Different entries of the table lie at different words. -/
theorem TabReady.head_ne (h : TabReady m fromTab toTab (j :: js)) {k : Nat} (hk : k ∈ js) :
    wordAt toTab j ≠ wordAt toTab k := by
  intro hc
  rw [wordAt, wordAt] at hc
  rw [show j = k by omega] at h
  exact (List.nodup_cons.mp h.nodup).1 hk

theorem TabCopied.cons_absent (h : TabReady m fromTab toTab (j :: js))
    (hno : m.phys (wordAt fromTab j) &&& 1 ≠ 1)
    (hrest : TabCopied m (copyTabEnts fromTab toTab js m).1 fromTab toTab js) :
    TabCopied m (copyTabEnts fromTab toTab js m).1 fromTab toTab (j :: js) := by
  refine ⟨fun k hk hp => ?_, fun k hk hp => ?_, fun k hk l hl hp hp' heq => ?_⟩
  · rcases List.mem_cons.mp hk with rfl | hk
    · exact absurd hp hno
    · exact hrest.page k hk hp
  · rcases List.mem_cons.mp hk with rfl | hk
    · exact (copyTabEnts_frozen fromTab toTab js m).2 _ (h.target k List.mem_cons_self)
        fun l hl => h.head_ne hl
    · exact hrest.absent k hk hp
  · rcases List.mem_cons.mp hk with rfl | hk
    · exact absurd hp hno
    · rcases List.mem_cons.mp hl with rfl | hl
      · exact absurd hp' hno
      · exact hrest.inj k hk l hl hp hp' heq

theorem TabCopied.cons_paged (h : TabReady m fromTab toTab (j :: js)) (hlo : 256 ≤ f)
    (hhi : f < 4096) (h0 : m.memMap (f - 256) = 0) (hp : m.phys (wordAt fromTab j) &&& 1 = 1)
    {m₁ : Mem} (hm₁ : m₁ = m.paged f (pageAddr (m.phys (wordAt fromTab j))) (wordAt toTab j))
    (hrest : TabCopied m₁ (copyTabEnts fromTab toTab js m₁).1 fromTab toTab js) :
    TabCopied m (copyTabEnts fromTab toTab js m₁).1 fromTab toTab (j :: js) := by
  obtain ⟨husef, hfroz⟩ := copyTabEnts_frozen fromTab toTab js m₁
  have htail : ∀ {k}, k ∈ js → k ∈ j :: js := fun hk => List.mem_cons_of_mem j hk
  have hent : ∀ k ∈ js, m₁.phys (wordAt fromTab k) = m.phys (wordAt fromTab k) := by
    rw [hm₁]
    exact (h.paged hlo hhi h0 _).1
  have hkeep : ∀ x, m.InUse (x / 1024) → x ≠ wordAt toTab j → m₁.phys x = m.phys x := by
    rw [hm₁]
    exact fun x hx hne => paged_keep hlo hhi h0 hx hne
  have hmap : m₁.memMap = (m.taken f).memMap := by rw [hm₁, paged_memMap]
  have hf₁ : m₁.InUse f := by
    rw [hm₁]
    exact paged_inUse m f _ _
  have hto : m₁.InUse (wordAt toTab j / 1024) := by
    rw [hm₁]
    exact (h.target j List.mem_cons_self).paged f _ _
  -- the entry of this turn
  have hhead : (copyTabEnts fromTab toTab js m₁).1.phys (wordAt toTab j) = frameAddr f ||| 7 := by
    rw [hfroz _ hto fun l hl => h.head_ne hl, hm₁, paged_entry]
  have hcopy : IsCopy m (copyTabEnts fromTab toTab js m₁).1
      (frameOf (m.phys (wordAt fromTab j))) f := by
    intro x hx
    have hdiv : (f * 1024 + x) / 1024 = f := frame_div hx
    have hsrcf : wordAt (pageAddr (m.phys (wordAt fromTab j))) x / 1024 ≠ f := by
      rw [wordAt_div _ hx]
      exact (h.page j List.mem_cons_self hp).1.ne_free hlo hhi h0
    rw [hfroz _ (by rwa [hdiv]) fun l hl hc => ?_, hm₁,
      paged_copy hhi ((h.target j List.mem_cons_self).ne_free hlo hhi h0) hx hsrcf, wordAt_pageAddr]
    exact (h.target l (htail hl)).ne_free hlo hhi h0 (by rw [← hc, hdiv])
  have hother : ∀ k ∈ js, m.phys (wordAt fromTab k) &&& 1 = 1 →
      (copyTabEnts fromTab toTab js m₁).1.phys (wordAt toTab k) ≠ frameAddr f ||| 7 := by
    intro k hk hpk heq
    rw [← hent k hk] at hpk
    obtain ⟨g, hg, hgent, -⟩ := hrest.page k hk hpk
    exact hg.ne hf₁ (frameAddr_entry_inj hhi hg.high (heq.symm.trans hgent))
  refine ⟨fun k hk hpk => ?_, fun k hk hpk => ?_, fun k hk l hl hpk hpl heq => ?_⟩
  · rcases List.mem_cons.mp hk with rfl | hk
    · exact ⟨f, ⟨hlo, hhi, h0, husef f hf₁⟩, hhead, hcopy⟩
    · have hpk₁ := hpk
      rw [← hent k hk] at hpk₁
      obtain ⟨g, hg, hgent, hgcopy⟩ := hrest.page k hk hpk₁
      refine ⟨g, hg.of_taken hmap, hgent, fun x hx => ?_⟩
      rw [hent k hk] at hgcopy
      have hdiv : (frameOf (m.phys (wordAt fromTab k)) * 1024 + x) / 1024 =
          frameOf (m.phys (wordAt fromTab k)) := frame_div hx
      rw [hgcopy x hx, hkeep _ (by rw [hdiv]; exact (h.page k (htail hk) hpk).1) fun hc =>
        (h.page k (htail hk) hpk).2 j List.mem_cons_self (by rw [← hc, hdiv])]
  · rcases List.mem_cons.mp hk with rfl | hk
    · exact absurd hp hpk
    · rw [hrest.absent k hk (by rwa [hent k hk]),
        hkeep _ (h.target k (htail hk)) (Ne.symm (h.head_ne hk))]
  · rcases List.mem_cons.mp hk with hkj | hk
    · rcases List.mem_cons.mp hl with hlj | hl
      · rw [hkj, hlj]
      · rw [hkj] at heq
        exact absurd (heq.symm.trans hhead) (hother l hl hpl)
    · rcases List.mem_cons.mp hl with hlj | hl
      · rw [hlj] at heq
        exact absurd (heq.trans hhead) (hother k hk hpk)
      · exact hrest.inj k hk l hl (by rwa [hent k hk]) (by rwa [hent l hl]) heq

end

theorem copyTabEnts_copies (fromTab toTab : U32) (js : List Nat) (m : Mem)
    (h : TabReady m fromTab toTab js)
    (hret : (copyTabEnts fromTab toTab js m).2 = 0) :
    TabCopied m (copyTabEnts fromTab toTab js m).1 fromTab toTab js := by
  induction js generalizing m with
  | nil =>
    exact ⟨fun j hj => absurd hj List.not_mem_nil, fun j hj => absurd hj List.not_mem_nil,
      fun j hj => absurd hj List.not_mem_nil⟩
  | cons j js ih =>
    rcases copyTabEnts_cons fromTab toTab j js m with
      ⟨hno, heq⟩ | ⟨_, _, heq⟩ | ⟨f, hp, hlo, hhi, h0, heq⟩
    · rw [heq] at hret ⊢
      exact .cons_absent h hno (ih m h.tail hret)
    · rw [heq] at hret
      exact absurd hret (show (-ENOMEM : Int32) ≠ 0 by decide)
    · rw [heq] at hret ⊢
      exact .cons_paged h hlo hhi h0 hp rfl (ih _ (h.paged hlo hhi h0 _).2 hret)

/-! ## The directory -/

variable {fromDir toDir : U32} {ret : Int32}

/-- What the outer loop relies on: the tables and the pages of the source are in use, and the
tables are not the page directory. -/
structure DirReady (m : Mem) (fromDir toDir : U32) (is : List Nat) : Prop where
  nodup : is.Nodup
  target : ∀ i ∈ is, wordAt toDir i < 1024
  source : ∀ i ∈ is, wordAt fromDir i < 1024 ∧ ∀ k ∈ is, wordAt fromDir i ≠ wordAt toDir k
  table : ∀ i ∈ is, 1 ≤ frameOf (m.phys (wordAt fromDir i)) ∧
    m.InUse (frameOf (m.phys (wordAt fromDir i)))
  page : ∀ i ∈ is, ∀ j < 1024, m.phys (m.entryWord (wordAt fromDir i) j) &&& 1 = 1 →
    m.InUse (frameOf (m.phys (m.entryWord (wordAt fromDir i) j)))

/-- The frame `f` is a copy of the frame `g` as it is in `m`, but for some words of `g`. -/
def CopyBut (skip : Nat → Prop) (m m' : Mem) (g f : Nat) : Prop :=
  ∀ x < 1024, ¬ skip (g * 1024 + x) → m'.phys (f * 1024 + x) = m.phys (g * 1024 + x)

theorem lt_of_mem_none : ∀ j ∈ (none : Option Nat), j < 1024 := by
  intro j hj
  cases hj

/-- The word of a directory entry, or of an entry of its table. -/
def slotWord (m : Mem) (dir : U32) (i : Nat) : Option Nat → Nat
  | none => wordAt dir i
  | some j => m.entryWord (wordAt dir i) j

/-- The pages of the source have been copied to frames that were free, and tables made for them
of frames that were free; no frame serves two entries. -/
structure DirCopied (skip : Nat → Prop) (m m' : Mem) (fromDir toDir : U32) (is : List Nat) :
    Prop where
  table : ∀ i ∈ is, ∃ t, 256 ≤ t ∧ t < 4096 ∧ m'.phys (wordAt toDir i) = frameAddr t ||| 7
  present : ∀ i ∈ is, ∀ j < 1024, m'.phys (m'.entryWord (wordAt toDir i) j) &&& 1 = 1 ↔
    m.phys (m.entryWord (wordAt fromDir i) j) &&& 1 = 1
  copy : ∀ i ∈ is, ∀ j < 1024, m.phys (m.entryWord (wordAt fromDir i) j) &&& 1 = 1 →
    ∃ f, f < 4096 ∧ m'.phys (m'.entryWord (wordAt toDir i) j) = frameAddr f ||| 7 ∧
      CopyBut skip m m' (frameOf (m.phys (m.entryWord (wordAt fromDir i) j))) f
  fresh : ∀ i ∈ is, ∀ a, (∀ j ∈ a, j < 1024) → m'.phys (m'.slotWord toDir i a) &&& 1 = 1 →
    Fresh m m' (frameOf (m'.phys (m'.slotWord toDir i a)))
  apart : ∀ i ∈ is, ∀ k ∈ is, ∀ a b, (∀ j ∈ a, j < 1024) → (∀ j ∈ b, j < 1024) →
    m'.phys (m'.slotWord toDir i a) &&& 1 = 1 → m'.phys (m'.slotWord toDir k b) &&& 1 = 1 →
      frameOf (m'.phys (m'.slotWord toDir i a)) = frameOf (m'.phys (m'.slotWord toDir k b)) →
        i = k ∧ a = b

/-- Frame `t` has become the table of the directory entry at word `w`, and the pages of the
entries `src` have been copied. -/
structure TableMade (m m₁ : Mem) (t w : Nat) (src : Nat → Nat) : Prop where
  low : 256 ≤ t
  high : t < 4096
  free : m.memMap (t - 256) = 0
  used : m₁.InUse t
  dir : m₁.phys w = frameAddr t ||| 7
  page : ∀ j < 1024, m.phys (src j) &&& 1 = 1 → ∃ f, Fresh (m.tabled t w) m₁ f ∧
    m₁.phys (t * 1024 + j) = frameAddr f ||| 7 ∧
      IsCopy (m.tabled t w) m₁ (frameOf (m.phys (src j))) f
  absent : ∀ j < 1024, m.phys (src j) &&& 1 ≠ 1 → m₁.phys (t * 1024 + j) = 0
  inj : ∀ j < 1024, ∀ k < 1024, m.phys (src j) &&& 1 = 1 → m.phys (src k) &&& 1 = 1 →
    m₁.phys (t * 1024 + j) = m₁.phys (t * 1024 + k) → j = k

section
variable {t i : Nat} {is : List Nat} {skip : Nat → Prop} {m₁ : Mem}

/-- The new table is none of the frames in use. -/
theorem DirReady.tabled_entry (h : DirReady m fromDir toDir (i :: is)) (hlo : 256 ≤ t)
    (hhi : t < 4096) (h0 : m.memMap (t - 256) = 0) {j : Nat} (hj : j < 1024) :
    (m.tabled t (wordAt toDir i)).phys (wordAt (pageAddr (m.phys (wordAt fromDir i))) j) =
      m.phys (m.entryWord (wordAt fromDir i) j) := by
  have hw := h.target i List.mem_cons_self
  obtain ⟨he1, heuse⟩ := h.table i List.mem_cons_self
  have hne := heuse.ne_free hlo hhi h0
  rw [wordAt_pageAddr, entryWord]
  exact tabled_phys (by omega) (by omega)

theorem DirReady.tabReady (h : DirReady m fromDir toDir (i :: is)) (hlo : 256 ≤ t)
    (hhi : t < 4096) (h0 : m.memMap (t - 256) = 0) :
    TabReady (m.tabled t (wordAt toDir i)) (pageAddr (m.phys (wordAt fromDir i))) (frameAddr t)
      tabIndices := by
  obtain ⟨-, heuse⟩ := h.table i List.mem_cons_self
  refine ⟨nodup_tabIndices, fun j hj => ?_, fun j hj => ?_, fun j hj hp => ?_⟩
  · rw [wordAt_frame_div hhi (mem_tabIndices.mp hj)]
    exact tabled_inUse m t _
  · have hj' := mem_tabIndices.mp hj
    rw [wordAt_div _ hj']
    refine ⟨heuse.tabled t _, fun k hk hc => heuse.ne_free hlo hhi h0 ?_⟩
    rw [← wordAt_div (m.phys (wordAt fromDir i)) hj', hc, wordAt_frame_div hhi (mem_tabIndices.mp hk)]
  · have hj' := mem_tabIndices.mp hj
    rw [h.tabled_entry hlo hhi h0 hj'] at hp ⊢
    have huse := h.page i List.mem_cons_self j hj' hp
    refine ⟨huse.tabled t _, fun k hk hc => ?_⟩
    rw [wordAt_frame_div hhi (mem_tabIndices.mp hk)] at hc
    exact huse.ne_free hlo hhi h0 hc.symm

/-- A table that has been copied without running out of frames. -/
theorem tableMade (h : DirReady m fromDir toDir (i :: is)) (hlo : 256 ≤ t) (hhi : t < 4096)
    (h0 : m.memMap (t - 256) = 0)
    (hm₁ : m₁ = (copyTabEnts (pageAddr (m.phys (wordAt fromDir i))) (frameAddr t) tabIndices
      (m.tabled t (wordAt toDir i))).1)
    (hret : (copyTabEnts (pageAddr (m.phys (wordAt fromDir i))) (frameAddr t) tabIndices
      (m.tabled t (wordAt toDir i))).2 = 0) :
    TableMade m m₁ t (wordAt toDir i) (m.entryWord (wordAt fromDir i)) := by
  have hw := h.target i List.mem_cons_self
  have hent : ∀ {j}, j < 1024 → _ := fun hj => h.tabled_entry hlo hhi h0 hj
  have hcopies := copyTabEnts_copies _ _ tabIndices _ (h.tabReady hlo hhi h0) hret
  obtain ⟨huse₁, hfroz₁⟩ := copyTabEnts_frozen (pageAddr (m.phys (wordAt fromDir i))) (frameAddr t)
    tabIndices (m.tabled t (wordAt toDir i))
  rw [← hm₁] at hcopies huse₁ hfroz₁
  refine ⟨hlo, hhi, h0, huse₁ t (tabled_inUse m t _), ?_, fun j hj hp => ?_, fun j hj hp => ?_,
    fun j hj k hk hp hp' heq => ?_⟩
  · rw [hfroz₁ _ ((inUse_low m (by omega)).tabled t _) fun j hj hc => ?_, tabled_entry]
    rw [hc, wordAt_frame hhi] at hw
    omega
  · have hcopied := hcopies.page j (mem_tabIndices.mpr hj)
    rw [hent hj, wordAt_frame hhi] at hcopied
    exact hcopied hp
  · have hzero := hcopies.absent j (mem_tabIndices.mpr hj) (by rwa [hent hj])
    rw [wordAt_frame hhi, tabled, setWord_phys, if_neg (by omega)] at hzero
    rw [hzero]
    exact if_pos (frame_div hj)
  · have hinj := hcopies.inj j (mem_tabIndices.mpr hj) k (mem_tabIndices.mpr hk)
    rw [hent hj, hent hk, wordAt_frame hhi, wordAt_frame hhi] at hinj
    exact hinj hp hp' heq

theorem TableMade.entryWord {w : Nat} {src : Nat → Nat} (h : TableMade m m₁ t w src) (j : Nat) :
    m₁.entryWord w j = t * 1024 + j := by
  rw [Mem.entryWord, h.dir, (frameAddr_entry h.high).1]

theorem TableMade.present {w : Nat} {src : Nat → Nat} (h : TableMade m m₁ t w src) {j : Nat}
    (hj : j < 1024) : m₁.phys (t * 1024 + j) &&& 1 = 1 ↔ m.phys (src j) &&& 1 = 1 := by
  refine ⟨fun hp => ?_, fun hp => ?_⟩
  · by_contra hno
    rw [h.absent j hj hno] at hp
    exact absurd hp (by decide)
  · obtain ⟨f, hf, hfent, -⟩ := h.page j hj hp
    rw [hfent]
    exact (frameAddr_entry hf.high).2.1

/-- The frame that a present slot names. -/
theorem TableMade.slot {src : Nat → Nat} (h : TableMade m m₁ t (wordAt toDir i) src)
    {a : Option Nat} (ha : ∀ j ∈ a, j < 1024) (hp : m₁.phys (m₁.slotWord toDir i a) &&& 1 = 1) :
    (a = none ∧ frameOf (m₁.phys (m₁.slotWord toDir i a)) = t) ∨
      ∃ j f, a = some j ∧ j < 1024 ∧ m.phys (src j) &&& 1 = 1 ∧
        Fresh (m.tabled t (wordAt toDir i)) m₁ f ∧ m₁.phys (t * 1024 + j) = frameAddr f ||| 7 ∧
          frameOf (m₁.phys (m₁.slotWord toDir i a)) = f := by
  cases a with
  | none =>
    refine Or.inl ⟨rfl, ?_⟩
    rw [slotWord, h.dir, (frameAddr_entry h.high).1]
  | some j =>
    have hj := ha j rfl
    rw [slotWord, h.entryWord] at hp ⊢
    have hpj := (h.present hj).mp hp
    obtain ⟨f, hf, hfent, -⟩ := h.page j hj hpj
    exact Or.inr ⟨j, f, rfl, hj, hpj, hf, hfent, by rw [hfent, (frameAddr_entry hf.high).1]⟩

theorem TableMade.dirCopied
    (h : TableMade m m₁ t (wordAt toDir i) (m.entryWord (wordAt fromDir i)))
    (hready : DirReady m fromDir toDir (i :: is)) (hskip : skip (wordAt toDir i)) :
    DirCopied skip m m₁ fromDir toDir [i] := by
  have htabled : (m.tabled t (wordAt toDir i)).memMap = (m.taken t).memMap := tabled_memMap m t _
  have ht₁ : (m.tabled t (wordAt toDir i)).InUse t := tabled_inUse m t _
  refine ⟨fun k hk => ?_, fun k hk j hj => ?_, fun k hk j hj hp => ?_, fun k hk a ha hp => ?_,
    fun k hk l hl a b ha hb hp hp' heq => ?_⟩
  · rw [List.mem_singleton.mp hk]
    exact ⟨t, h.low, h.high, h.dir⟩
  · rw [List.mem_singleton.mp hk, h.entryWord]
    exact h.present hj
  · rw [List.mem_singleton.mp hk] at hp ⊢
    obtain ⟨f, hf, hfent, hfcopy⟩ := h.page j hj hp
    refine ⟨f, hf.high, by rw [h.entryWord, hfent], fun x hx hno => ?_⟩
    rw [hfcopy x hx]
    refine tabled_phys (fun hc => hno (hc ▸ hskip)) ?_
    rw [frame_div hx]
    exact (hready.page i List.mem_cons_self j hj hp).ne_free h.low h.high h.free
  · rw [List.mem_singleton.mp hk] at hp ⊢
    obtain ⟨-, hframe⟩ | ⟨j, f, -, -, -, hf, -, hframe⟩ := h.slot ha hp
    · rw [hframe]
      exact ⟨h.low, h.high, h.free, h.used⟩
    · rw [hframe]
      exact hf.of_taken htabled
  · rw [List.mem_singleton.mp hk] at hp heq ⊢
    rw [List.mem_singleton.mp hl] at hp' heq ⊢
    refine ⟨rfl, ?_⟩
    obtain ⟨rfl, hframe⟩ | ⟨j, f, rfl, hj, hpj, hf, hent, hframe⟩ := h.slot ha hp
    · obtain ⟨rfl, -⟩ | ⟨j', g, -, -, -, hg, -, hframe'⟩ := h.slot hb hp'
      · rfl
      · exact absurd (hframe.symm.trans (heq.trans hframe')) (hg.ne ht₁)
    · obtain ⟨-, hframe'⟩ | ⟨j', g, rfl, hj', hpj', -, hent', hframe'⟩ := h.slot hb hp'
      · exact absurd (hframe'.symm.trans (heq.symm.trans hframe)) (hf.ne ht₁)
      · have hfg : f = g := hframe.symm.trans (heq.trans hframe')
        rw [h.inj j hj j' hj' hpj hpj' (by rw [hent, hent', hfg])]

/-! ### One entry after another -/

theorem free_of_used (huse : ∀ g, m.InUse g → m₁.InUse g) (hlo : 256 ≤ f) (hhi : f < 4096)
    (h : m₁.memMap (f - 256) = 0) : m.memMap (f - 256) = 0 := by
  by_contra hne
  exact huse f (fun _ _ => hne) hlo hhi h

/-- The rest of the source is as it was. -/
theorem DirReady.rest (h : DirReady m fromDir toDir (i :: is)) (hk : Keeps m m₁ (wordAt toDir i)) :
    (∀ k ∈ is, m₁.phys (wordAt fromDir k) = m.phys (wordAt fromDir k)) ∧
      (∀ k ∈ is, ∀ j < 1024, m₁.phys (m.entryWord (wordAt fromDir k) j) =
        m.phys (m.entryWord (wordAt fromDir k) j)) ∧ DirReady m₁ fromDir toDir is := by
  have htail : ∀ {k}, k ∈ is → k ∈ i :: is := fun hk => List.mem_cons_of_mem i hk
  have hdir : ∀ k ∈ is, m₁.phys (wordAt fromDir k) = m.phys (wordAt fromDir k) := fun k hks =>
    hk.phys _ (inUse_low m (by have := (h.source k (htail hks)).1; omega))
      ((h.source k (htail hks)).2 i List.mem_cons_self)
  have hent : ∀ k ∈ is, ∀ j < 1024, m₁.phys (m.entryWord (wordAt fromDir k) j) =
      m.phys (m.entryWord (wordAt fromDir k) j) := by
    intro k hks j hj
    obtain ⟨h1, hu⟩ := h.table k (htail hks)
    have hw := h.target i List.mem_cons_self
    have hdiv : m.entryWord (wordAt fromDir k) j / 1024 =
        frameOf (m.phys (wordAt fromDir k)) := frame_div hj
    refine hk.phys _ (by rwa [hdiv]) ?_
    rw [Mem.entryWord]
    omega
  refine ⟨hdir, hent, (List.nodup_cons.mp h.nodup).2, fun k hks => h.target k (htail hks),
    fun k hks => ?_, fun k hks => ?_, fun k hks j hj hp => ?_⟩
  · exact ⟨(h.source k (htail hks)).1, fun l hl => (h.source k (htail hks)).2 l (htail hl)⟩
  · rw [hdir k hks]
    exact ⟨(h.table k (htail hks)).1, hk.used _ (h.table k (htail hks)).2⟩
  · rw [entryWord_congr (hdir k hks), hent k hks j hj] at hp ⊢
    exact hk.used _ (h.page k (htail hks) j hj hp)

/-- The slots of the first entry stay as the first part of the copy left them. -/
theorem slot_after (h : DirReady m fromDir toDir (i :: is))
    (hhead : DirCopied skip m m₁ fromDir toDir [i])
    (hrest : copyDirEnts fromDir toDir is m₁ = .ok (m', ret)) {a : Option Nat}
    (ha : ∀ j ∈ a, j < 1024) : m'.slotWord toDir i a = m₁.slotWord toDir i a ∧
      m'.phys (m₁.slotWord toDir i a) = m₁.phys (m₁.slotWord toDir i a) := by
  obtain ⟨-, hfroz⟩ := copyDirEnts_frozen hrest
  obtain ⟨t, hlo, hhi, hdir₁⟩ := hhead.table i List.mem_cons_self
  obtain ⟨htframe, htpres, -⟩ := frameAddr_entry hhi
  have hw := h.target i List.mem_cons_self
  have hdir : m'.phys (wordAt toDir i) = m₁.phys (wordAt toDir i) := by
    refine hfroz _ (inUse_low m₁ (by omega)) fun k hk hc => (List.nodup_cons.mp h.nodup).1 ?_
    rw [wordAt, wordAt] at hc
    rwa [show i = k by omega]
  cases a with
  | none => exact ⟨rfl, hdir⟩
  | some j =>
    have hused : m₁.InUse t := by
      have hf := hhead.fresh i List.mem_cons_self none lt_of_mem_none
      rw [slotWord, hdir₁, htframe] at hf
      exact (hf htpres).used
    have hword : m₁.slotWord toDir i (some j) = t * 1024 + j := by
      rw [slotWord, entryWord, hdir₁, htframe]
    refine ⟨entryWord_congr hdir, ?_⟩
    rw [hword]
    refine hfroz _ (by rwa [frame_div (ha j rfl)]) fun k hk hc => ?_
    have := h.target k (List.mem_cons_of_mem i hk)
    omega

theorem DirCopied.cons (h : DirReady m fromDir toDir (i :: is)) (hk : Keeps m m₁ (wordAt toDir i))
    (hskip : skip (wordAt toDir i)) (hhead : DirCopied skip m m₁ fromDir toDir [i])
    (hcopy : copyDirEnts fromDir toDir is m₁ = .ok (m', ret))
    (hrest : DirCopied skip m₁ m' fromDir toDir is) :
    DirCopied skip m m' fromDir toDir (i :: is) := by
  obtain ⟨huse', hfroz'⟩ := copyDirEnts_frozen hcopy
  obtain ⟨hdir, hent, -⟩ := h.rest hk
  have hi : i ∈ [i] := List.mem_cons_self
  have hslot : ∀ {a : Option Nat}, (∀ j ∈ a, j < 1024) → _ := fun ha => slot_after h hhead hcopy ha
  have hsome : ∀ {j : Nat}, j < 1024 → ∀ l ∈ some j, l < 1024 := by
    intro j hj l hl
    cases hl
    exact hj
  -- a frame of the first entry is in use when those of the others are handed out
  have hother : ∀ {k a b}, k ∈ is → (∀ j ∈ a, j < 1024) → (∀ j ∈ b, j < 1024) →
      m'.phys (m'.slotWord toDir i a) &&& 1 = 1 → m'.phys (m'.slotWord toDir k b) &&& 1 = 1 →
        frameOf (m'.phys (m'.slotWord toDir i a)) ≠ frameOf (m'.phys (m'.slotWord toDir k b)) := by
    intro k a b hks ha hb hp hp'
    rw [(hslot ha).1, (hslot ha).2] at hp ⊢
    exact (hrest.fresh k hks b hb hp').ne (hhead.fresh i hi a ha hp).used
  refine ⟨fun k hks => ?_, fun k hks j hj => ?_, fun k hks j hj hp => ?_, fun k hks a ha hp => ?_,
    fun k hks l hls a b ha hb hp hp' heq => ?_⟩
  · rcases List.mem_cons.mp hks with rfl | hks
    · have hnone := hslot (a := none) lt_of_mem_none
      obtain ⟨t, hlo, hhi, ht⟩ := hhead.table k hi
      exact ⟨t, hlo, hhi, hnone.2.trans ht⟩
    · exact hrest.table k hks
  · rcases List.mem_cons.mp hks with rfl | hks
    · have hj' := hslot (hsome hj)
      rw [show m'.entryWord (wordAt toDir k) j = _ from hj'.1,
        show m'.phys (m₁.slotWord toDir k (some j)) = _ from hj'.2]
      exact hhead.present k hi j hj
    · rw [hrest.present k hks j hj, entryWord_congr (hdir k hks), hent k hks j hj]
  · rcases List.mem_cons.mp hks with rfl | hks
    · have hj' := hslot (hsome hj)
      obtain ⟨f, hf, hfent, hfcopy⟩ := hhead.copy k hi j hj hp
      have hfresh := hhead.fresh k hi (some j) (hsome hj)
      rw [slotWord, hfent, (frameAddr_entry hf).1] at hfresh
      have hfresh := hfresh (frameAddr_entry hf).2.1
      refine ⟨f, hf, ?_, fun x hx hno => ?_⟩
      · rw [show m'.entryWord (wordAt toDir k) j = _ from hj'.1]
        exact hj'.2.trans hfent
      · rw [hfroz' _ (by rw [frame_div hx]; exact hfresh.used) fun l hl hc => ?_, hfcopy x hx hno]
        have := h.target l (List.mem_cons_of_mem k hl)
        have := hfresh.low
        omega
    · have hcopied := hrest.copy k hks j hj
      rw [entryWord_congr (hdir k hks), hent k hks j hj] at hcopied
      obtain ⟨f, hf, hfent, hfcopy⟩ := hcopied hp
      refine ⟨f, hf, hfent, fun x hx hno => ?_⟩
      have hused :
          m.InUse ((frameOf (m.phys (m.entryWord (wordAt fromDir k) j)) * 1024 + x) / 1024) := by
        rw [frame_div hx]
        exact h.page k (List.mem_cons_of_mem i hks) j hj hp
      rw [hfcopy x hx hno, hk.phys _ hused fun hc => hno (by rw [hc]; exact hskip)]
  · rcases List.mem_cons.mp hks with rfl | hks
    · rw [(hslot ha).1, (hslot ha).2] at hp ⊢
      have hf := hhead.fresh k hi a ha hp
      exact ⟨hf.low, hf.high, hf.free, huse' _ hf.used⟩
    · have hf := hrest.fresh k hks a ha hp
      exact ⟨hf.low, hf.high, free_of_used hk.used hf.low hf.high hf.free, hf.used⟩
  · rcases List.mem_cons.mp hks with hki | hks
    · rw [hki] at hp heq ⊢
      rcases List.mem_cons.mp hls with hli | hls
      · rw [hli] at hp' heq ⊢
        rw [(hslot ha).1, (hslot ha).2] at hp heq
        rw [(hslot hb).1, (hslot hb).2] at hp' heq
        exact hhead.apart i hi i hi a b ha hb hp hp' heq
      · exact absurd heq (hother hls ha hb hp hp')
    · rcases List.mem_cons.mp hls with hli | hls
      · rw [hli] at hp' heq
        exact absurd heq.symm (hother hks hb ha hp' hp)
      · exact hrest.apart k hks l hls a b ha hb hp hp' heq

end

/-- When a copy of directory entries succeeds, each page their tables map has been copied. -/
theorem copyDirEnts_copies (skip : Nat → Prop) {is : List Nat} (h : DirReady m fromDir toDir is)
    (hok : copyDirEnts fromDir toDir is m = .ok (m', 0))
    (hskip : ∀ i ∈ is, skip (wordAt toDir i)) : DirCopied skip m m' fromDir toDir is := by
  induction is generalizing m with
  | nil =>
    exact ⟨fun i hi => absurd hi List.not_mem_nil, fun i hi => absurd hi List.not_mem_nil,
      fun i hi => absurd hi List.not_mem_nil, fun i hi => absurd hi List.not_mem_nil,
      fun i hi => absurd hi List.not_mem_nil⟩
  | cons i is ih =>
    rcases copyDirEnts_cons hok with
      ⟨_, _, hne⟩ | ⟨t, hlo, hhi, h0, ⟨_, _, hne⟩ | ⟨hret, hrest⟩⟩
    · exact absurd rfl hne
    · exact absurd rfl hne
    · have hkeep := keeps_of_copyTabEnts (pageAddr (m.phys (wordAt fromDir i))) (wordAt toDir i)
        hlo hhi h0
      have hmade := tableMade h hlo hhi h0 rfl hret
      have hhead := hskip i List.mem_cons_self
      exact .cons h hkeep hhead (hmade.dirCopied h hhead) hrest
        (ih (h.rest hkeep).2.2 hrest fun k hk => hskip k (List.mem_cons_of_mem i hk))

/-- The copy of a page other than the directory, with the entries that lead to it. -/
theorem DirCopied.exists_copy {skip : Nat → Prop} {is : List Nat}
    (h : DirCopied skip m m' fromDir toDir is) (hskip : ∀ w, skip w → w < 1024) {i j : Nat}
    (hi : i ∈ is) (hj : j < 1024) (hp : m.phys (m.entryWord (wordAt fromDir i) j) &&& 1 = 1)
    (h1 : 1 ≤ frameOf (m.phys (m.entryWord (wordAt fromDir i) j))) :
    ∃ t f, t < 4096 ∧ f < 4096 ∧ m'.phys (wordAt toDir i) = frameAddr t ||| 7 ∧
      m'.phys (t * 1024 + j) = frameAddr f ||| 7 ∧
        IsCopy m m' (frameOf (m.phys (m.entryWord (wordAt fromDir i) j))) f := by
  obtain ⟨t, -, ht, hdir⟩ := h.table i hi
  obtain ⟨f, hf, hent, hcopy⟩ := h.copy i hi j hj hp
  rw [entryWord, hdir, (frameAddr_entry ht).1] at hent
  refine ⟨t, f, ht, hf, hdir, hent, fun x hx => hcopy x hx fun hc => ?_⟩
  have := hskip _ hc
  omega

end Mem

/-! ## Windows -/

section
variable {m m' : Mem} {fromAddr toAddr size : U32} {n : Nat}

/-- The word of the directory entry `i` of the window at an address. -/
def dirWord (addr : U32) (i : Nat) : Nat := addr.toNat / 0x400000 + i

theorem wordAt_dirWord (addr : U32) (i : Nat) : wordAt ((addr >>> 22) * 4) i = dirWord addr i := by
  have hlt := addr.isLt
  rw [wordAt, dirWord, BitVec.toNat_mul, BitVec.toNat_ushiftRight, Nat.shiftRight_eq_div_pow]
  show addr.toNat / 2 ^ 22 * 4 % 2 ^ 32 / 4 + i = _
  omega

/-- A window of `n` directory entries is mapped by page tables of 4 KB entries.  They and the
pages are in use, and no table is the page directory. -/
structure Mapped (m : Mem) (addr : U32) (n : Nat) : Prop where
  inside : addr.toNat / 0x400000 + n ≤ 1024
  table : ∀ i < n, Table (m.phys (dirWord addr i)) ∧ 1 ≤ frameOf (m.phys (dirWord addr i)) ∧
    m.InUse (frameOf (m.phys (dirWord addr i)))
  page : ∀ i < n, ∀ j < 1024, m.phys (m.entryWord (dirWord addr i) j) &&& 1 = 1 →
    m.InUse (frameOf (m.phys (m.entryWord (dirWord addr i) j)))

/-- No directory entry of a window is present. -/
structure Absent (m : Mem) (addr : U32) (n : Nat) : Prop where
  inside : addr.toNat / 0x400000 + n ≤ 1024
  entry : ∀ i < n, m.phys (dirWord addr i) &&& 1 = 0

/-- The word is one of the directory entries of a window. -/
def InDirectory (addr : U32) (n : Nat) (w : Nat) : Prop := ∃ k < n, w = dirWord addr k

/-- The word of a directory entry of a window, or of an entry of its table. -/
def slotOf (m : Mem) (addr : U32) (i : Nat) : Option Nat → Nat
  | none => dirWord addr i
  | some j => m.entryWord (dirWord addr i) j

/-- The window at `toAddr` is a deep copy of the window at `fromAddr`, and shares nothing
with it. -/
structure Isolated (m m' : Mem) (fromAddr toAddr : U32) (n : Nat) : Prop where
  present : ∀ i < n, ∀ j < 1024, m'.phys (m'.entryWord (dirWord toAddr i) j) &&& 1 = 1 ↔
    m.phys (m.entryWord (dirWord fromAddr i) j) &&& 1 = 1
  copy : ∀ i < n, ∀ j < 1024, m'.phys (m'.entryWord (dirWord toAddr i) j) &&& 1 = 1 →
    m.CopyBut (InDirectory toAddr n) m'
      (frameOf (m.phys (m.entryWord (dirWord fromAddr i) j)))
      (frameOf (m'.phys (m'.entryWord (dirWord toAddr i) j)))
  fresh : ∀ i < n, ∀ a, (∀ j ∈ a, j < 1024) → m'.phys (slotOf m' toAddr i a) &&& 1 = 1 →
    m.Fresh m' (frameOf (m'.phys (slotOf m' toAddr i a)))
  apart : ∀ i < n, ∀ k < n, ∀ a b, (∀ j ∈ a, j < 1024) → (∀ j ∈ b, j < 1024) →
    m'.phys (slotOf m' toAddr i a) &&& 1 = 1 → m'.phys (slotOf m' toAddr k b) &&& 1 = 1 →
      frameOf (m'.phys (slotOf m' toAddr i a)) = frameOf (m'.phys (slotOf m' toAddr k b)) →
        i = k ∧ a = b
  source : ∀ i < n, ∀ a, (∀ j ∈ a, j < 1024) →
    slotOf m' fromAddr i a = slotOf m fromAddr i a ∧
      m'.phys (slotOf m' fromAddr i a) = m.phys (slotOf m fromAddr i a)
  frozen : ∀ x, m.InUse (x / 1024) → ¬ InDirectory toAddr n x → m'.phys x = m.phys x
  used : ∀ g, m.InUse g → m'.InUse g
  disjoint : ∀ i < n, ∀ k < n, ∀ a b, (∀ j ∈ a, j < 1024) → (∀ j ∈ b, j < 1024) →
    m'.phys (slotOf m' toAddr i a) &&& 1 = 1 → m'.phys (slotOf m' fromAddr k b) &&& 1 = 1 →
      frameOf (m'.phys (slotOf m' toAddr i a)) ≠ frameOf (m'.phys (slotOf m' fromAddr k b))

/-- The directory entries of the two windows are different words. -/
theorem Mapped.apart (hfrom : Mapped m fromAddr n) (hto : Absent m toAddr n) {i k : Nat}
    (hi : i < n) (hk : k < n) : dirWord fromAddr i ≠ dirWord toAddr k := by
  intro heq
  have hp := (hfrom.table i hi).1.1
  rw [heq, hto.entry k hk] at hp
  exact absurd hp (by decide)

theorem Mapped.dirReady (hfrom : Mapped m fromAddr n) (hto : Absent m toAddr n) :
    m.DirReady ((fromAddr >>> 22) * 4) ((toAddr >>> 22) * 4) (List.range n) := by
  have hin := hfrom.inside
  have hin' := hto.inside
  refine ⟨List.nodup_range, fun i hi => ?_, fun i hi => ?_, fun i hi => ?_, fun i hi => ?_⟩ <;>
    have hi := List.mem_range.mp hi <;> rw [wordAt_dirWord]
  · rw [dirWord]
    omega
  · refine ⟨by rw [dirWord]; omega, fun k hk => ?_⟩
    rw [wordAt_dirWord]
    exact hfrom.apart hto hi (List.mem_range.mp hk)
  · exact (hfrom.table i hi).2
  · exact hfrom.page i hi

theorem slotWord_eq (m : Mem) (addr : U32) (i : Nat) (a : Option Nat) :
    m.slotWord ((addr >>> 22) * 4) i a = slotOf m addr i a := by
  cases a with
  | none => exact wordAt_dirWord addr i
  | some j => rw [Mem.slotWord, wordAt_dirWord, slotOf]

/-- A slot of the source lies in a frame that is in use, and is no entry of the new window. -/
theorem Mapped.slot (hfrom : Mapped m fromAddr n) (hto : Absent m toAddr n) {i : Nat} (hi : i < n)
    {a : Option Nat} (ha : ∀ j ∈ a, j < 1024) :
    m.InUse (slotOf m fromAddr i a / 1024) ∧ ¬ InDirectory toAddr n (slotOf m fromAddr i a) := by
  have hin := hfrom.inside
  have hin' := hto.inside
  cases a with
  | none =>
    constructor
    · refine m.inUse_low ?_
      rw [slotOf, dirWord]
      omega
    · rintro ⟨k, hk, hc⟩
      exact hfrom.apart hto hi hk hc
  | some j =>
    obtain ⟨-, h1, huse⟩ := hfrom.table i hi
    rw [slotOf, Mem.entryWord, Mem.frame_div (ha j rfl)]
    refine ⟨huse, ?_⟩
    rintro ⟨k, hk, hc⟩
    have hlow : dirWord toAddr k < 1024 := by
      rw [dirWord]
      omega
    omega

/-- The frame that a present slot of the source names is in use. -/
theorem Mapped.inUse (hfrom : Mapped m fromAddr n) {i : Nat} (hi : i < n) {a : Option Nat}
    (ha : ∀ j ∈ a, j < 1024) (hp : m.phys (slotOf m fromAddr i a) &&& 1 = 1) :
    m.InUse (frameOf (m.phys (slotOf m fromAddr i a))) := by
  cases a with
  | none => exact (hfrom.table i hi).2.2
  | some j => exact hfrom.page i hi j (ha j rfl) hp

/-- A copy of page tables that succeeds is deep, and isolates the two windows. -/
theorem copyPageTables_isolates (hfrom : Mapped m fromAddr (Mem.nrOfDirEnt size))
    (hto : Absent m toAddr (Mem.nrOfDirEnt size))
    (hok : m.copyPageTables fromAddr toAddr size = .ok (m', 0)) :
    Isolated m m' fromAddr toAddr (Mem.nrOfDirEnt size) := by
  have hcopy := Mem.copyDirEnts_of_copyPageTables hok
  have hready := hfrom.dirReady hto
  have hdone := Mem.copyDirEnts_copies (InDirectory toAddr (Mem.nrOfDirEnt size)) hready hcopy
    fun i hi => ⟨i, List.mem_range.mp hi, wordAt_dirWord _ _⟩
  obtain ⟨hused, hphys⟩ := Mem.copyDirEnts_frozen hcopy
  have hfrozen : ∀ x, m.InUse (x / 1024) → ¬ InDirectory toAddr (Mem.nrOfDirEnt size) x →
      m'.phys x = m.phys x := fun x hx hno => hphys x hx fun i hi hc =>
    hno ⟨i, List.mem_range.mp hi, hc.trans (wordAt_dirWord _ _)⟩
  have hsource : ∀ i < Mem.nrOfDirEnt size, ∀ a, (∀ j ∈ a, j < 1024) →
      slotOf m' fromAddr i a = slotOf m fromAddr i a ∧
        m'.phys (slotOf m' fromAddr i a) = m.phys (slotOf m fromAddr i a) := by
    intro i hi a ha
    have hdir := hfrozen _ (hfrom.slot hto hi (a := none) Mem.lt_of_mem_none).1
      (hfrom.slot hto hi (a := none) Mem.lt_of_mem_none).2
    have hword : slotOf m' fromAddr i a = slotOf m fromAddr i a := by
      cases a with
      | none => rfl
      | some j => exact entryWord_congr hdir
    rw [hword]
    exact ⟨rfl, hfrozen _ (hfrom.slot hto hi ha).1 (hfrom.slot hto hi ha).2⟩
  have hmem : ∀ {i}, i < Mem.nrOfDirEnt size → i ∈ List.range (Mem.nrOfDirEnt size) := fun hi =>
    List.mem_range.mpr hi
  have hpresent : ∀ i < Mem.nrOfDirEnt size, ∀ j < 1024,
      m'.phys (m'.entryWord (dirWord toAddr i) j) &&& 1 = 1 ↔
        m.phys (m.entryWord (dirWord fromAddr i) j) &&& 1 = 1 := by
    intro i hi j hj
    rw [← wordAt_dirWord toAddr, ← wordAt_dirWord fromAddr]
    exact hdone.present i (hmem hi) j hj
  have hfresh : ∀ i < Mem.nrOfDirEnt size, ∀ a, (∀ j ∈ a, j < 1024) →
      m'.phys (slotOf m' toAddr i a) &&& 1 = 1 →
        m.Fresh m' (frameOf (m'.phys (slotOf m' toAddr i a))) := by
    intro i hi a ha hp
    rw [← slotWord_eq] at hp ⊢
    exact hdone.fresh i (hmem hi) a ha hp
  refine ⟨hpresent, fun i hi j hj hp => ?_, hfresh, fun i hi k hk a b ha hb hp hp' heq => ?_,
    hsource, hfrozen, hused, fun i hi k hk a b ha hb hp hp' heq => ?_⟩
  · have hcopied := hdone.copy i (hmem hi) j hj
    rw [wordAt_dirWord, wordAt_dirWord] at hcopied
    obtain ⟨f, hf, hent, hcopyf⟩ := hcopied ((hpresent i hi j hj).mp hp)
    rw [hent, (frameAddr_entry hf).1]
    exact hcopyf
  · rw [← slotWord_eq] at hp heq
    rw [← slotWord_eq m' toAddr k] at hp' heq
    exact hdone.apart i (hmem hi) k (hmem hk) a b ha hb hp hp' heq
  · obtain ⟨-, hval⟩ := hsource k hk b hb
    rw [hval] at hp' heq
    exact (hfresh i hi a ha hp).ne (hfrom.inUse hk hb hp') heq.symm

/-- A window of one table whose first page is the frame `g`. -/
def windowOf (g : U32) : Mem where
  memMap := fun i => if i = 768 then 1 else 0
  phys := fun w => if w = 16 then 0x400007 else if w = 0x100000 then g * 4096 + 7 else 0

theorem windowOf_absent (g : U32) : Absent (windowOf g) 0x8000000 1 := by
  refine ⟨by decide, fun i hi => ?_⟩
  have hword : dirWord 0x8000000 i = 32 := by
    rw [show i = 0 by omega]
    decide
  have hentry : (windowOf g).phys 32 = 0 := rfl
  rw [hword, hentry]
  decide

/-- The page is below the frames that `mem_map` covers. -/
theorem windowOf_mapped {g : U32} (hg : g.toNat < 256) : Mapped (windowOf g) 0x4000000 1 := by
  have hword : ∀ i < 1, dirWord 0x4000000 i = 16 := by
    intro i hi
    rw [show i = 0 by omega]
    decide
  have htab : (windowOf g).phys 16 = 0x400007 := rfl
  refine ⟨by decide, fun i hi => ?_, fun i hi j hj hp => ?_⟩ <;> rw [hword i hi] at *
  · rw [htab]
    have hframe : frameOf 0x400007 = 1024 := by decide
    rw [hframe]
    exact ⟨by decide, by decide, (windowOf g).inUse_of_one rfl⟩
  · have hent : (windowOf g).entryWord 16 j = 0x100000 + j := by
      rw [Mem.entryWord, htab]
      rfl
    rw [hent] at hp ⊢
    by_cases h0 : j = 0
    · have hpage : (windowOf g).phys (0x100000 + j) = g * 4096 + 7 := by
        rw [h0]
        rfl
      refine Mem.inUse_low _ ?_
      have hnat : (g * 4096 + 7 : U32).toNat = g.toNat * 4096 + 7 := by
        rw [BitVec.toNat_add, BitVec.toNat_mul]
        show (g.toNat * 4096 % 2 ^ 32 + 7) % 2 ^ 32 = _
        omega
      rw [hpage, frameOf, BitVec.toNat_ushiftRight, Nat.shiftRight_eq_div_pow, hnat]
      omega
    · have hzero : (windowOf g).phys (0x100000 + j) = 0 := by
        show (if 0x100000 + j = 16 then _ else if 0x100000 + j = 0x100000 then _ else _) = _
        rw [if_neg (by omega), if_neg (by omega)]
      rw [hzero] at hp
      exact absurd hp (by decide)

theorem ok_of_map {α β : Type} {x : Except Fault α} {g : α → β} {v : β}
    (h : x.toOption.map g = some v) : ∃ r, x = .ok r ∧ g r = v := by
  cases x with
  | error e => cases h
  | ok r => exact ⟨r, rfl, Option.some.inj h⟩

/-- A window that maps the character memory of the screen. -/
theorem copyPageTables_isolates_screen : ∃ m',
    (windowOf 0xB8).copyPageTables 0x4000000 0x8000000 0x100000 = .ok (m', 0) ∧
      Isolated (windowOf 0xB8) m' 0x4000000 0x8000000 1 := by
  obtain ⟨⟨m', ret⟩, hok, rfl⟩ := ok_of_map (g := Prod.snd) (v := 0)
    (x := (windowOf 0xB8).copyPageTables 0x4000000 0x8000000 0x100000) (by decide +kernel)
  exact ⟨m', hok, copyPageTables_isolates (windowOf_mapped (by decide)) (windowOf_absent _) hok⟩

/-- The page directory is changed while it is copied, and a page that is free is handed out
as the table of its own copy. -/
theorem copyPageTables_directory :
    (Table ((windowOf 0).phys (dirWord 0x4000000 0)) ∧
      (windowOf 0).phys (dirWord 0x8000000 0) &&& 1 = 0 ∧
      (windowOf 0).phys ((windowOf 0).entryWord (dirWord 0x4000000 0) 0) = 7 ∧
      ∃ m', (windowOf 0).copyPageTables 0x4000000 0x8000000 0x100000 = .ok (m', 0) ∧
        m'.phys 32 ≠ (windowOf 0).phys 32 ∧
        ¬ Mem.IsCopy (windowOf 0) m' 0
          (frameOf (m'.phys (m'.entryWord (dirWord 0x8000000 0) 0)))) ∧
    Table ((windowOf 256).phys (dirWord 0x4000000 0)) ∧
      (windowOf 256).phys (dirWord 0x8000000 0) &&& 1 = 0 ∧
      (windowOf 256).phys ((windowOf 256).entryWord (dirWord 0x4000000 0) 0) = 0x100007 ∧
      ∃ m', (windowOf 256).copyPageTables 0x4000000 0x8000000 0x100000 = .ok (m', 0) ∧
        m'.phys (256 * 1024) ≠ (windowOf 256).phys (256 * 1024) := by
  constructor
  · obtain ⟨⟨m', ret⟩, hok, hv⟩ := ok_of_map
      (g := fun r => (r.2, r.1.phys 32,
        r.1.phys (frameOf (r.1.phys (r.1.entryWord (dirWord 0x8000000 0) 0)) * 1024 + 32)))
      (v := (0, 0x100007, 0x100007))
      (x := (windowOf 0).copyPageTables 0x4000000 0x8000000 0x100000) (by decide +kernel)
    simp only [Prod.mk.injEq] at hv
    obtain ⟨rfl, hdir, hcopied⟩ := hv
    refine ⟨by decide, by decide, by decide, m', hok, ?_, fun hc => ?_⟩
    · rw [hdir]
      decide
    · have h32 := hc 32 (by decide)
      rw [hcopied] at h32
      exact absurd h32 (by decide)
  · obtain ⟨⟨m', ret⟩, hok, hv⟩ := ok_of_map (g := fun r => (r.2, r.1.phys (256 * 1024)))
      (v := (0, 0x101007))
      (x := (windowOf 256).copyPageTables 0x4000000 0x8000000 0x100000) (by decide +kernel)
    simp only [Prod.mk.injEq] at hv
    obtain ⟨rfl, hpage⟩ := hv
    refine ⟨by decide, by decide, by decide, m', hok, ?_⟩
    rw [hpage]
    decide

end

end Mm
end CherryOS
