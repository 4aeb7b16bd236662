import CherryOS.Mm.Copying

/-!
# Runs of the page allocator

`get_free_page` and `free_page` called in any order after `mem_init`, with memory stored to
between the calls at will.  `free_page` counts a frame down whatever its count means, so a
frame that does not exist is taken back without a word.
-/

namespace CherryOS
namespace Mm

open Kernel

inductive Call
  | get
  | free (addr : U32)

/-- The address of a frame above 1 MB. -/
structure IsPage (addr : U32) : Prop where
  aligned : 4096 ∣ addr.toNat
  low : LOW_MEM ≤ addr.toNat
  high : addr.toNat < LOW_MEM + EXT_MEM_SIZE_LIMIT

/-- Memory after calls that started with the counts `map`, and the pages that were handed out
and not taken back.  A call that panics is the last. -/
inductive Served (map : Nat → BitVec 8) : List Call → Mem → Set U32 → Prop
  | init (phys : Nat → U32) : Served map [] { memMap := map, phys := phys } ∅
  | store {calls : List Call} {m : Mem} {held : Set U32} (phys : Nat → U32)
      (h : Served map calls m held) : Served map calls { m with phys := phys } held
  | got {calls : List Call} {m m' : Mem} {held : Set U32} {page : U32}
      (h : Served map calls m held) (hget : m.getFreePage = some (page, m')) :
      Served map (calls ++ [.get]) m' (insert page held)
  | full {calls : List Call} {m : Mem} {held : Set U32} (h : Served map calls m held)
      (hget : m.getFreePage = none) : Served map (calls ++ [.get]) m held
  | freed {calls : List Call} {m m' : Mem} {held : Set U32} {addr : U32}
      (h : Served map calls m held) (hfree : Mem.freePage addr m = .ok m') :
      Served map (calls ++ [.free addr]) m' (held \ {addr})

namespace Call

/-- A page is handed out that is one of the allocator's, free and zeroed; a page that is not
handed out is not taken back. -/
def Right (startMem endMem : U32) (m : Mem) (held : Set U32) : Call → Prop
  | .get => ∀ page m', m.getFreePage = some (page, m') →
      startMem.toNat ≤ page.toNat ∧ page.toNat + PAGE_SIZE ≤ endMem.toNat ∧ page ∉ held ∧
        ∀ w, w / 1024 = page.toNat / PAGE_SIZE → m'.phys w = 0
  | .free addr => addr ∉ held → ∃ msg, Mem.freePage addr m = .error (.panic msg)

/-- A page is asked for where memory starts with a page, and given back where it was. -/
def Within (startMem endMem : U32) : Call → Prop
  | .get => PAGE_SIZE ∣ startMem.toNat ∨ endMem.toNat / PAGE_SIZE ≤ startMem.toNat / PAGE_SIZE
  | .free addr => startMem.toNat / PAGE_SIZE ≤ addr.toNat / PAGE_SIZE ∧
      addr.toNat / PAGE_SIZE < endMem.toNat / PAGE_SIZE

end Call

/-! ## Frames and their counts -/

theorem mapIndex_eq {addr : U32} (h : LOW_MEM ≤ addr.toNat) :
    mapIndex addr = addr.toNat / PAGE_SIZE - 256 := by
  have hlow : LOW_MEM = 0x100000 := rfl
  have hpage : PAGE_SIZE = 4096 := rfl
  have hlt := addr.isLt
  rw [mapIndex, BitVec.toNat_udiv, BitVec.toNat_sub, BitVec.toNat_ofNat, hlow, hpage]
  show (2 ^ 32 - 0x100000 % 2 ^ 32 + addr.toNat) % 2 ^ 32 / 4096 = _
  omega

theorem IsPage.eq_frameAddr {addr : U32} (h : IsPage addr) :
    ∃ f, 256 ≤ f ∧ f < 4096 ∧ addr = Mem.frameAddr f := by
  obtain ⟨haligned, hlow, hhigh⟩ := h
  have hends : LOW_MEM = 0x100000 ∧ LOW_MEM + EXT_MEM_SIZE_LIMIT = 0x1000000 := ⟨rfl, rfl⟩
  refine ⟨addr.toNat / 4096, by omega, by omega, BitVec.eq_of_toNat_eq ?_⟩
  rw [Mem.frameAddr_toNat (by omega), Nat.div_mul_cancel haligned]

theorem frameAddr_inj {f g : Nat} (hf : f < 4096) (hg : g < 4096)
    (h : Mem.frameAddr f = Mem.frameAddr g) : f = g := by
  have hnat := congrArg BitVec.toNat h
  rw [Mem.frameAddr_toNat hf, Mem.frameAddr_toNat hg] at hnat
  omega

theorem frameAddr_page {f : Nat} (hf : f < 4096) : (Mem.frameAddr f).toNat / PAGE_SIZE = f := by
  rw [Mem.frameAddr_toNat hf]
  exact Nat.mul_div_cancel f (by decide)

namespace Mem

/-- `free_page` of a frame above 1 MB counts it down if its count is not 0. -/
theorem freePage_frame (m : Mem) {f : Nat} (hlo : 256 ≤ f) (hhi : f < 4096) :
    freePage (frameAddr f) m =
      if 1 ≤ m.memMap (f - 256) then
        .ok { m with memMap := Function.update m.memMap (f - 256) (m.memMap (f - 256) - 1) }
      else .error (.panic "free addr bad map\n") := by
  have haddr := frameAddr_toNat hhi
  have hends : LOW_MEM = 0x100000 ∧ LOW_MEM + EXT_MEM_SIZE_LIMIT = 0x1000000 := ⟨rfl, rfl⟩
  have hindex : mapIndex (frameAddr f) = f - 256 := by
    rw [mapIndex_eq (by omega), frameAddr_page hhi]
  rw [freePage, if_neg (by omega), if_neg (by omega), hindex]

/-- `get_free_page` takes the first frame with the count 0. -/
theorem getFreePage_first {m : Mem} {f : Nat} (hlo : 256 ≤ f) (hhi : f < 4096)
    (hfree : m.memMap (f - 256) = 0) (hfirst : ∀ g, 256 ≤ g → g < f → m.memMap (g - 256) ≠ 0) :
    m.getFreePage = some (frameAddr f, m.taken f) := by
  have hfind : mapIndices.find? (fun i => m.memMap i = 0) = some (f - 256) := by
    unfold mapIndices
    refine List.find?_range_eq_some.mpr ⟨by simpa using hfree, ?_, fun j hj => ?_⟩
    · exact List.mem_range.mpr (by show f - 256 < 3840; omega)
    · have hne := hfirst (j + 256) (by omega) (by omega)
      rw [Nat.add_sub_cancel] at hne
      simpa using hne
  have haddr : m.getFreePage.map Prod.fst = some (BitVec.ofNat 32 (0x1000 * (f - 256) + LOW_MEM)) := by
    rw [getFreePage, hfind]
    rfl
  obtain ⟨-, hnone⟩ | ⟨g, hglo, hghi, hg, hsome⟩ := m.getFreePage_cases
  · exact absurd hfree (hnone f hlo hhi)
  · rw [hsome] at haddr
    have hsum : 0x1000 * (f - 256) + LOW_MEM = f * 4096 := by
      unfold LOW_MEM
      omega
    rw [hsum] at haddr
    have hgf : g = f := frameAddr_inj hghi hhi (Option.some.inj haddr)
    rw [hsome, hgf]

end Mem

/-! ## The counts of a run -/

section
variable {startMem endMem : U32} {m m' : Mem} {held : Set U32} {f : Nat} {page : U32}

/-- The frames that `mem_init` puts into the allocator. -/
def Managed (startMem endMem : U32) (f : Nat) : Prop :=
  startMem.toNat / PAGE_SIZE ≤ f ∧ f < endMem.toNat / PAGE_SIZE

/-- The allocator's frames have the count 1 while they are handed out, and 0 else; no other
frame is touched. -/
structure Counted (startMem endMem : U32) (m : Mem) (held : Set U32) : Prop where
  managed : ∀ f, 256 ≤ f → f < 4096 → Managed startMem endMem f →
    m.memMap (f - 256) = 0 ∧ Mem.frameAddr f ∉ held ∨ m.memMap (f - 256) = 1 ∧ Mem.frameAddr f ∈ held
  other : ∀ f, 256 ≤ f → f < 4096 → ¬ Managed startMem endMem f →
    m.memMap (f - 256) = NOT_EXIST ∧ Mem.frameAddr f ∉ held

theorem Counted.of_managed {lowMem highMem : U32} (hin : ∀ f, 256 ≤ f → f < 4096 →
      (mapIndex lowMem ≤ f - 256 ∧ f - 256 < mapIndex highMem ↔ Managed startMem endMem f))
    (phys : Nat → U32) :
    Counted startMem endMem { memMap := Mem.memInit lowMem highMem, phys := phys } ∅ := by
  constructor
  · intro f hlo hhi hf
    exact Or.inl ⟨if_pos ((hin f hlo hhi).mpr hf), Set.notMem_empty _⟩
  · intro f hlo hhi hf
    exact ⟨if_neg (mt (hin f hlo hhi).mp hf), Set.notMem_empty _⟩

theorem Counted.memInit (hlow : LOW_MEM ≤ startMem.toNat) (hle : startMem ≤ endMem)
    (phys : Nat → U32) :
    Counted startMem endMem { memMap := Mem.memInit startMem endMem, phys := phys } ∅ := by
  have hle' : startMem.toNat ≤ endMem.toNat := hle
  have hpage : LOW_MEM = 0x100000 ∧ PAGE_SIZE = 4096 := ⟨rfl, rfl⟩
  refine Counted.of_managed (fun f hf _ => ?_) phys
  rw [mapIndex_eq hlow, mapIndex_eq (by omega), Managed]
  omega

/-- A frame is free exactly if it is the allocator's and not handed out. -/
theorem Counted.free_iff (h : Counted startMem endMem m held) (hlo : 256 ≤ f) (hhi : f < 4096) :
    m.memMap (f - 256) = 0 ↔ Managed startMem endMem f ∧ Mem.frameAddr f ∉ held := by
  by_cases hf : Managed startMem endMem f
  · obtain ⟨h0, hno⟩ | ⟨h1, hin⟩ := h.managed f hlo hhi hf
    · exact iff_of_true h0 ⟨hf, hno⟩
    · refine iff_of_false ?_ fun hc => hc.2 hin
      rw [h1]
      decide
  · refine iff_of_false ?_ fun hc => hf hc.1
    rw [(h.other f hlo hhi hf).1]
    decide

/-- The count of one of the allocator's frames changes. -/
theorem Counted.update (h : Counted startMem endMem m held) {held' : Set U32} {v : BitVec 8}
    (hlo : 256 ≤ f) (hhi : f < 4096) (hf : Managed startMem endMem f)
    (hmap : m'.memMap = Function.update m.memMap (f - 256) v)
    (hat : v = 0 ∧ Mem.frameAddr f ∉ held' ∨ v = 1 ∧ Mem.frameAddr f ∈ held')
    (hheld : ∀ g, g < 4096 → g ≠ f → (Mem.frameAddr g ∈ held' ↔ Mem.frameAddr g ∈ held)) :
    Counted startMem endMem m' held' := by
  have hsame : ∀ g, 256 ≤ g → g ≠ f → m'.memMap (g - 256) = m.memMap (g - 256) := by
    intro g hg hne
    rw [hmap, Function.update_of_ne (by omega)]
  constructor
  · intro g hglo hghi hg
    by_cases hgf : g = f
    · rw [hgf, hmap, Function.update_self]
      exact hat
    · rw [hsame g hglo hgf, hheld g hghi hgf]
      exact h.managed g hglo hghi hg
  · intro g hglo hghi hg
    have hgf : g ≠ f := by
      rintro rfl
      exact hg hf
    rw [hsame g hglo hgf, hheld g hghi hgf]
    exact h.other g hglo hghi hg

theorem Counted.taken (h : Counted startMem endMem m held) (hlo : 256 ≤ f) (hhi : f < 4096)
    (hfree : m.memMap (f - 256) = 0) :
    Counted startMem endMem (m.taken f) (insert (Mem.frameAddr f) held) := by
  obtain ⟨hf, -⟩ := (h.free_iff hlo hhi).mp hfree
  refine h.update hlo hhi hf (m.taken_memMap f) (Or.inr ⟨rfl, Set.mem_insert _ _⟩) fun g hg hne => ?_
  exact Set.mem_insert_iff.trans (or_iff_right fun heq => hne (frameAddr_inj hg hhi heq))

theorem Counted.released (h : Counted startMem endMem m held) (hlo : 256 ≤ f) (hhi : f < 4096)
    (hf : Managed startMem endMem f) :
    Counted startMem endMem (m.released f) (held \ {Mem.frameAddr f}) := by
  refine h.update (v := 0) hlo hhi hf rfl (Or.inl ⟨rfl, fun hc => hc.2 rfl⟩) fun g hg hne => ?_
  exact and_iff_left_of_imp fun _ heq => hne (frameAddr_inj hg hhi heq)

theorem Counted.got (h : Counted startMem endMem m held) (hget : m.getFreePage = some (page, m')) :
    Counted startMem endMem m' (insert page held) := by
  obtain ⟨f, hlo, hhi, hfree, rfl, rfl⟩ := Mem.getFreePage_some hget
  exact h.taken hlo hhi hfree

/-- What `free_page` does with a frame of the allocator. -/
theorem Counted.freePage (h : Counted startMem endMem m held) (hlo : 256 ≤ f) (hhi : f < 4096)
    (hf : Managed startMem endMem f) :
    Mem.frameAddr f ∉ held ∧ Mem.freePage (Mem.frameAddr f) m = .error (.panic "free addr bad map\n") ∨
      Mem.frameAddr f ∈ held ∧ Mem.freePage (Mem.frameAddr f) m = .ok (m.released f) := by
  obtain ⟨h0, hno⟩ | ⟨h1, hin⟩ := h.managed f hlo hhi hf
  · refine Or.inl ⟨hno, ?_⟩
    rw [m.freePage_frame hlo hhi, h0]
    exact if_neg (by decide)
  · refine Or.inr ⟨hin, ?_⟩
    rw [m.freePage_frame hlo hhi, h1]
    exact if_pos (by decide)

/-- Any other frame is taken back, though it was never handed out. -/
theorem Counted.freePage_other (h : Counted startMem endMem m held) (hlo : 256 ≤ f) (hhi : f < 4096)
    (hf : ¬ Managed startMem endMem f) :
    Mem.frameAddr f ∉ held ∧ ∃ m', Mem.freePage (Mem.frameAddr f) m = .ok m' := by
  obtain ⟨hcount, hno⟩ := h.other f hlo hhi hf
  rw [m.freePage_frame hlo hhi, hcount, if_pos (by decide)]
  exact ⟨hno, _, rfl⟩

theorem Counted.freed (h : Counted startMem endMem m held) {addr : U32} (hpage : IsPage addr)
    (hin : (Call.free addr).Within startMem endMem) (hfree : Mem.freePage addr m = .ok m') :
    Counted startMem endMem m' (held \ {addr}) := by
  obtain ⟨f, hlo, hhi, rfl⟩ := hpage.eq_frameAddr
  rw [Call.Within, frameAddr_page hhi] at hin
  obtain ⟨-, hpanic⟩ | ⟨-, hok⟩ := h.freePage hlo hhi hin
  · rw [hpanic] at hfree
    cases hfree
  · rw [hok] at hfree
    cases hfree
    exact h.released hlo hhi hin

end

/-! ## What holds of a run -/

section
variable {startMem endMem : U32} {map : Nat → BitVec 8} {calls : List Call} {m : Mem}
  {held : Set U32}

/-- As long as the calls stay within the allocator's frames its counts are right. -/
theorem Served.counted (h : Served map calls m held)
    (hmap : ∀ phys, Counted startMem endMem { memMap := map, phys := phys } ∅)
    (hpages : ∀ addr, Call.free addr ∈ calls → IsPage addr)
    (hwithin : ∀ before c m held, before ++ [c] <+: calls → Served map before m held →
      c.Within startMem endMem) : Counted startMem endMem m held := by
  induction h with
  | init phys => exact hmap phys
  | store phys _ ih =>
    have hc := ih hpages hwithin
    exact ⟨hc.managed, hc.other⟩
  | got _ hget ih =>
    exact (ih (fun a ha => hpages a (List.mem_append_left _ ha))
      fun b c m held hb => hwithin b c m held (hb.trans (List.prefix_append _ _))).got hget
  | full _ _ ih =>
    exact ih (fun a ha => hpages a (List.mem_append_left _ ha))
      fun b c m held hb => hwithin b c m held (hb.trans (List.prefix_append _ _))
  | @freed calls m m' held addr hrun hfree ih =>
    have hc := ih (fun a ha => hpages a (List.mem_append_left _ ha))
      fun b c m held hb => hwithin b c m held (hb.trans (List.prefix_append _ _))
    exact hc.freed (hpages addr (List.mem_append_right _ List.mem_cons_self))
      (hwithin calls (.free addr) m held (List.prefix_refl _) hrun) hfree

/-- With right counts a call within the allocator's frames does what it should. -/
theorem Counted.right (h : Counted startMem endMem m held) {c : Call}
    (hpage : ∀ addr, c = .free addr → IsPage addr) (hc : c.Within startMem endMem) :
    c.Right startMem endMem m held := by
  cases c with
  | get =>
    intro page m' hget
    obtain ⟨f, hlo, hhi, hfree, rfl, rfl⟩ := Mem.getFreePage_some hget
    obtain ⟨⟨hstart, hend⟩, hno⟩ := (h.free_iff hlo hhi).mp hfree
    have hsize : PAGE_SIZE = 4096 := rfl
    rw [hsize] at hstart hend ⊢
    have haligned : 4096 ∣ startMem.toNat := hc.resolve_right (by rw [hsize]; omega)
    rw [Mem.frameAddr_toNat hhi]
    refine ⟨by omega, by omega, hno, fun w hw => ?_⟩
    rw [Nat.mul_div_cancel f (by decide)] at hw
    exact if_pos hw
  | free addr =>
    intro hno
    obtain ⟨f, hlo, hhi, rfl⟩ := (hpage addr rfl).eq_frameAddr
    have hf : Managed startMem endMem f := by
      rwa [Call.Within, frameAddr_page hhi] at hc
    obtain ⟨-, hpanic⟩ | ⟨hin, -⟩ := h.freePage hlo hhi hf
    · exact ⟨_, hpanic⟩
    · exact absurd hin hno

/-- A call that goes right stays within the allocator's frames, as long as no page was handed
out that begins before memory does. -/
theorem Counted.within (h : Counted startMem endMem m held) (hlow : LOW_MEM ≤ startMem.toNat)
    (hhigh : endMem.toNat ≤ 16 * 1024 * 1024)
    (hnone : ¬ Call.get.Within startMem endMem → held = ∅) {c : Call}
    (hpage : ∀ addr, c = .free addr → IsPage addr) (hc : c.Right startMem endMem m held) :
    c.Within startMem endMem := by
  have hends : LOW_MEM = 0x100000 ∧ PAGE_SIZE = 4096 := ⟨rfl, rfl⟩
  by_contra hnot
  cases c with
  | get =>
    obtain ⟨hunaligned, hroom⟩ := not_or.mp hnot
    obtain ⟨f, hf⟩ : ∃ f, f = startMem.toNat / PAGE_SIZE := ⟨_, rfl⟩
    rw [hnone hnot] at h hc
    rw [← hf] at hroom
    rw [hends.2] at hunaligned hroom hf
    have hfree : m.memMap (f - 256) = 0 :=
      (h.free_iff (by omega) (by omega)).mpr ⟨⟨hf.ge, Nat.not_le.mp hroom⟩, Set.notMem_empty _⟩
    have hfirst : ∀ g, 256 ≤ g → g < f → m.memMap (g - 256) ≠ 0 := fun g hglo hg h0 =>
      absurd ((h.free_iff hglo (by omega)).mp h0).1.1 (by rw [hends.2]; omega)
    obtain ⟨hstart, -⟩ := hc _ _ (Mem.getFreePage_first (by omega) (by omega) hfree hfirst)
    rw [Mem.frameAddr_toNat (by omega)] at hstart
    omega
  | free addr =>
    obtain ⟨f, hlo, hhi, rfl⟩ := (hpage addr rfl).eq_frameAddr
    rw [Call.Within, frameAddr_page hhi] at hnot
    obtain ⟨hno, m', hok⟩ := h.freePage_other hlo hhi hnot
    obtain ⟨msg, hpanic⟩ := hc hno
    rw [hok] at hpanic
    cases hpanic

/-- The calls of a run that goes right stay within the allocator's frames. -/
theorem Served.within (h : Served map calls m held)
    (hmap : ∀ phys, Counted startMem endMem { memMap := map, phys := phys } ∅)
    (hlow : LOW_MEM ≤ startMem.toNat) (hhigh : endMem.toNat ≤ 16 * 1024 * 1024)
    (hpages : ∀ addr, Call.free addr ∈ calls → IsPage addr)
    (hright : ∀ before c m held, before ++ [c] <+: calls → Served map before m held →
      c.Right startMem endMem m held) :
    Counted startMem endMem m held ∧ (¬ Call.get.Within startMem endMem → held = ∅) := by
  induction h with
  | init phys => exact ⟨hmap phys, fun _ => rfl⟩
  | store phys _ ih =>
    obtain ⟨hc, hnone⟩ := ih hpages hright
    exact ⟨⟨hc.managed, hc.other⟩, hnone⟩
  | @got calls m m' held page hrun hget ih =>
    obtain ⟨hc, hnone⟩ := ih (fun a ha => hpages a (List.mem_append_left _ ha))
      fun b c m held hb => hright b c m held (hb.trans (List.prefix_append _ _))
    have hget' := hc.within hlow hhigh hnone (fun _ h => Call.noConfusion h)
      (hright calls .get m held (List.prefix_refl _) hrun)
    exact ⟨hc.got hget, fun hnot => absurd hget' hnot⟩
  | full _ _ ih =>
    exact ih (fun a ha => hpages a (List.mem_append_left _ ha))
      fun b c m held hb => hright b c m held (hb.trans (List.prefix_append _ _))
  | @freed calls m m' held addr hrun hfree ih =>
    obtain ⟨hc, hnone⟩ := ih (fun a ha => hpages a (List.mem_append_left _ ha))
      fun b c m held hb => hright b c m held (hb.trans (List.prefix_append _ _))
    have hpage := hpages addr (List.mem_append_right _ List.mem_cons_self)
    have hin := hc.within hlow hhigh hnone (fun a ha => Call.free.inj ha ▸ hpage)
      (hright calls (.free addr) m held (List.prefix_refl _) hrun)
    refine ⟨hc.freed hpage hin hfree, fun hnot => ?_⟩
    rw [hnone hnot, Set.empty_sdiff]

/-- The allocator does what it should exactly as long as only its own frames are given back
and, if memory does not start with a page, none is asked for. -/
theorem allocator_right_iff (startMem endMem : U32) (hlow : LOW_MEM ≤ startMem.toNat)
    (hle : startMem ≤ endMem) (hhigh : endMem.toNat ≤ 16 * 1024 * 1024) (calls : List Call)
    (hpages : ∀ addr, Call.free addr ∈ calls → IsPage addr) :
    (∀ before c m held, before ++ [c] <+: calls →
        Served (Mem.memInit startMem endMem) before m held → c.Right startMem endMem m held) ↔
      ∀ before c m held, before ++ [c] <+: calls →
        Served (Mem.memInit startMem endMem) before m held → c.Within startMem endMem := by
  have hpages' : ∀ {before c}, before ++ [c] <+: calls →
      (∀ addr, Call.free addr ∈ before → IsPage addr) ∧ ∀ addr, c = .free addr → IsPage addr := by
    intro before c hb
    refine ⟨fun a ha => hpages a (hb.subset (List.mem_append_left _ ha)), fun a ha => ?_⟩
    exact hpages a (hb.subset (List.mem_append_right _ (by rw [ha]; exact List.mem_cons_self)))
  constructor
  · intro hright before c m held hb hrun
    obtain ⟨hc, hnone⟩ := hrun.within (Counted.memInit hlow hle) hlow hhigh (hpages' hb).1
      fun b c m held hb' => hright b c m held (hb'.trans ((List.prefix_append _ _).trans hb))
    exact hc.within hlow hhigh hnone (hpages' hb).2 (hright before c m held hb hrun)
  · intro hwithin before c m held hb hrun
    have hc := hrun.counted (Counted.memInit hlow hle) (hpages' hb).1 fun b c m held hb' =>
      hwithin b c m held (hb'.trans ((List.prefix_append _ _).trans hb))
    exact hc.right (hpages' hb).2 (hwithin before c m held hb hrun)

/-- The page that was handed out is taken back once; the second time is a panic. -/
theorem allocator_right_freed :
    ∃ m, Served (Mem.memInit 0x400000 0x1000000) [.get, .free 0x400000] m ∅ ∧
      ∃ msg, Mem.freePage 0x400000 m = .error (.panic msg) := by
  obtain ⟨m, hm⟩ : ∃ m : Mem, m = { memMap := Mem.memInit 0x400000 0x1000000, phys := fun _ => 0 } :=
    ⟨_, rfl⟩
  have hcount : Counted 0x400000 0x1000000 m ∅ := hm ▸ Counted.memInit (by decide) (by decide) _
  have hin : Managed 0x400000 0x1000000 1024 := ⟨by decide, by decide⟩
  have hfree : m.memMap (1024 - 256) = 0 :=
    (hcount.free_iff (by decide) (by decide)).mpr ⟨hin, Set.notMem_empty _⟩
  have hget : m.getFreePage = some (0x400000, m.taken 1024) := by
    refine Mem.getFreePage_first (f := 1024) (by decide) (by decide) hfree fun g hlo hg h0 => ?_
    obtain ⟨⟨hstart, -⟩, -⟩ := (hcount.free_iff hlo (by omega)).mp h0
    exact absurd hg (Nat.not_lt.mpr hstart)
  have hgot : Served (Mem.memInit 0x400000 0x1000000) [.get] (m.taken 1024) {0x400000} := by
    rw [← LawfulSingleton.insert_empty_eq]
    have hinit : Served (Mem.memInit 0x400000 0x1000000) [] m ∅ := hm ▸ .init _
    exact hinit.got hget
  have hback : Mem.freePage 0x400000 (m.taken 1024) = .ok ((m.taken 1024).released 1024) := by
    have htaken := hcount.taken (by decide) (by decide) hfree
    obtain ⟨hno, -⟩ | ⟨-, hok⟩ := htaken.freePage (by decide) (by decide) hin
    · exact absurd (Set.mem_insert _ _) hno
    · exact hok
  have hrun : Served (Mem.memInit 0x400000 0x1000000) [.get, .free 0x400000]
      ((m.taken 1024).released 1024) ∅ := by
    rw [← Set.sdiff_self (s := {0x400000})]
    exact hgot.freed hback
  refine ⟨_, hrun, ?_⟩
  have hright := (allocator_right_iff 0x400000 0x1000000 (by decide) (by decide) (by decide)
    [.get, .free 0x400000, .free 0x400000] ?_).mpr ?_ _ (.free 0x400000) _ _ (List.prefix_refl _) hrun
  · exact hright (Set.notMem_empty _)
  · intro addr haddr
    obtain rfl : addr = 0x400000 := by simpa using haddr
    constructor <;> decide
  · intro before c m held hb _
    have hc : c ∈ [Call.get, .free 0x400000, .free 0x400000] :=
      hb.subset (List.mem_append_right _ List.mem_cons_self)
    obtain rfl | rfl : c = .get ∨ c = .free 0x400000 := by simpa using hc
    · exact Or.inl (by decide)
    · exact ⟨by decide, by decide⟩

end

/-- The first frame of the buffer cache counts down with each time it is given back. -/
theorem served_free_again (n : Nat) (hn : n ≤ 100) :
    ∃ m, Served (Mem.memInit 0x400000 0x1000000) (List.replicate n (.free 0x100000)) m ∅ ∧
      m.memMap 0 = BitVec.ofNat 8 (100 - n) := by
  induction n with
  | zero => exact ⟨_, .init fun _ => 0, by decide +kernel⟩
  | succ n ih =>
    obtain ⟨m, hrun, hcount⟩ := ih (by omega)
    have hpos : 1 ≤ m.memMap 0 := by
      rw [hcount, BitVec.le_def, BitVec.toNat_ofNat]
      show 1 ≤ (100 - n) % 256
      omega
    have hfree := (m.freePage_frame (f := 256) (le_refl _) (by decide)).trans (if_pos hpos)
    have hnext := hrun.freed hfree
    rw [Set.empty_sdiff] at hnext
    refine ⟨_, List.replicate_succ' ▸ hnext, ?_⟩
    · show Function.update m.memMap 0 (m.memMap 0 - 1) 0 = _
      rw [Function.update_self, hcount]
      refine BitVec.eq_of_toNat_eq ?_
      rw [BitVec.toNat_sub, BitVec.toNat_ofNat, BitVec.toNat_ofNat]
      show (2 ^ 8 - 1 + (100 - n) % 2 ^ 8) % 2 ^ 8 = (100 - (n + 1)) % 2 ^ 8
      omega

/-- A frame of the buffer cache is taken back, and after a hundred times it is handed out. -/
theorem free_of_buffer_frame :
    (∃ m, Served (Mem.memInit 0x400000 0x1000000) [] m ∅ ∧
        ¬ (Call.free 0x100000).Right 0x400000 0x1000000 m ∅) ∧
      ∃ m m', Served (Mem.memInit 0x400000 0x1000000) (List.replicate 100 (.free 0x100000)) m ∅ ∧
        m.getFreePage = some (0x100000, m') := by
  constructor
  · refine ⟨_, .init fun _ => 0, fun hright => ?_⟩
    obtain ⟨msg, hpanic⟩ := hright (Set.notMem_empty _)
    rw [show (0x100000 : U32) = Mem.frameAddr 256 from rfl,
      Mem.freePage_frame _ (le_refl _) (by decide), if_pos (by decide +kernel)] at hpanic
    cases hpanic
  · obtain ⟨m, hrun, hcount⟩ := served_free_again 100 (le_refl _)
    exact ⟨m, _, hrun, m.getFreePage_first (f := 256) (le_refl _) (by decide) hcount
      fun g hlo hg => absurd hg (Nat.not_lt.mpr hlo)⟩

end Mm
end CherryOS
