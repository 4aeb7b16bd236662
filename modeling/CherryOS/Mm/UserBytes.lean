import CherryOS.Mm.Teardown
import CherryOS.Mm.Translate

/-!
# The bytes of a window

`Reaches` follows a linear address of a window through the directory and the table to a
byte of memory.  The frame of that byte is one that an entry of the window holds, so a
change to memory that keeps the words of the window, `SameWindow`, keeps every byte that is
read through it.
-/

namespace CherryOS
namespace Mm

open Kernel Lib

namespace Mem

/-- A store of one byte at a physical address. -/
def setByte (m : Mem) (addr : U32) (c : BitVec 8) : Mem :=
  m.setWord (addr.toNat / 4)
    (leWord (Function.update (leByte (m.phys (addr.toNat / 4))) (addr.toNat % 4) c))

/-- The byte at offset `off` of the window of slot `nr` is mapped to the address `a`, by entry
`j` of the table of directory entry `k`. -/
structure Reaches (m : Mem) (nr : Nat) (off a : U32) (k j x : Nat) : Prop where
  offset : Offset off k j x
  table : Table (m.phys (16 * nr + k))
  present : m.phys (m.entryWord (16 * nr + k) j) &&& 1 = 1
  addr : a.toNat = frameOf (m.phys (m.entryWord (16 * nr + k) j)) * 4096 + x

/-- The word belongs to the window of slot `nr`: it is one of its directory entries, or lies in
a frame that one of its entries holds. -/
def WindowWord (union : Fin NUMBER_OF_TASKS → Option Nat) (m : Mem) (nr w : Nat) : Prop :=
  InWindow nr 16 w ∨
    ∃ o d, o.dir = some d ∧ InWindow nr 16 d ∧ holds union m o = some (w / 1024)

/-- The words of the window are the same in both memories. -/
def SameWindow (union : Fin NUMBER_OF_TASKS → Option Nat) (m m' : Mem) (nr : Nat) : Prop :=
  ∀ w, WindowWord union m nr w → m'.phys w = m.phys w

end Mem

open Mem

theorem leByte_leWord (x : Nat → BitVec 8) {k : Nat} (hk : k < 4) : leByte (leWord x) k = x k := by
  refine BitVec.eq_of_getLsbD_eq fun i hi => ?_
  simp only [leWord, leByte, BitVec.getLsbD_setWidth, BitVec.getLsbD_ushiftRight,
    BitVec.getLsbD_append]
  interval_cases k <;> simp [hi, Nat.add_comm]
  all_goals grind

section bytes

variable {m : Mem} {a b : U32} {c : BitVec 8}

theorem setByte_phys_ne {w : Nat} (hw : w ≠ a.toNat / 4) : (m.setByte a c).phys w = m.phys w := by
  rw [setByte, setWord_phys, if_neg hw]

theorem byteAt_setByte_self : (m.setByte a c).byteAt a = c := by
  rw [byteAt, setByte, setWord_phys, if_pos rfl, leByte_leWord _ (by omega), Function.update_self]

theorem byteAt_setByte_ne (h : b ≠ a) : (m.setByte a c).byteAt b = m.byteAt b := by
  by_cases hw : b.toNat / 4 = a.toNat / 4
  · have hx : b.toNat % 4 ≠ a.toNat % 4 := by
      intro hc
      apply h
      apply BitVec.eq_of_toNat_eq
      omega
    rw [byteAt, byteAt, setByte, setWord_phys, if_pos hw, leByte_leWord _ (by omega),
      Function.update_of_ne hx, hw]
  · rw [byteAt, byteAt, setByte_phys_ne hw]

end bytes

section reaches

variable {m m' : Mem} {nr k j x : Nat} {off a : U32} {union : Fin NUMBER_OF_TASKS → Option Nat}

theorem Offset.unique {k' j' x' : Nat} (h : Offset off k j x) (h' : Offset off k' j' x') :
    k = k' ∧ j = j' ∧ x = x' := by
  obtain ⟨hk, hj, hx, hsum⟩ := h
  obtain ⟨hk', hj', hx', hsum'⟩ := h'
  omega

theorem Mem.Reaches.frame (h : m.Reaches nr off a k j x) :
    a.toNat / 4096 = frameOf (m.phys (m.entryWord (16 * nr + k) j)) := by
  have := h.offset.byte
  have := h.addr
  omega

theorem Mem.Reaches.holds (h : m.Reaches nr off a k j x) (hnr : nr < 64)
    (union : Fin NUMBER_OF_TASKS → Option Nat) :
    holds union m (.tabEntry (16 * nr + k) j) = some (a.toNat / 4096) := by
  have hk := h.offset.dir
  rw [holds_tabEntry (by omega) h.offset.tab h.table h.present, h.frame]

/-- In a window whose entries are tables or absent, the page tables map an offset exactly when
it is reached. -/
theorem translate_eq_some (hnr : nr < 64) (hoff : off.toNat < 2 ^ 26)
    (hent : ∀ k < 16, m.phys (16 * nr + k) = 0 ∨ Table (m.phys (16 * nr + k))) :
    m.translate (windowBase nr + off) = some a ↔ ∃ k j x, m.Reaches nr off a k j x := by
  have ho := Offset.of_lt hoff
  have haddr : ∀ k j x (pte : U32), Offset off k j x →
      (pageAddr pte + ((windowBase nr + off) &&& 0xFFF)).toNat = frameOf pte * 4096 + x := by
    intro k j x pte h
    have hlt := frameOf_lt pte
    have hx := h.byte
    rw [BitVec.toNat_add, pageAddr_toNat, h.byteIndex hnr]
    omega
  rcases hent _ ho.dir with h0 | ht
  · have hz : m.phys (16 * nr + off.toNat / 2 ^ 22) &&& 1 = 0 := by
      rw [h0]
      decide
    rw [ho.translate hnr, if_pos hz]
    refine iff_of_false (fun hc => nomatch hc) fun ⟨k, j, x, hr⟩ => ?_
    have ht := hr.table.1
    rw [← (ho.unique hr.offset).1, hz] at ht
    exact absurd ht (by decide)
  · rw [ho.translate_table hnr ht]
    constructor
    · intro h
      split at h
      · rename_i hp
        refine ⟨_, _, _, ho, ht, hp, ?_⟩
        rw [← Option.some.inj h, haddr _ _ _ _ ho]
      · cases h
    · rintro ⟨k, j, x, hr⟩
      obtain ⟨hk, hj, hx⟩ := ho.unique hr.offset
      rw [hk, hj, if_pos hr.present]
      refine congrArg some (BitVec.eq_of_toNat_eq ?_)
      rw [haddr _ _ _ _ hr.offset, hr.addr]

/-! ## What keeps a window -/

theorem Mem.WindowWord.of_dir (hk : k < 16) : m.WindowWord union nr (16 * nr + k) :=
  Or.inl ⟨k, hk, rfl⟩

theorem Mem.WindowWord.of_holds {o : Owner} {w : Nat} (hk : k < 16) (ho : o.dir = some (16 * nr + k))
    (hf : Mm.holds union m o = some (w / 1024)) : m.WindowWord union nr w :=
  Or.inr ⟨o, _, ho, ⟨k, hk, rfl⟩, hf⟩

/-- The table entries of a window are words of it. -/
theorem Mem.WindowWord.of_table (hnr : nr < 64) (hk : k < 16) (hj : j < 1024)
    (ht : Table (m.phys (16 * nr + k))) :
    m.WindowWord union nr (m.entryWord (16 * nr + k) j) := by
  refine .of_holds hk (o := .dirEntry (16 * nr + k)) rfl ?_
  rw [holds_dirEntry (by omega) ht, MmInv.entryWord_frame hj]

/-- So are the words of its pages. -/
theorem Mem.Reaches.word (h : m.Reaches nr off a k j x) (hnr : nr < 64) :
    m.WindowWord union nr (a.toNat / 4) := by
  refine .of_holds h.offset.dir (o := .tabEntry (16 * nr + k) j) rfl ?_
  rw [h.holds hnr, Nat.div_div_eq_div_mul]

theorem Mem.SameWindow.dir (h : SameWindow union m m' nr) (hk : k < 16) :
    m'.phys (16 * nr + k) = m.phys (16 * nr + k) :=
  h _ (.of_dir hk)

theorem Mem.SameWindow.entry (h : SameWindow union m m' nr) (hnr : nr < 64) (hk : k < 16)
    (hj : j < 1024) (ht : Table (m.phys (16 * nr + k))) :
    m'.phys (m'.entryWord (16 * nr + k) j) = m.phys (m.entryWord (16 * nr + k) j) := by
  rw [entryWord_congr (h.dir hk), h _ (.of_table hnr hk hj ht)]

theorem Mem.SameWindow.reaches (h : SameWindow union m m' nr) (hnr : nr < 64) :
    m'.Reaches nr off a k j x ↔ m.Reaches nr off a k j x := by
  constructor
  · rintro ⟨ho, ht, hp, ha⟩
    rw [h.dir ho.dir] at ht
    rw [h.entry hnr ho.dir ho.tab ht] at hp ha
    exact ⟨ho, ht, hp, ha⟩
  · rintro ⟨ho, ht, hp, ha⟩
    have he := h.entry hnr ho.dir ho.tab ht
    exact ⟨ho, by rwa [h.dir ho.dir], by rwa [he], by rwa [he]⟩

theorem Mem.SameWindow.byteAt (h : SameWindow union m m' nr) (hnr : nr < 64)
    (hr : m.Reaches nr off a k j x) : m'.byteAt a = m.byteAt a := by
  rw [Mem.byteAt, h _ (hr.word hnr), Mem.byteAt]

theorem Mem.SameWindow.trans {u : Fin NUMBER_OF_TASKS → Option Nat} {m'' : Mem}
    (h : SameWindow union m m' nr) (h' : SameWindow u m' m'' nr)
    (hw : ∀ w, m.WindowWord union nr w → m'.WindowWord u nr w) : SameWindow union m m'' nr :=
  fun w hmw => (h' w (hw w hmw)).trans (h w hmw)

end reaches

/-! ## What the page tables of one slot do to the window of another -/

namespace MmInv

variable {managed : Nat → Prop} {union : Fin NUMBER_OF_TASKS → Option Nat} {m m' : Mem}
  {nr j w : Nat}

/-- A word of a window from slot 2 on is one of its directory entries or lies in a frame of the
allocator. -/
theorem windowWord (h : MmInv managed union m) (h2 : 2 ≤ j) (hw : m.WindowWord union j w) :
    InWindow j 16 w ∨ ∃ o d, o.dir = some d ∧ InWindow j 16 d ∧
      holds union m o = some (w / 1024) ∧ managed (w / 1024) := by
  refine hw.imp_right fun ⟨o, d, hod, hin, ho⟩ => ⟨o, d, hod, hin, ho, ?_⟩
  refine (h.named o _ ho).resolve_right fun ⟨i, hi⟩ => ?_
  rw [hi] at hod
  cases hod
  obtain ⟨k, hk, heq⟩ := hin
  omega

theorem windowWord_inUse (h : MmInv managed union m) (h2 : 2 ≤ j) (hj : j < 64)
    (hw : m.WindowWord union j w) : m.InUse (w / 1024) := by
  rcases h.windowWord h2 hw with ⟨k, hk, rfl⟩ | ⟨o, d, _, _, ho, hm⟩
  · exact inUse_low m (by omega)
  · exact inUse_of_one (h.memMap_of_holds hm ho)

/-- Below the frames of the allocator only directory entries belong to a window. -/
theorem windowWord_low (h : MmInv managed union m) (h2 : 2 ≤ j) (hw : m.WindowWord union j w)
    (hlow : w < 1024) : InWindow j 16 w := by
  rcases h.windowWord h2 hw with hin | ⟨_, _, _, _, _, hm⟩
  · exact hin
  · have := (h.range _ hm).1
    omega

/-- A table of another slot is not where a word of the window is. -/
theorem windowWord_elsewhere (h : MmInv managed union m) (h2 : 2 ≤ j) (hj : j < 64)
    (hw : m.WindowWord union j w) (hne : j ≠ nr) (hnr : nr < 64) {k : Nat} (hk : k < 16)
    (hent : m.phys (16 * nr + k) = 0 ∨ Table (m.phys (16 * nr + k))) :
    w ≠ 16 * nr + k ∧ Elsewhere w (m.phys (16 * nr + k)) := by
  constructor
  · intro hc
    obtain ⟨l, hl, heq⟩ := h.windowWord_low h2 hw (by omega)
    omega
  · rcases hent with h0 | ht
    · left
      rw [h0]
      decide
    · right
      have hm := h.table_managed (by omega) ht
      have hlo := (h.range _ hm).1
      refine ⟨by omega, fun hc => ?_⟩
      rcases h.windowWord h2 hw with ⟨l, hl, rfl⟩ | ⟨o, d, hod, ⟨l, hl, hd⟩, ho, _⟩
      · omega
      · rw [← hc] at ho
        have := h.balanced.alone _ _ _ hm ho (holds_dirEntry (by omega) ht)
        rw [this] at hod
        have : 16 * nr + k = d := Option.some.inj hod
        omega

/-- A teardown leaves the windows of the other slots alone. -/
theorem freePageTables_same (h : MmInv managed union m) (hnr : nr < 64) {size : U32}
    (hsize : nrOfDirEnt size ≤ 16)
    (hent : ∀ k < nrOfDirEnt size, m.phys (16 * nr + k) = 0 ∨ Table (m.phys (16 * nr + k)))
    (hok : m.freePageTables (windowBase nr) size = .ok m') (h2 : 2 ≤ j) (hj : j < 64)
    (hne : j ≠ nr) : SameWindow union m m' j := by
  intro w hw
  refine freePageTables_phys hnr hsize hok fun k hk => ?_
  exact h.windowWord_elsewhere h2 hj hw hne hnr (by omega) (hent k hk)

/-- A copy leaves them alone, whether it runs out of frames or not. -/
theorem copyPageTables_same (h : MmInv managed union m) (hnr : nr < 64) {a size : U32}
    (hsize : nrOfDirEnt size ≤ 16) {ret : Int32}
    (hok : m.copyPageTables a (windowBase nr) size = .ok (m', ret)) (h2 : 2 ≤ j) (hj : j < 64)
    (hne : j ≠ nr) : SameWindow union m m' j := by
  intro w hw
  obtain ⟨_, hfroz⟩ := copyDirEnts_frozen (copyDirEnts_of_copyPageTables hok)
  refine hfroz w (h.windowWord_inUse h2 hj hw) fun k hk hc => ?_
  have hk := List.mem_range.mp hk
  rw [wordAt_window hnr] at hc
  obtain ⟨l, hl, heq⟩ := h.windowWord_low h2 hw (by omega)
  omega

/-- So does the making of the table of task 1. -/
theorem initTask1Paging_same (h : MmInv managed union m) (hok : m.initTask1Paging = .ok m')
    (h2 : 2 ≤ j) (hj : j < 64) : SameWindow union m m' j := by
  intro w hw
  unfold Mem.initTask1Paging at hok
  split at hok
  · cases hok
  · rename_i page m₁ hpage
    obtain ⟨f, hlo, hhi, h0, rfl, rfl⟩ := getFreePage_some hpage
    obtain ⟨_, hphys⟩ := foldl_setWord (m.taken f) (f * 1024) (1024 / 4)
      (fun i => BitVec.ofNat 32 (i * 0x1000) ||| 7) (frameAddr f) (wordAt_frame hhi)
    have hf := (h.windowWord_inUse h2 hj hw).ne_free hlo hhi h0
    have h16 : w ≠ 16 := by
      intro hc
      obtain ⟨l, hl, heq⟩ := h.windowWord_low h2 hw (by omega)
      omega
    have hout : ¬ (f * 1024 ≤ w ∧ w < f * 1024 + 1024 / 4) := by omega
    rw [← Except.ok.inj hok, setWord_phys, if_neg h16, hphys, if_neg hout, taken_phys hf]

/-- And the taking of a free frame. -/
theorem taken_same (h : MmInv managed union m) {f : Nat} (hlo : 256 ≤ f) (hhi : f < 4096)
    (h0 : m.memMap (f - 256) = 0) (h2 : 2 ≤ j) (hj : j < 64) :
    SameWindow union m (m.taken f) j :=
  fun _ hw => taken_phys ((h.windowWord_inUse h2 hj hw).ne_free hlo hhi h0)

end MmInv

end Mm
end CherryOS
