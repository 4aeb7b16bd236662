import CherryOS.Boot.Setup
import CherryOS.Kernel.Frames
import CherryOS.Kernel.Gate

/-!
# The first code of the kernel

`head.s` fills the interrupt table with one gate, clears the page its own first part is in,
makes that page the page directory, and jumps to `main`.  The descriptor registers and the
control registers are not modelled.

With the boot sector and `setup.s` before it this is the way from the disk to `main`: the
sectors of the kernel are at address 0, and memory is as the kernel is taken to start in.
-/

namespace CherryOS
namespace Boot

open Lib Kernel Mm

/-- Where the linker has put things: `idt` comes after the 0x2000 bytes of padding. -/
structure HeadLink where
  idt : Word
  unknownInterrupt : Word
  deadLoop : Word
  after : 0x2000 ≤ idt.toNat
  within : idt.toNat + 2048 ≤ 2 ^ 32
  low : unknownInterrupt.toNat < 2 ^ 16

/-- One turn of `do_setup_idt`, with `n` in `ecx / 8`. -/
def setupGate (link : HeadLink) (n : Nat) (m : Bytes32) : Bytes32 :=
  let m := writeWord m (link.idt + BitVec.ofNat 32 (8 * n)) (0x00080000 + link.unknownInterrupt)
  writeWord m (link.idt + BitVec.ofNat 32 (8 * n) + 4) 0x00008E00

/-- `do_setup_idt` for the first `n` gates. -/
def setupIdt (link : HeadLink) (m : Bytes32) : Nat → Bytes32
  | 0 => m
  | n + 1 => setupGate link n (setupIdt link m n)

/-- `setup_pagging` from the `cld` to the last entry. -/
def pageDirEntries (m : Bytes32) : Bytes32 :=
  let m := stores 4 (fun i => BitVec.ofNat 32 (4 * i)) (fun _ => 0) m (0x1000 / 4)
  let m := writeWord m 0 0x00000087
  let m := writeWord m 4 0x00400087
  let m := writeWord m 8 0x00800087
  writeWord m 12 0x00C00087

/-- `_start` up to the jump to `main`; `edx` is what `cpuid` returns.  The stack starts at
0x2000. -/
def head (link : HeadLink) (edx : Word) (m : Bytes32) : Option Bytes32 :=
  let m := setupIdt link m 256
  if edx &&& 8 = 8 then some (writeWord (pageDirEntries m) (0x2000 - 4) link.deadLoop) else none

/-- The gate at a vector of the table in memory. -/
def gateAt (m : Bytes32) (idt : Word) (v : Nat) : SegDesc where
  low32 := readWord m (idt + BitVec.ofNat 32 (8 * v))
  high32 := readWord m (idt + BitVec.ofNat 32 (8 * v) + 4)

/-! ## The page directory -/

section
variable {m m' : Bytes32} {a p : Word}

theorem pageDirEntries_away (m : Bytes32) (hp : 0x1000 ≤ p.toNat) : pageDirEntries m p = m p := by
  have hentry : ∀ (m : Bytes32) (a v : Word), a.toNat < 16 → writeWord m a v p = m p := by
    intro m a v ha
    apply writeWord_apply
    have hlt := p.isLt
    rw [BitVec.toNat_sub]
    omega
  rw [pageDirEntries, hentry _ _ _ (by decide), hentry _ _ _ (by decide), hentry _ _ _ (by decide),
    hentry _ _ _ (by decide), stores_eq_copyIn (d := 0) (y := fun _ => 0)
      (fun i _ => by rw [zero_add]) (fun _ _ _ _ => rfl), copyIn_apply (by decide), sub_zero,
    if_neg (by omega)]

/-- A word that no byte of is written. -/
theorem readWord_writeWord_ne (m : Bytes32) (x : Word) (hlow : 4 ≤ (p - a).toNat)
    (hhigh : (p - a).toNat ≤ 2 ^ 32 - 4) : readWord (writeWord m a x) p = readWord m p := by
  refine leWord_congr fun k hk => writeWord_apply _ _ _ _ ?_
  have hdist : p + BitVec.ofNat 32 k - a = p - a + BitVec.ofNat 32 k := by ring
  rw [hdist, BitVec.toNat_add, BitVec.toNat_ofNat]
  omega

/-- What the kernel's memory starts with. -/
theorem readWord_pageDirEntries (m : Bytes32) {w : Nat} (hw : w < 1024) :
    readWord (pageDirEntries m) (BitVec.ofNat 32 (4 * w)) = Mem.bootDir w := by
  have hclear : readWord (stores 4 (fun i => BitVec.ofNat 32 (4 * i)) (fun _ => 0) m (0x1000 / 4))
      (BitVec.ofNat 32 (4 * w)) = 0 := by
    rw [stores_eq_copyIn (d := 0) (y := fun _ => 0) (fun i _ => by rw [zero_add])
      (fun _ _ _ _ => rfl)]
    have hzero : ∀ k < 4, copyIn m 0 (fun _ => 0) (4 * (0x1000 / 4))
        (BitVec.ofNat 32 (4 * w) + BitVec.ofNat 32 k) = 0 := by
      intro k hk
      rw [copyIn_apply (by decide), if_pos]
      rw [sub_zero, BitVec.toNat_add, BitVec.toNat_ofNat, BitVec.toNat_ofNat]
      omega
    exact leWord_congr hzero
  have hskip : ∀ (m : Bytes32) (v : Nat) (x : Word), v < 1024 → w ≠ v →
      readWord (writeWord m (BitVec.ofNat 32 (4 * v)) x) (BitVec.ofNat 32 (4 * w)) =
        readWord m (BitVec.ofNat 32 (4 * w)) := by
    intro m v x hv hne
    have hdist : (BitVec.ofNat 32 (4 * w) - BitVec.ofNat 32 (4 * v)).toNat =
        (2 ^ 32 - 4 * v + 4 * w) % 2 ^ 32 := by
      rw [BitVec.toNat_sub, BitVec.toNat_ofNat, BitVec.toNat_ofNat]
      omega
    apply readWord_writeWord_ne <;> omega
  rw [pageDirEntries, Mem.bootDir]
  by_cases h3 : w = 3
  · rw [h3]
    exact readWord_writeWord _ _ _
  rw [show (12 : Word) = BitVec.ofNat 32 (4 * 3) from rfl, hskip _ 3 _ (by decide) h3]
  by_cases h2 : w = 2
  · rw [h2]
    exact readWord_writeWord _ _ _
  rw [show (8 : Word) = BitVec.ofNat 32 (4 * 2) from rfl, hskip _ 2 _ (by decide) h2]
  by_cases h1 : w = 1
  · rw [h1]
    exact readWord_writeWord _ _ _
  rw [show (4 : Word) = BitVec.ofNat 32 (4 * 1) from rfl, hskip _ 1 _ (by decide) h1]
  by_cases h0 : w = 0
  · rw [h0]
    exact readWord_writeWord _ _ _
  rw [show (0 : Word) = BitVec.ofNat 32 (4 * 0) from rfl, hskip _ 0 _ (by decide) h0,
    if_neg (by omega)]
  exact hclear

/-! ## The interrupt table -/

variable {link : HeadLink} {n v : Nat}

theorem setupIdt_away (link : HeadLink) (m : Bytes32) (hn : n ≤ 256)
    (hp : 2048 ≤ (p - link.idt).toNat) : setupIdt link m n p = m p := by
  induction n with
  | zero => rfl
  | succ n ih =>
    have hlt := (p - link.idt).isLt
    have hdist : ∀ k < 2048, 4 ≤ (p - (link.idt + BitVec.ofNat 32 k)).toNat ∨ 2044 < k := by
      intro k hk
      have hsub : p - (link.idt + BitVec.ofNat 32 k) = p - link.idt - BitVec.ofNat 32 k := by ring
      rw [hsub, BitVec.toNat_sub, BitVec.toNat_ofNat]
      omega
    have hhigh : link.idt + BitVec.ofNat 32 (8 * n) + 4 =
        link.idt + BitVec.ofNat 32 (8 * n + 4) := by
      rw [BitVec.ofNat_add, BitVec.add_assoc]
      rfl
    rw [setupIdt, setupGate, hhigh, writeWord_apply, writeWord_apply]
    · exact ih (by omega)
    · exact (hdist (8 * n) (by omega)).resolve_right (by omega)
    · exact (hdist (8 * n + 4) (by omega)).resolve_right (by omega)

/-- Every gate that has been set. -/
theorem gateAt_setupIdt (link : HeadLink) (m : Bytes32) (hn : n ≤ 256) (hv : v < n) :
    gateAt (setupIdt link m n) link.idt v =
      { low32 := 0x00080000 + link.unknownInterrupt, high32 := 0x00008E00 } := by
  induction n with
  | zero => omega
  | succ n ih =>
    have hdist : ∀ k k', k < 2048 → k' < 2048 →
        (link.idt + BitVec.ofNat 32 k - (link.idt + BitVec.ofNat 32 k')).toNat =
          (2 ^ 32 - k' + k) % 2 ^ 32 := by
      intro k k' hk hk'
      have hsub : link.idt + BitVec.ofNat 32 k - (link.idt + BitVec.ofNat 32 k') =
          BitVec.ofNat 32 k - BitVec.ofNat 32 k' := by ring
      rw [hsub, BitVec.toNat_sub, BitVec.toNat_ofNat, BitVec.toNat_ofNat]
      omega
    have hhigh : ∀ k, link.idt + BitVec.ofNat 32 k + 4 = link.idt + BitVec.ofNat 32 (k + 4) := by
      intro k
      rw [BitVec.ofNat_add, BitVec.add_assoc]
      rfl
    have hd₀ := hdist (8 * v) (8 * n) (by omega) (by omega)
    have hd₁ := hdist (8 * v) (8 * n + 4) (by omega) (by omega)
    have hd₂ := hdist (8 * v + 4) (8 * n) (by omega) (by omega)
    have hd₃ := hdist (8 * v + 4) (8 * n + 4) (by omega) (by omega)
    rw [setupIdt, setupGate, gateAt]
    simp only [hhigh]
    obtain hlt | rfl := Nat.lt_succ_iff_lt_or_eq.mp hv
    · have hbefore := ih (by omega) hlt
      rw [gateAt, hhigh] at hbefore
      rw [readWord_writeWord_ne _ _ (by omega) (by omega),
        readWord_writeWord_ne _ _ (by omega) (by omega),
        readWord_writeWord_ne _ _ (by omega) (by omega),
        readWord_writeWord_ne _ _ (by omega) (by omega)]
      exact hbefore
    · rw [readWord_writeWord, readWord_writeWord_ne _ _ (by omega) (by omega), readWord_writeWord]

end

/-- The processor's reading of the gate of `head.s`. -/
theorem unknownGate (link : HeadLink) :
    gateOffset ⟨0x00080000 + link.unknownInterrupt, 0x00008E00⟩ = link.unknownInterrupt ∧
      gateSelector ⟨0x00080000 + link.unknownInterrupt, 0x00008E00⟩ = KERNEL_CS := by
  have hlow := link.low
  have hsum : (0x00080000 + link.unknownInterrupt).toNat =
      0x80000 + link.unknownInterrupt.toNat := by
    rw [BitVec.toNat_add]
    show (0x80000 + link.unknownInterrupt.toNat) % 2 ^ 32 = _
    omega
  constructor
  · apply BitVec.eq_of_toNat_eq
    have hhigh : (0x00008E00 : U32) &&& 0xFFFF0000 = 0#32 := by decide
    have hmask : (0xFFFF : U32).toNat = 2 ^ 16 - 1 := by decide
    show ((0x00080000 + link.unknownInterrupt &&& 0xFFFF) |||
      ((0x00008E00 : U32) &&& 0xFFFF0000)).toNat = _
    rw [hhigh, BitVec.or_zero, BitVec.toNat_and, hsum, hmask, Nat.and_two_pow_sub_one_eq_mod]
    omega
  · apply BitVec.eq_of_toNat_eq
    show (((0x00080000 + link.unknownInterrupt) >>> 16).setWidth 16).toNat = 8
    rw [BitVec.toNat_setWidth, BitVec.toNat_ushiftRight, hsum, Nat.shiftRight_eq_div_pow]
    omega

/-! ## From the disk to `main` -/

/-- What `head.s` does with memory. -/
theorem head_spec {link : HeadLink} {edx : Word} {m m' : Bytes32} (h : head link edx m = some m') :
    (∀ w < 1024, readWord m' (BitVec.ofNat 32 (4 * w)) = Mem.bootDir w) ∧
      (∀ v < 256, gateAt m' link.idt v =
        { low32 := 0x00080000 + link.unknownInterrupt, high32 := 0x00008E00 }) ∧
      ∀ p : Word, 0x2000 ≤ p.toNat → 2048 ≤ (p - link.idt).toNat → m' p = m p := by
  rw [head] at h
  split at h
  · cases h
    have hafter := link.after
    have hwithin := link.within
    have hstack : ∀ p : Word, 0x2000 ≤ p.toNat →
        writeWord (pageDirEntries (setupIdt link m 256)) (0x2000 - 4) link.deadLoop p =
          setupIdt link m 256 p := by
      intro p hp
      have hlt := p.isLt
      rw [writeWord_apply]
      · exact pageDirEntries_away _ (by omega)
      · rw [BitVec.toNat_sub]
        show 4 ≤ (2 ^ 32 - 0x1FFC + p.toNat) % 2 ^ 32
        omega
    refine ⟨fun w hw => ?_, fun v hv => ?_, fun p hp hidt => ?_⟩
    · have hdist : (BitVec.ofNat 32 (4 * w) - (0x2000 - 4 : Word)).toNat =
          (2 ^ 32 - 0x1FFC + 4 * w) % 2 ^ 32 := by
        rw [BitVec.toNat_sub, BitVec.toNat_ofNat]
        show (2 ^ 32 - 0x1FFC + 4 * w % 2 ^ 32) % 2 ^ 32 = _
        omega
      rw [readWord_writeWord_ne _ _ (by omega) (by omega)]
      exact readWord_pageDirEntries _ hw
    · rw [← gateAt_setupIdt link m (le_refl 256) hv]
      have hword : ∀ k < 2045,
          readWord (writeWord (pageDirEntries (setupIdt link m 256)) (0x2000 - 4) link.deadLoop)
            (link.idt + BitVec.ofNat 32 k) =
          readWord (setupIdt link m 256) (link.idt + BitVec.ofNat 32 k) := by
        intro k hk
        refine leWord_congr fun j hj => hstack _ ?_
        rw [BitVec.toNat_add, BitVec.toNat_add, BitVec.toNat_ofNat, BitVec.toNat_ofNat]
        omega
      have hhigh : link.idt + BitVec.ofNat 32 (8 * v) + 4 =
          link.idt + BitVec.ofNat 32 (8 * v + 4) := by
        rw [BitVec.ofNat_add, BitVec.add_assoc]
        rfl
      rw [gateAt, gateAt, hhigh, hword _ (by omega), hword _ (by omega)]
    · rw [hstack p hp]
      exact setupIdt_away link m (le_refl 256) hidt
  · cases h

/-- The code of `setup.s` is where the boot sector jumps to. -/
def SetupLoaded (f : Floppy) (m : Bytes32) : Prop :=
  ∀ i < 512 * 4, bytesAt m 0x90200 i = f.bytes 1 i

instance (f : Floppy) (m : Bytes32) : Decidable (SetupLoaded f m) :=
  Nat.decidableBallLT (512 * 4) fun i _ => bytesAt m 0x90200 i = f.bytes 1 i

/-- From the boot sector to the jump to `main`. -/
def boot (bios : Bios) (f : Floppy) (df : Bool) (d : Detected) (df' : Bool) (link : HeadLink)
    (edx : Word) (m : Bytes32) : Option Bytes32 :=
  (bootsect bios df m).bind fun m =>
    -- nobody looks whether `setup.s` has been read; the machine runs what is there, and if that is
    -- something else, what becomes of it is not modelled
    if SetupLoaded f m then (setup d df' m).bind (head link edx) else none

/-- Physical memory by words. -/
def physWords (m : Bytes32) (w : Nat) : U32 := readWord m (BitVec.ofNat 32 (4 * w))

/-- The kernel's sectors from address 0 on, when `setup.s` jumps there. -/
theorem kernel_at_zero {bios : Bios} {f : Floppy} {ok : Nat → Prop} (hbios : bios.Reads f ok)
    (d : Detected) (df : Bool) {m m₁ m₂ : Bytes32} (h₁ : bootsect bios false m = some m₁)
    (h₂ : setup d df m₁ = some m₂) {i : Nat} (hi : i < 512 * 240) :
    m₂ (BitVec.ofNat 32 i) = f.bytes 5 i := by
  obtain ⟨m', hm', hlow, -⟩ := setup_eq d df m₁
  cases h₂.symm.trans hm'
  obtain ⟨-, -, hkernel, -⟩ := (bootsect_spec hbios m).2 m₁ h₁
  have hbyte := hkernel i hi
  rw [bytesAt, BitVec.add_comm] at hbyte
  rw [hlow _ (by rw [BitVec.toNat_ofNat]; omega), hbyte]

/-- Which disks and machines the kernel starts from, once `setup.s` has been read, and how it
starts. -/
theorem boot_spec {bios : Bios} {f : Floppy} {ok : Nat → Prop} (hbios : bios.Reads f ok)
    (d : Detected) (df : Bool) (link : HeadLink) (edx : Word) (m : Bytes32) :
    (ok 0 → ((boot bios f false d df link edx m).isSome ↔
      (∀ k < 240, ok (k + 1)) ∧ edx &&& 8 = 8)) ∧
    ∀ m', boot bios f false d df link edx m = some m' →
      (∀ b : Kernel.Boot, b.phys = physWords m' → b.state.mem.phys = physWords m') ∧
      (∀ v < 256, gateOffset (gateAt m' link.idt v) = link.unknownInterrupt ∧
        gateSelector (gateAt m' link.idt v) = KERNEL_CS) ∧
      (∀ p : Word, 0x2000 ≤ p.toNat → p.toNat < 512 * 240 → 2048 ≤ (p - link.idt).toNat →
        m' p = f.bytes 5 p.toNat) ∧
      ∃ m₁ m₂, bootsect bios false m = some m₁ ∧ setup d df m₁ = some m₂ ∧
        (∀ i < 512 * 4, bytesAt m₁ 0x90200 i = f.bytes 1 i) ∧
        ∀ i < 512 * 240, m₂ (BitVec.ofNat 32 i) = f.bytes 5 i := by
  have hboot := (bootsect_spec hbios m).1
  refine ⟨fun hfirst => ?_, fun m' hm' => ?_⟩
  · cases h₁ : bootsect bios false m with
    | none =>
      rw [h₁] at hboot
      have hno : ¬ ∀ k < 240, ok (k + 1) := fun hok => absurd (hboot.mpr hok) (by decide)
      rw [boot, h₁, Option.bind_none]
      exact ⟨fun h => absurd h (by decide), fun h => absurd h.1 hno⟩
    | some m₁ =>
      rw [h₁] at hboot
      obtain ⟨m₂, h₂, -⟩ := setup_eq d df m₁
      have hloaded : SetupLoaded f m₁ := ((bootsect_spec hbios m).2 m₁ h₁).2.1 hfirst
      rw [boot, h₁, Option.bind_some, if_pos hloaded, h₂, Option.bind_some, head]
      split
      · rename_i hedx
        exact ⟨fun _ => ⟨hboot.mp rfl, hedx⟩, fun _ => rfl⟩
      · rename_i hedx
        exact ⟨fun h => absurd h (by decide), fun h => absurd h.2 hedx⟩
  · obtain ⟨m₁, h₁, hrest⟩ := Option.bind_eq_some_iff.mp hm'
    have hloaded : SetupLoaded f m₁ := by
      by_contra hno
      rw [if_neg hno] at hrest
      cases hrest
    rw [if_pos hloaded] at hrest
    obtain ⟨m₂, h₂, h₃⟩ := Option.bind_eq_some_iff.mp hrest
    obtain ⟨hdir, hgates, hkeep⟩ := head_spec h₃
    have hkernel : ∀ i < 512 * 240, m₂ (BitVec.ofNat 32 i) = f.bytes 5 i := fun i hi =>
      kernel_at_zero hbios d df h₁ h₂ hi
    refine ⟨fun b hb => ?_, fun v hv => ?_, fun p hp hp' hidt => ?_, m₁, m₂, h₁, h₂, hloaded,
      hkernel⟩
    · funext w
      show (if w < 1024 then Mem.bootDir w else b.phys w) = _
      split
      · rename_i hw
        exact (hdir w hw).symm
      · rw [hb]
    · rw [hgates v hv]
      exact unknownGate link
    · rw [hkeep p hp hidt, ← hkernel _ hp', BitVec.ofNat_toNat, BitVec.setWidth_eq]

def someHead : HeadLink where
  idt := 0x3000
  unknownInterrupt := 0x2100
  deadLoop := 0x20F0
  after := by decide
  within := by decide
  low := by decide

theorem boot_spec_numbered : ∃ m',
    boot (sureBios numbered) numbered false ⟨0, 0, 0, 0, 0, 0, 0, 0, 0⟩ false someHead 8
      (fun _ => 0) = some m' ∧ m' 0x2400 = 23 := by
  have hspec := boot_spec (sureBios_reads numbered) ⟨0, 0, 0, 0, 0, 0, 0, 0, 0⟩ false someHead 8
    fun _ => 0
  have hread : True := trivial
  obtain ⟨m', hm'⟩ := Option.isSome_iff_exists.mp
    ((hspec.1 hread).mpr ⟨fun k hk => trivial, by decide⟩)
  obtain ⟨-, -, hkernel, -⟩ := hspec.2 m' hm'
  exact ⟨m', hm', hkernel 0x2400 (by decide) (by decide) (by decide)⟩

end Boot
end CherryOS
