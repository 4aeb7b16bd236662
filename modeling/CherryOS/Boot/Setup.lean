import CherryOS.Boot.Bootsect

/-!
# Real-mode setup

`setup.s` stores what the BIOS says of the machine from 0x90000 on, copies the table of the
first hard disk there, and moves the kernel from 0x10000 to 0, 64 KB at a time.

The pointer to the disk's table is the interrupt vector 0x41, at address 0x104.  It is read
when `ds` is 0x9000 already, so the copy is of whatever the bytes at 0x90104, which are in the
middle of the boot sector's code, point to.

The stack of the BIOS calls is not modelled, nor what they leave in the direction flag, which
is cleared before the kernel is moved but not before the table is.
-/

namespace CherryOS
namespace Boot

open Lib

/-- What the BIOS calls return. -/
structure Detected where
  cursorPosition : BitVec 16
  externalMemorySize : BitVec 16
  displayPage : BitVec 16
  videoMode : BitVec 8
  characterColumns : BitVec 8
  graphicMemorySize : BitVec 8
  colorSetting : BitVec 8
  switchSetting : BitVec 8
  adapterBits : BitVec 8
deriving DecidableEq, Repr

def DATA_TABLE_SEG : BitVec 16 := 0x9000

def halfByte (v : BitVec 16) (k : Nat) : BitVec 8 := (v >>> (8 * k)).setWidth 8

def readHalf (m : Bytes32) (a : Word) : BitVec 16 := m (a + 1) ++ m a

/-- `mov [off], r` for a register of two bytes. -/
def storeHalf (off v : BitVec 16) (m : Bytes32) : Bytes32 :=
  copyIn m (linear DATA_TABLE_SEG off) (halfByte v) 2

def storeByte (off : BitVec 16) (v : BitVec 8) (m : Bytes32) : Bytes32 :=
  copyIn m (linear DATA_TABLE_SEG off) (fun _ => v) 1

def detect (d : Detected) (m : Bytes32) : Bytes32 :=
  let m := storeHalf 0 d.cursorPosition m
  let m := storeHalf 2 d.externalMemorySize m
  let m := storeHalf 4 d.displayPage m
  let m := storeByte 6 d.videoMode m
  let m := storeByte 7 d.characterColumns m
  let m := storeByte 10 d.graphicMemorySize m
  let m := storeByte 11 d.colorSetting m
  let m := storeByte 12 d.switchSetting m
  storeByte 13 d.adapterBits m

/-- `lds si, [4 * 0x41]` and the copy that follows. -/
def driveTable (df : Bool) (m : Bytes32) : Bytes32 :=
  let si := readHalf m (linear DATA_TABLE_SEG (4 * 0x41))
  let ds := readHalf m (linear DATA_TABLE_SEG (4 * 0x41 + 2))
  repMovs 1 df ds si DATA_TABLE_SEG 0x80 16 m

structure Move where
  ax : BitVec 16
  si : BitVec 16
  di : BitVec 16
  mem : Bytes32

/-- From `do_move_kernel` to the `rep movsw`. -/
def moveRound (s : Move) : Move :=
  let es := s.ax
  let ax := s.ax + 0x1000
  { ax := ax, si := index false s.si (2 * 0x8000), di := index false s.di (2 * 0x8000)
    mem := repMovs 2 false ax s.si es s.di 0x8000 s.mem }

/-- `do_move_kernel`, for at most so many rounds. -/
def doMoveKernel : Nat → Move → Option Move
  | 0, _ => none
  | n + 1, s =>
    let s := moveRound s
    if s.ax = 0x8000 then some s else doMoveKernel n s

/-- The memory when the processor goes to protected mode. -/
def setup (d : Detected) (df : Bool) (m : Bytes32) : Option Bytes32 :=
  (doMoveKernel 16 ⟨0, 0, 0, driveTable df (detect d m)⟩).map Move.mem

/-! ## What it leaves alone -/

section
variable {d : Detected} {df : Bool} {m : Bytes32} {p : Word}

theorem store_away (off : BitVec 16) (x : Nat → BitVec 8) {n : Nat} (hn : n ≤ 2)
    (hoff : off.toNat < 0x100) (m : Bytes32) (hp : p.toNat < 0x90000) :
    copyIn m (linear DATA_TABLE_SEG off) x n p = m p := by
  rw [copyIn_apply (by omega), if_neg]
  rw [BitVec.toNat_sub, toNat_linear]
  show ¬ (2 ^ 32 - (0x90000 + off.toNat) + p.toNat) % 2 ^ 32 < n
  omega

theorem detect_away (hp : p.toNat < 0x90000) : detect d m p = m p := by
  have hhalf : ∀ (off v : BitVec 16) (m : Bytes32), off.toNat < 0x100 →
      storeHalf off v m p = m p := fun off v m hoff => store_away off _ (le_refl 2) hoff m hp
  have hbyte : ∀ (off : BitVec 16) (v : BitVec 8) (m : Bytes32), off.toNat < 0x100 →
      storeByte off v m p = m p := fun off v m hoff => store_away off _ (by omega) hoff m hp
  rw [detect, hbyte 13 _ _ (by decide), hbyte 12 _ _ (by decide), hbyte 11 _ _ (by decide),
    hbyte 10 _ _ (by decide), hbyte 7 _ _ (by decide), hbyte 6 _ _ (by decide),
    hhalf 4 _ _ (by decide), hhalf 2 _ _ (by decide), hhalf 0 _ _ (by decide)]

theorem driveTable_away (hp : p.toNat < 0x90000) : driveTable df m p = m p :=
  repMovs_away (Or.inl hp)

end

/-! ## Moving the kernel -/

/-- After `k` rounds. -/
structure Moved (m : Bytes32) (k : Nat) (s : Move) : Prop where
  ax : s.ax = BitVec.ofNat 16 (0x1000 * k)
  si : s.si = 0
  di : s.di = 0
  mem : s.mem = copyIn m 0 (bytesAt m 0x10000) (0x10000 * k)

section
variable {m : Bytes32} {k : Nat} {s : Move}

/-- One segment, to the segment below it. -/
theorem repMovs_segment (m : Bytes32) (hk : k < 8) :
    repMovs 2 false (BitVec.ofNat 16 (0x1000 * k) + 0x1000) 0 (BitVec.ofNat 16 (0x1000 * k)) 0
        0x8000 m =
      copyIn m (BitVec.ofNat 32 (0x10000 * k))
        (bytesAt m (0x10000 + BitVec.ofNat 32 (0x10000 * k))) 0x10000 := by
  have hes : linear (BitVec.ofNat 16 (0x1000 * k)) 0 = BitVec.ofNat 32 (0x10000 * k) := by
    apply BitVec.eq_of_toNat_eq
    rw [toNat_linear, BitVec.toNat_ofNat, BitVec.toNat_ofNat]
    show 0x1000 * k % 2 ^ 16 * 16 + 0 = _
    omega
  have hds : linear (BitVec.ofNat 16 (0x1000 * k) + 0x1000) 0 =
      0x10000 + BitVec.ofNat 32 (0x10000 * k) := by
    apply BitVec.eq_of_toNat_eq
    rw [toNat_linear, BitVec.toNat_add, BitVec.toNat_add, BitVec.toNat_ofNat, BitVec.toNat_ofNat]
    show (0x1000 * k % 2 ^ 16 + 0x1000) % 2 ^ 16 * 16 + 0 =
      (0x10000 + 0x10000 * k % 2 ^ 32) % 2 ^ 32
    omega
  have hdown : (linear (BitVec.ofNat 16 (0x1000 * k) + 0x1000) 0 -
      linear (BitVec.ofNat 16 (0x1000 * k)) 0).toNat + 2 * 0x8000 ≤ 2 ^ 32 := by
    rw [hds, hes, add_sub_cancel_right]
    decide
  rw [repMovs_eq_copyIn (by decide) (by decide) (by decide) hdown, hds, hes]
  rfl

theorem Moved.step (h : Moved m k s) (hk : k < 8) : Moved m (k + 1) (moveRound s) := by
  have hax : BitVec.ofNat 16 (0x1000 * k) + 0x1000 = BitVec.ofNat 16 (0x1000 * (k + 1)) := by
    rw [Nat.mul_succ, BitVec.ofNat_add]
    rfl
  refine ⟨?_, ?_, ?_, ?_⟩
  · show s.ax + 0x1000 = _
    rw [h.ax, hax]
  · show index false s.si (2 * 0x8000) = 0
    rw [h.si]
    rfl
  · show index false s.di (2 * 0x8000) = 0
    rw [h.di]
    rfl
  · show repMovs 2 false (s.ax + 0x1000) s.si s.ax s.di 0x8000 s.mem = _
    rw [h.ax, h.si, h.di, h.mem, repMovs_segment _ hk]
    -- the segment that is read has not been written yet
    have hread : ∀ i < 0x10000, bytesAt (copyIn m 0 (bytesAt m 0x10000) (0x10000 * k))
        (0x10000 + BitVec.ofNat 32 (0x10000 * k)) i = bytesAt m 0x10000 (0x10000 * k + i) := by
      intro i hi
      have haddr : 0x10000 + BitVec.ofNat 32 (0x10000 * k) + BitVec.ofNat 32 i =
          0x10000 + BitVec.ofNat 32 (0x10000 * k + i) := by
        rw [BitVec.ofNat_add, BitVec.add_assoc]
      rw [bytesAt, haddr, copyIn_apply (by omega), if_neg]
      · rfl
      · rw [sub_zero, BitVec.toNat_add, BitVec.toNat_ofNat]
        show ¬ (0x10000 + (0x10000 * k + i) % 2 ^ 32) % 2 ^ 32 < 0x10000 * k
        omega
    rw [copyIn_congr hread, Nat.mul_succ]
    have happend := copyIn_copyIn (m := m) (a := 0) (x := bytesAt m 0x10000) (n := 0x10000 * k)
      (k := 0x10000)
    rwa [zero_add] at happend

/-- The rounds that are left. -/
theorem Moved.rounds (h : Moved m k s) (hk : k < 8) {n : Nat} (hn : 8 ≤ k + n) :
    ∃ s', doMoveKernel n s = some s' ∧ Moved m 8 s' := by
  induction n generalizing k s with
  | zero => omega
  | succ n ih =>
    have hnext := h.step hk
    rw [doMoveKernel]
    by_cases hlast : k + 1 = 8
    · have hax : (moveRound s).ax = 0x8000 := by
        rw [hnext.ax, hlast]
        rfl
      rw [hlast] at hnext
      exact ⟨moveRound s, if_pos hax, hnext⟩
    · have hax : (moveRound s).ax ≠ 0x8000 := by
        rw [hnext.ax]
        intro heq
        have hnat := congrArg BitVec.toNat heq
        rw [BitVec.toNat_ofNat] at hnat
        have hnat : 0x1000 * (k + 1) % 2 ^ 16 = 0x8000 := hnat
        omega
      rw [if_neg hax]
      exact ih hnext (by omega) (by omega)

end

/-- Half a megabyte moves down by 64 KB. -/
theorem setup_eq (d : Detected) (df : Bool) (m : Bytes32) :
    ∃ m', setup d df m = some m' ∧
      (∀ p : Word, p.toNat < 0x80000 → m' p = m (p + 0x10000)) ∧
      ∀ p : Word, 0x80000 ≤ p.toNat → p.toNat < 0x90000 → m' p = m p := by
  have hstart : Moved (driveTable df (detect d m)) 0 ⟨0, 0, 0, driveTable df (detect d m)⟩ :=
    ⟨rfl, rfl, rfl, rfl⟩
  obtain ⟨s, hs, hmoved⟩ := hstart.rounds (by omega) (show 8 ≤ 0 + 16 by omega)
  have hlow : ∀ p : Word, p.toNat < 0x90000 → driveTable df (detect d m) p = m p := fun p hp =>
    (driveTable_away hp).trans (detect_away hp)
  refine ⟨s.mem, ?_, fun p hp => ?_, fun p hp hp' => ?_⟩
  · rw [setup, hs]
    rfl
  · rw [hmoved.mem, copyIn_apply (by decide), sub_zero, if_pos hp, bytesAt,
      BitVec.ofNat_toNat, BitVec.setWidth_eq, BitVec.add_comm]
    apply hlow
    rw [BitVec.toNat_add]
    show (p.toNat + 0x10000) % 2 ^ 32 < _
    omega
  · rw [hmoved.mem, copyIn_apply (by decide), sub_zero, if_neg (by omega)]
    exact hlow p hp'

end Boot
end CherryOS
