import CherryOS.Lib.StringOps

/-!
# The boot sector

`bootsect.s` moves itself to 0x90000, asks the BIOS for the four sectors of `setup.s` and for
the 240 sectors of the kernel, one by one, and jumps to `setup.s`.  The carry is looked at
after each read but the first: that one may fail unnoticed.

The BIOS is given by what it does in its `i`-th read, memory and carry.  It is promised only
for sectors of one track that a floppy has, and for a buffer that does not cross 64 KB.  The
variables of the boot sector are apart from memory; no read is to where they are.
-/

namespace CherryOS
namespace Boot

open Lib

abbrev Word := BitVec 32

/-- The bytes of each sector, by its number on the disk. -/
abbrev Floppy := Nat → Nat → BitVec 8

/-- The bytes from the start of a sector on. -/
def Floppy.bytes (f : Floppy) (lba k : Nat) : BitVec 8 := f (lba + k / 512) (k % 512)

/-- Cylinder, head and sector, in `ch`, `dh` and `cl`. -/
structure Chs where
  track : BitVec 8
  head : BitVec 8
  sect : BitVec 8
deriving DecidableEq, Repr

/-- Where the image has a sector: 18 to a track, two heads. -/
def Chs.lba (c : Chs) : Nat := (c.track.toNat * 2 + c.head.toNat) * 18 + c.sect.toNat - 1

/-- The floppy has `n` sectors from here to the end of the track. -/
structure Chs.Holds (c : Chs) (n : Nat) : Prop where
  first : 1 ≤ c.sect.toNat
  last : c.sect.toNat + n ≤ 19
  head : c.head.toNat < 2
  track : c.track.toNat < 80

/-- `int 0x13` with `ah = 2`: the number of the call, the place, how many sectors, the buffer
and the memory; what is left in memory, and the carry. -/
abbrev Bios := Nat → Chs → Nat → Word → Bytes32 → Bytes32 × Bool

/-- The BIOS reads `f`, and the calls that succeed are those in `ok`. -/
structure Bios.Reads (bios : Bios) (f : Floppy) (ok : Nat → Prop) : Prop where
  done : ∀ {i c n a} (m : Bytes32), ok i → c.Holds n → a.toNat % 0x10000 + 512 * n ≤ 0x10000 →
    bios i c n a m = (copyIn m a (f.bytes c.lba) (512 * n), false)
  failed : ∀ {i} (c n a m), ¬ ok i → (bios i c n a m).2 = true
  away : ∀ {n a p} (i c m), 512 * n ≤ (p - a).toNat → (bios i c n a m).1 p = m p

/-! ## The code -/

structure Vars where
  currSectNr : BitVec 8
  currTrackNr : BitVec 8
  currHeadNr : BitVec 8
  currEs : BitVec 16
  currLoop : BitVec 16
deriving DecidableEq, Repr

def bootVars : Vars where
  currSectNr := 6
  currTrackNr := 0
  currHeadNr := 0
  currEs := 0x1000
  currLoop := 0

def KERNEL_SECTOR_NR : BitVec 16 := 240

def SETUP_SECTOR_NR : Nat := 4

namespace Vars

def chs (v : Vars) : Chs where
  track := v.currTrackNr
  head := v.currHeadNr
  sect := v.currSectNr

/-- From the `jc` to `.continue`. -/
def nextSector (v : Vars) : Vars :=
  if v.currSectNr ≠ 18 then { v with currSectNr := v.currSectNr + 1 }
  else if v.currHeadNr ≠ 1 then { v with currSectNr := 1, currHeadNr := 1 }
  else { v with currSectNr := 1, currHeadNr := 0, currTrackNr := v.currTrackNr + 1 }

/-- `add byte [w], 1` -/
def addByte (w : BitVec 16) : BitVec 16 := (w &&& 0xFF00) ||| (w.setWidth 8 + 1).setWidth 16

/-- The two additions at `.continue`. -/
def continueLoad (v : Vars) : Vars :=
  { v with currEs := v.currEs + 0x20, currLoop := addByte v.currLoop }

end Vars

inductive Phase
  | loadKernel
  | transferToSetup
  | die
deriving DecidableEq, Repr

structure Loader where
  vars : Vars
  mem : Bytes32
  calls : Nat
  phase : Phase

/-- From `load_kernel` to the jumps that go back there, on, or to `die`. -/
def loadKernel (bios : Bios) (s : Loader) : Loader :=
  let r := bios s.calls s.vars.chs 1 (linear s.vars.currEs 0) s.mem
  let v := s.vars.nextSector.continueLoad
  if r.2 then { s with mem := r.1, calls := s.calls + 1, phase := .die }
  else
    { vars := v, mem := r.1, calls := s.calls + 1
      -- above 240, where neither jump is taken, what follows is `transfer_to_setup`
      phase := if v.currLoop < KERNEL_SECTOR_NR then .loadKernel else .transferToSetup }

/-- `n` turns of the loop, or as many as there are. -/
def loadTurns (bios : Bios) : Nat → Loader → Loader
  | 0, s => s
  | n + 1, s =>
    let s := loadTurns bios n s
    if s.phase = .loadKernel then loadKernel bios s else s

/-- The first two steps: the boot sector in its new place, and `setup.s` asked for. -/
def loadSetup (bios : Bios) (df : Bool) (m : Bytes32) : Bytes32 :=
  let m := repMovs 1 df 0x07C0 0 0x9000 0 512 m
  (bios 0 ⟨0, 0, 2⟩ SETUP_SECTOR_NR (linear 0x9020 0) m).1

/-- The memory at the jump to `setup.s`, if it comes to that. -/
def bootsect (bios : Bios) (df : Bool) (m : Bytes32) : Option Bytes32 :=
  let s := loadTurns bios 240 ⟨bootVars, loadSetup bios df m, 1, .loadKernel⟩
  if s.phase = .transferToSetup then some s.mem else none

/-! ## The loop -/

/-- Before the read of sector `5 + k`, or after the last one. -/
structure Turn (k : Nat) (s : Loader) : Prop where
  holds : s.vars.chs.Holds 1
  lba : s.vars.chs.lba = 5 + k
  es : s.vars.currEs.toNat = 0x1000 + 0x20 * k
  loop : s.vars.currLoop.toNat = k
  calls : s.calls = k + 1
  phase : s.phase = if k < 240 then .loadKernel else .transferToSetup

/-- After `k` sectors. -/
structure Loaded (f : Floppy) (m : Bytes32) (k : Nat) (s : Loader) : Prop extends Turn k s where
  mem : s.mem = copyIn m 0x10000 (f.bytes 5) (512 * k)

section
variable {bios : Bios} {f : Floppy} {ok : Nat → Prop} {m : Bytes32} {k : Nat} {s : Loader}

theorem toNat_addByte {w : BitVec 16} (h : w.toNat < 255) :
    (Vars.addByte w).toNat = w.toNat + 1 := by
  have hall : ∀ n < 255, (Vars.addByte (BitVec.ofNat 16 n)).toNat = n + 1 := by decide +kernel
  have hw : w = BitVec.ofNat 16 w.toNat := by rw [BitVec.ofNat_toNat, BitVec.setWidth_eq]
  rw [hw, hall _ h, ← hw]

theorem lba_nextSector {v : Vars} (h : v.chs.Holds 1) (hlast : v.chs.lba < 2879) :
    v.nextSector.chs.Holds 1 ∧ v.nextSector.chs.lba = v.chs.lba + 1 := by
  obtain ⟨hfirst, hend, hhead, htrack⟩ := h
  have hfirst : 1 ≤ v.currSectNr.toNat := hfirst
  have hend : v.currSectNr.toNat + 1 ≤ 19 := hend
  have hhead : v.currHeadNr.toNat < 2 := hhead
  have htrack : v.currTrackNr.toNat < 80 := htrack
  have hlba : v.chs.lba = (v.currTrackNr.toNat * 2 + v.currHeadNr.toNat) * 18 +
      v.currSectNr.toNat - 1 := rfl
  have hsect : (v.currSectNr + 1).toNat = (v.currSectNr.toNat + 1) % 256 := BitVec.toNat_add ..
  have htr : (v.currTrackNr + 1).toNat = (v.currTrackNr.toNat + 1) % 256 := BitVec.toNat_add ..
  rw [Vars.nextSector]
  split
  · rename_i hne
    have hne' : v.currSectNr.toNat ≠ 18 := fun h => hne (BitVec.eq_of_toNat_eq h)
    refine ⟨⟨?_, ?_, hhead, htrack⟩, ?_⟩
    · show 1 ≤ (v.currSectNr + 1).toNat
      omega
    · show (v.currSectNr + 1).toNat + 1 ≤ 19
      omega
    · show (v.currTrackNr.toNat * 2 + v.currHeadNr.toNat) * 18 + (v.currSectNr + 1).toNat - 1 = _
      omega
  · rename_i heq
    have heq' : v.currSectNr.toNat = 18 := by rw [not_not.mp heq]; rfl
    split
    · rename_i hne
      have hne' : v.currHeadNr.toNat ≠ 1 := fun h => hne (BitVec.eq_of_toNat_eq h)
      refine ⟨⟨le_refl 1, by show 1 + 1 ≤ 19; omega, by show 1 < 2; omega, htrack⟩, ?_⟩
      show (v.currTrackNr.toNat * 2 + 1) * 18 + 1 - 1 = _
      omega
    · rename_i heq₁
      have heq₁' : v.currHeadNr.toNat = 1 := by rw [not_not.mp heq₁]; rfl
      refine ⟨⟨le_refl 1, by show 1 + 1 ≤ 19; omega, by show 0 < 2; omega, ?_⟩, ?_⟩
      · show (v.currTrackNr + 1).toNat < 80
        omega
      · show ((v.currTrackNr + 1).toNat * 2 + 0) * 18 + 1 - 1 = _
        omega

theorem bytes_add (f : Floppy) (lba k i : Nat) :
    f.bytes (lba + k) i = f.bytes lba (512 * k + i) := by
  show f (lba + k + i / 512) (i % 512) = f (lba + (512 * k + i) / 512) ((512 * k + i) % 512)
  congr 1 <;> omega

/-- The place of the next sector. -/
theorem Turn.toNat_buffer (h : Turn k s) :
    (linear s.vars.currEs 0).toNat = 0x10000 + 512 * k := by
  rw [toNat_linear, h.es]
  show (0x1000 + 0x20 * k) * 16 + 0 = _
  omega

/-- A turn whose read succeeds. -/
theorem Turn.step (h : Turn k s) (hk : k < 240)
    (hcarry : (bios s.calls s.vars.chs 1 (linear s.vars.currEs 0) s.mem).2 = false) :
    Turn (k + 1) (loadKernel bios s) := by
  have hlba := h.lba
  obtain ⟨hholds, hnext⟩ := lba_nextSector h.holds (by omega)
  have hkeep : s.vars.nextSector.currLoop = s.vars.currLoop ∧
      s.vars.nextSector.currEs = s.vars.currEs := by
    rw [Vars.nextSector]
    split
    · exact ⟨rfl, rfl⟩
    · split <;> exact ⟨rfl, rfl⟩
  have hloop : s.vars.nextSector.continueLoad.currLoop.toNat = k + 1 := by
    show (Vars.addByte s.vars.nextSector.currLoop).toNat = _
    rw [hkeep.1, toNat_addByte (by rw [h.loop]; omega), h.loop]
  have hes : s.vars.nextSector.continueLoad.currEs.toNat = 0x1000 + 0x20 * (k + 1) := by
    show (s.vars.nextSector.currEs + 0x20).toNat = _
    rw [hkeep.2, BitVec.toNat_add, h.es]
    show (0x1000 + 0x20 * k + 0x20) % 2 ^ 16 = _
    omega
  rw [loadKernel, if_neg (by rw [hcarry]; decide)]
  refine ⟨hholds, hnext.trans (by omega), hes, hloop, ?_, ?_⟩
  · show s.calls + 1 = _
    rw [h.calls]
  · show (if s.vars.nextSector.continueLoad.currLoop < KERNEL_SECTOR_NR then _ else _) = _
    have hiff : s.vars.nextSector.continueLoad.currLoop < KERNEL_SECTOR_NR ↔ k + 1 < 240 := by
      rw [BitVec.lt_def, hloop]
      rfl
    simp only [hiff]

/-- The BIOS puts the sector after those that are there. -/
theorem Loaded.step (hbios : bios.Reads f ok) (h : Loaded f m k s) (hk : k < 240)
    (hok : ok (k + 1)) : Loaded f m (k + 1) (loadKernel bios s) := by
  have hbuf := h.toNat_buffer
  have hread : bios s.calls s.vars.chs 1 (linear s.vars.currEs 0) s.mem =
      (copyIn s.mem (linear s.vars.currEs 0) (f.bytes s.vars.chs.lba) (512 * 1), false) := by
    rw [h.calls]
    exact hbios.done s.mem hok h.holds (by omega)
  have hplace : linear s.vars.currEs 0 = 0x10000 + BitVec.ofNat 32 (512 * k) := by
    apply BitVec.eq_of_toNat_eq
    rw [hbuf, BitVec.toNat_add, BitVec.toNat_ofNat]
    show _ = (0x10000 + 512 * k % 2 ^ 32) % 2 ^ 32
    omega
  refine ⟨h.toTurn.step hk (congrArg Prod.snd hread), ?_⟩
  rw [loadKernel, hread]
  show copyIn s.mem (linear s.vars.currEs 0) (f.bytes s.vars.chs.lba) 512 = _
  rw [h.mem, hplace, h.lba, copyIn_congr fun i _ => bytes_add f 5 k i]
  exact copyIn_copyIn

theorem bootVars_holds : bootVars.chs.Holds 1 := ⟨by decide, by decide, by decide, by decide⟩

theorem turn_start (m : Bytes32) : Turn 0 ⟨bootVars, m, 1, .loadKernel⟩ where
  holds := bootVars_holds
  lba := rfl
  es := rfl
  loop := rfl
  calls := rfl
  phase := rfl

theorem loaded_start (f : Floppy) (m : Bytes32) : Loaded f m 0 ⟨bootVars, m, 1, .loadKernel⟩ :=
  ⟨turn_start m, rfl⟩

theorem Loaded.turns (hbios : bios.Reads f ok) (h : Loaded f m 0 s) {n : Nat} (hn : n ≤ 240)
    (hok : ∀ k < n, ok (k + 1)) : Loaded f m n (loadTurns bios n s) := by
  induction n with
  | zero => exact h
  | succ n ih =>
    have hbefore := ih (by omega) fun k hk => hok k (by omega)
    have hphase : (loadTurns bios n s).phase = .loadKernel := by
      rw [hbefore.phase, if_pos (by omega)]
    rw [loadTurns, if_pos hphase]
    exact hbefore.step hbios (by omega) (hok n (by omega))

theorem loadTurns_die {n : Nat} (h : (loadTurns bios k s).phase = .die) (hn : k ≤ n) :
    (loadTurns bios n s).phase = .die := by
  induction n, hn using Nat.le_induction with
  | base => exact h
  | succ n _ ih =>
    rw [loadTurns, if_neg (by rw [ih]; decide)]
    exact ih

/-- Whatever the BIOS does. -/
theorem Turn.turns (bios : Bios) (h : Turn 0 s) {n : Nat} (hn : n ≤ 240) :
    Turn n (loadTurns bios n s) ∨
      (loadTurns bios n s).phase = .die ∧ (loadTurns bios n s).calls ≤ n + 1 := by
  induction n with
  | zero => exact Or.inl h
  | succ n ih =>
    obtain hturn | ⟨hdie, hcalls⟩ := ih (by omega)
    · have hphase : (loadTurns bios n s).phase = .loadKernel := by
        rw [hturn.phase, if_pos (by omega)]
      rw [loadTurns, if_pos hphase]
      cases hcarry : (bios (loadTurns bios n s).calls (loadTurns bios n s).vars.chs 1
          (linear (loadTurns bios n s).vars.currEs 0) (loadTurns bios n s).mem).2 with
      | false => exact Or.inl (hturn.step (by omega) hcarry)
      | true =>
        rw [loadKernel, if_pos hcarry]
        refine Or.inr ⟨rfl, ?_⟩
        show (loadTurns bios n s).calls + 1 ≤ _
        rw [hturn.calls]
    · rw [loadTurns, if_neg (by rw [hdie]; decide)]
      exact Or.inr ⟨hdie, by omega⟩

/-- The first read that fails is the last one. -/
theorem die_of_failed (hbios : bios.Reads f ok) (h : Loaded f m 0 s) {n : Nat} (hn : n ≤ 240)
    (hno : ¬ ∀ k < n, ok (k + 1)) : (loadTurns bios n s).phase = .die := by
  induction n with
  | zero => exact absurd (fun k hk => absurd hk (Nat.not_lt_zero k)) hno
  | succ n ih =>
    by_cases hbefore : ∀ k < n, ok (k + 1)
    · have hlast : ¬ ok (n + 1) := fun hok => hno fun k hk => by
        obtain hlt | rfl := Nat.lt_succ_iff_lt_or_eq.mp hk
        · exact hbefore k hlt
        · exact hok
      have hloaded := h.turns hbios (by omega) hbefore
      have hphase : (loadTurns bios n s).phase = .loadKernel := by
        rw [hloaded.phase, if_pos (by omega)]
      have hcarry := hbios.failed (loadTurns bios n s).vars.chs 1
        (linear (loadTurns bios n s).vars.currEs 0) (loadTurns bios n s).mem hlast
      rw [← hloaded.calls] at hcarry
      rw [loadTurns, if_pos hphase, loadKernel, if_pos hcarry]
    · exact loadTurns_die (ih (by omega) hbefore) (Nat.le_succ n)

/-- What the kernel's sectors are read into. -/
theorem bootsect_eq (hbios : bios.Reads f ok) (df : Bool) (m : Bytes32)
    (hok : ∀ k < 240, ok (k + 1)) : bootsect bios df m =
      some (copyIn (loadSetup bios df m) 0x10000 (f.bytes 5) (512 * 240)) := by
  have h := (loaded_start f (loadSetup bios df m)).turns hbios (le_refl 240) hok
  have hphase : (loadTurns bios 240 ⟨bootVars, loadSetup bios df m, 1, .loadKernel⟩).phase =
      .transferToSetup := h.phase
  rw [bootsect, if_pos hphase, h.mem]

theorem bootsect_eq_none (hbios : bios.Reads f ok) (df : Bool) (m : Bytes32)
    (hno : ¬ ∀ k < 240, ok (k + 1)) : bootsect bios df m = none := by
  have h := die_of_failed hbios (loaded_start f (loadSetup bios df m)) (le_refl 240) hno
  rw [bootsect, if_neg]
  rw [h]
  decide

/-! ## The first two steps -/

/-- The boot sector in its new place. -/
theorem moveBootsect (m : Bytes32) : repMovs 1 false 0x07C0 0 0x9000 0 512 m =
    copyIn m 0x90000 (bytesAt m 0x7C00) 512 :=
  repMovs_eq_copyIn (by decide) (by decide) (by decide) (by decide)

theorem loadSetup_eq (hbios : bios.Reads f ok) (m : Bytes32) (hok : ok 0) :
    loadSetup bios false m =
      copyIn (copyIn m 0x90000 (bytesAt m 0x7C00) 512) 0x90200 (f.bytes 1) 2048 := by
  rw [loadSetup, moveBootsect]
  have hread := hbios.done (c := ⟨0, 0, 2⟩) (n := 4) (a := linear 0x9020 0)
    (copyIn m 0x90000 (bytesAt m 0x7C00) 512) hok ⟨by decide, by decide, by decide, by decide⟩
    (by decide)
  exact congrArg Prod.fst hread

/-- Whatever became of the read. -/
theorem loadSetup_away (hbios : bios.Reads f ok) (m : Bytes32) {p : Word}
    (hp : 2048 ≤ (p - 0x90200).toNat) :
    loadSetup bios false m p = copyIn m 0x90000 (bytesAt m 0x7C00) 512 p := by
  rw [loadSetup, moveBootsect]
  exact hbios.away 0 ⟨0, 0, 2⟩ _ hp

end

/-- What is asked of the BIOS, whatever it does: the sectors of the kernel in their order, each
of them once and into its own place, until a read fails. -/
theorem loadKernel_requests (bios : Bios) (m : Bytes32) :
    (∀ n < 240, (loadTurns bios n ⟨bootVars, m, 1, .loadKernel⟩).phase = .loadKernel →
      (loadTurns bios n ⟨bootVars, m, 1, .loadKernel⟩).calls = n + 1 ∧
      (loadTurns bios n ⟨bootVars, m, 1, .loadKernel⟩).vars.chs.Holds 1 ∧
      (loadTurns bios n ⟨bootVars, m, 1, .loadKernel⟩).vars.chs.lba = 5 + n ∧
      (linear (loadTurns bios n ⟨bootVars, m, 1, .loadKernel⟩).vars.currEs 0).toNat =
        0x10000 + 512 * n) ∧
    (loadTurns bios 240 ⟨bootVars, m, 1, .loadKernel⟩).phase ≠ .loadKernel ∧
    (loadTurns bios 240 ⟨bootVars, m, 1, .loadKernel⟩).calls ≤ 241 := by
  refine ⟨fun n hn hphase => ?_, ?_⟩
  · obtain hturn | ⟨hdie, -⟩ := (turn_start m).turns bios (n := n) (by omega)
    · exact ⟨hturn.calls, hturn.holds, hturn.lba, hturn.toNat_buffer⟩
    · rw [hdie] at hphase
      cases hphase
  · obtain hturn | ⟨hdie, hcalls⟩ := (turn_start m).turns bios (le_refl 240)
    · exact ⟨by rw [hturn.phase]; decide, le_of_eq hturn.calls⟩
    · exact ⟨by rw [hdie]; decide, hcalls⟩

/-- What the boot sector does, for any disk and whatever reads fail. -/
theorem bootsect_spec {bios : Bios} {f : Floppy} {ok : Nat → Prop} (hbios : bios.Reads f ok)
    (m : Bytes32) :
    ((bootsect bios false m).isSome ↔ ∀ k < 240, ok (k + 1)) ∧
    ∀ m', bootsect bios false m = some m' →
      (∀ i < 512, bytesAt m' 0x90000 i = bytesAt m 0x7C00 i) ∧
      (ok 0 → ∀ i < 2048, bytesAt m' 0x90200 i = f.bytes 1 i) ∧
      (∀ i < 512 * 240, bytesAt m' 0x10000 i = f.bytes 5 i) ∧
      ∀ p : Word, 512 * 240 ≤ (p - 0x10000).toNat → 512 + 2048 ≤ (p - 0x90000).toNat →
        m' p = m p := by
  by_cases hok : ∀ k < 240, ok (k + 1)
  · have heq := bootsect_eq hbios false m hok
    refine ⟨⟨fun _ => hok, fun _ => by rw [heq]; rfl⟩, fun m' hm' => ?_⟩
    cases heq.symm.trans hm'
    -- the kernel's sectors are away from the other two places
    have hhigh : ∀ (a : Word) (i : Nat), a.toNat + i < 2 ^ 32 → 0x2E000 ≤ a.toNat →
        bytesAt (copyIn (loadSetup bios false m) 0x10000 (f.bytes 5) (512 * 240)) a i =
          bytesAt (loadSetup bios false m) a i := by
      intro a i hi ha
      rw [bytesAt, copyIn_apply (by decide), if_neg]
      · rfl
      · rw [BitVec.toNat_sub, BitVec.toNat_add, BitVec.toNat_ofNat]
        show ¬ (2 ^ 32 - 0x10000 + (a.toNat + i % 2 ^ 32) % 2 ^ 32) % 2 ^ 32 < 512 * 240
        omega
    refine ⟨fun i hi => ?_, fun hfirst i hi => ?_, fun i hi => ?_, fun p hp hp' => ?_⟩
    · rw [hhigh _ i (by show 0x90000 + i < _; omega) (by decide), bytesAt, loadSetup_away hbios]
      · exact copyIn_read (by decide) hi
      · rw [BitVec.toNat_sub, BitVec.toNat_add, BitVec.toNat_ofNat]
        show 2048 ≤ (2 ^ 32 - 0x90200 + (0x90000 + i % 2 ^ 32) % 2 ^ 32) % 2 ^ 32
        omega
    · rw [hhigh _ i (by show 0x90200 + i < _; omega) (by decide), bytesAt,
        loadSetup_eq hbios m hfirst]
      exact copyIn_read (by decide) hi
    · exact copyIn_read (by decide) hi
    · rw [copyIn_apply (by decide), if_neg (by omega), loadSetup_away hbios]
      · rw [copyIn_apply (by decide), if_neg (by omega)]
      · have hdist : p - 0x90200 = p - 0x90000 - 0x200 := by ring
        rw [hdist, BitVec.toNat_sub]
        show 2048 ≤ (2 ^ 32 - 0x200 + (p - 0x90000).toNat) % 2 ^ 32
        have hlt := (p - 0x90000).isLt
        omega
  · have heq := bootsect_eq_none hbios false m hok
    rw [heq]
    refine ⟨⟨fun h => absurd h (by decide), fun h => absurd h hok⟩, fun m' hm' => ?_⟩
    cases hm'

/-- A BIOS that never fails. -/
def sureBios (f : Floppy) : Bios :=
  fun _ c n a m => (copyIn m a (f.bytes c.lba) (512 * n), false)

theorem sureBios_reads (f : Floppy) : (sureBios f).Reads f fun _ => True where
  done := fun m _ _ _ => rfl
  failed := fun c n a m h => absurd trivial h
  away := by
    intro n a p i c m hp
    have hlt := (p - a).isLt
    show copyIn m a (f.bytes c.lba) (512 * n) p = m p
    rw [copyIn_apply (by omega), if_neg (by omega)]

/-- A disk whose sectors are filled with their number. -/
def numbered : Floppy := fun lba _ => BitVec.ofNat 8 lba

theorem bootsect_spec_numbered : ∃ m', bootsect (sureBios numbered) false (fun _ => 0) = some m' ∧
    bytesAt m' 0x10000 512 = 6 := by
  have hspec := bootsect_spec (sureBios_reads numbered) fun _ => 0
  obtain ⟨m', hm'⟩ := Option.isSome_iff_exists.mp (hspec.1.mpr fun k hk => trivial)
  obtain ⟨-, -, hkernel, -⟩ := hspec.2 m' hm'
  exact ⟨m', hm', hkernel 512 (by decide)⟩

end Boot
end CherryOS
