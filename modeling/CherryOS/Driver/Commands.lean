import CherryOS.Driver.Hd

/-!
# What a command addresses

The driver splits the number of a sector into cylinder, head and sector and writes them to
the ports byte by byte.  For a sector of the drive nothing is lost on the way, and the
controller puts the same number together again.
-/

namespace CherryOS
namespace Driver

open Kernel (U32)

/-- A drive of 1 to 16 heads, 1 to 255 sectors a track and at most 65536 cylinders. -/
structure HdHwInfo.Geometry (hw : HdHwInfo) : Prop where
  head_pos : 1 ≤ hw.head.toNat
  head_le : hw.head.toNat ≤ 16
  sect_pos : 1 ≤ hw.sect.toNat
  sect_le : hw.sect.toNat ≤ 255
  cyl_le : hw.cyl.toNat ≤ 65536

/-- A geometry that `hd_out` lets pass and that can be divided by. -/
structure HdHwInfo.Checked (hw : HdHwInfo) : Prop where
  head_pos : 1 ≤ hw.head.toNat
  head_le : hw.head.toNat ≤ 16
  sect_pos : 1 ≤ hw.sect.toNat

theorem HdHwInfo.Geometry.checked {hw : HdHwInfo} (h : hw.Geometry) : hw.Checked :=
  ⟨h.head_pos, h.head_le, h.sect_pos⟩

def HdHwInfo.size (hw : HdHwInfo) : Nat := hw.head.toNat * hw.sect.toNat * hw.cyl.toNat

/-- Block `b` of the device lies inside its partition, and the partition on its drive. -/
structure Drives.Inside (D : Drives) (dev b : U32) (drive : Drive) (part : HdStruct) : Prop
    where
  find : D.find ((MINOR dev).setWidth 8) = some (drive, part)
  geometry : (D.hdHw drive).Geometry
  part_le : part.startSect.toNat + part.nrSects.toNat ≤ (D.hdHw drive).size
  block_le : 2 * b.toNat + 2 ≤ part.nrSects.toNat

/-- The first sector of block `b` on the drive. -/
def HdStruct.sectorOf (part : HdStruct) (b : U32) : Nat := part.startSect.toNat + 2 * b.toNat

theorem HdHwInfo.Geometry.size_le {hw : HdHwInfo} (h : hw.Geometry) :
    hw.size ≤ 16 * 255 * 65536 :=
  Nat.mul_le_mul (Nat.mul_le_mul h.head_le h.sect_le) h.cyl_le

/-- Neither sector of the block is lost to the width of a word. -/
theorem Drives.Inside.absBlock {D : Drives} {dev b : U32} {drive : Drive} {part : HdStruct}
    {k : Nat} (h : D.Inside dev b drive part) (hk : k ≤ 1) :
    (b * 2 + BitVec.ofNat 32 k + part.startSect).toNat = part.sectorOf b + k ∧
      part.sectorOf b + k < (D.hdHw drive).size := by
  have hsize := h.geometry.size_le
  have hpart := h.part_le
  have hblock := h.block_le
  rw [HdStruct.sectorOf, BitVec.toNat_add, BitVec.toNat_add, BitVec.toNat_mul, BitVec.toNat_ofNat]
  show ((b.toNat * 2 % 2 ^ 32 + k % 2 ^ 32) % 2 ^ 32 + _) % 2 ^ 32 = _ ∧ _
  omega

section chs

variable {hw : HdHwInfo} {absBlock : U32}

/-- `chs` gives the digits of the sector number. -/
theorem chs_digits (hw : HdHwInfo) (absBlock : U32) :
    (chs hw absBlock).head.toNat = absBlock.toNat / hw.sect.toNat % hw.head.toNat ∧
      (chs hw absBlock).cyl.toNat = absBlock.toNat / hw.sect.toNat / hw.head.toNat := by
  simp [chs]

theorem chs_sector (hg : hw.Geometry) :
    (chs hw absBlock).sec.toNat = absBlock.toNat % hw.sect.toNat + 1 := by
  have hlt := Nat.mod_lt absBlock.toNat hg.sect_pos
  have hle := hg.sect_le
  simp only [chs, BitVec.toNat_add, BitVec.toNat_umod]
  show (_ + 1) % 2 ^ 32 = _
  omega

/-- The digits fit the ports. -/
theorem chs_bounds (hg : hw.Geometry) (habs : absBlock.toNat < hw.size) :
    (chs hw absBlock).sec.toNat ≤ 255 ∧ (chs hw absBlock).head.toNat ≤ 15 ∧
      (chs hw absBlock).cyl.toNat < 65536 := by
  obtain ⟨hhead, hcyl⟩ := chs_digits hw absBlock
  have hsect := Nat.mod_lt absBlock.toNat hg.sect_pos
  have hmod := Nat.mod_lt (absBlock.toNat / hw.sect.toNat) hg.head_pos
  have hsectLe := hg.sect_le
  have hheadLe := hg.head_le
  refine ⟨?_, ?_, ?_⟩
  · rw [chs_sector hg]
    omega
  · rw [hhead]
    omega
  · rw [hcyl, Nat.div_div_eq_div_mul]
    apply Nat.lt_of_lt_of_le _ hg.cyl_le
    apply Nat.div_lt_of_lt_mul
    rw [Nat.mul_comm hw.sect.toNat]
    exact habs

/-- The digits together are the sector number. -/
theorem chs_join (hg : hw.Geometry) :
    ((chs hw absBlock).cyl.toNat * hw.head.toNat + (chs hw absBlock).head.toNat) *
      hw.sect.toNat + (chs hw absBlock).sec.toNat - 1 = absBlock.toNat := by
  obtain ⟨hhead, hcyl⟩ := chs_digits hw absBlock
  rw [chs_sector hg, hhead, hcyl, Nat.div_add_mod', ← Nat.add_assoc, Nat.add_sub_cancel,
    Nat.div_add_mod']

end chs

section command

variable {D : Drives} {c : Controller} {dev : Drive} {nsect sect head cyl cmd : U32}

@[simp] theorem outB_ports (hw : Drive → HdHwInfo) (c : Controller) (value : U32) (port : Port) :
    (c.outB hw value port).ports = Function.update c.ports port (value.setWidth 8) := by
  cases port with
  | HD_CMD =>
    rw [Controller.outB]
    split <;> rfl
  | _ => rfl

/-- What the ports hold after `hd_out`. -/
def Drives.written (D : Drives) (dev : Drive) (nsect sect head cyl cmd : U32) : Port → BitVec 8
  | .HD_CMD => (D.hdHw dev).ctl.setWidth 8
  | .HD_PRECOMP => ((D.hdHw dev).wpcom.sdiv 4).setWidth 8
  | .HD_NSECTOR => nsect.setWidth 8
  | .HD_SECTOR => sect.setWidth 8
  | .HD_LCYL => cyl.setWidth 8
  | .HD_HCYL => (cyl >>> 8).setWidth 8
  | .HD_CURRENT => (0xA0 ||| (BitVec.ofNat 32 dev.val <<< 4) ||| head).setWidth 8
  | .HD_COMMAND => cmd.setWidth 8

theorem command_ports :
    (D.command c dev nsect sect head cyl cmd).ports = D.written dev nsect sect head cyl cmd := by
  funext port
  cases port <;> simp [Drives.command, Drives.written]

theorem command_job :
    (D.command c dev nsect sect head cyl cmd).job =
      (D.command c dev nsect sect head cyl cmd).start D.hdHw := rfl

theorem command_idle (hcmd : (cmd.setWidth 8).zeroExtend 32 ≠ CMD_READ ∧
    (cmd.setWidth 8).zeroExtend 32 ≠ CMD_WRITE) :
    (D.command c dev nsect sect head cyl cmd).job = .noData := by
  rw [command_job, Controller.start, command_ports]
  show (if (cmd.setWidth 8).zeroExtend 32 = CMD_READ then _ else _) = _
  rw [if_neg hcmd.1]
  show (if (cmd.setWidth 8).zeroExtend 32 = CMD_WRITE then _ else _) = _
  rw [if_neg hcmd.2]

/-- The drive bit and the head share a port. -/
theorem current_digits (hhead : head.toNat ≤ 15) :
    ((0xA0 ||| (BitVec.ofNat 32 dev.val <<< 4) ||| head).setWidth 8).getLsbD 4 =
        decide (dev = 1) ∧
      ((0xA0 ||| (BitVec.ofNat 32 dev.val <<< 4) ||| head).setWidth 8 &&& 0x0F).toNat =
        head.toNat := by
  have hcases : BitVec.ofNat 32 head.toNat = head := by
    rw [BitVec.ofNat_toNat, BitVec.setWidth_eq]
  rw [← hcases]
  generalize head.toNat = h at hhead
  revert dev h
  decide

theorem command_drive (hhead : head.toNat ≤ 15) :
    (D.command c dev nsect sect head cyl cmd).drive = dev := by
  have hbit : ∀ d : Drive, (if decide (d = 1) = true then 1 else 0) = d := by decide
  rw [Controller.drive, command_ports, Drives.written, (current_digits hhead).1, hbit]

theorem command_head (hhead : head.toNat ≤ 15) :
    (D.command c dev nsect sect head cyl cmd).head = head.toNat := by
  rw [Controller.head, command_ports, Drives.written, (current_digits hhead).2]

theorem command_cylinder (hcyl : cyl.toNat < 65536) :
    (D.command c dev nsect sect head cyl cmd).cylinder = cyl.toNat := by
  rw [Controller.cylinder, command_ports, Drives.written, Drives.written, BitVec.toNat_setWidth,
    BitVec.toNat_setWidth, BitVec.toNat_ushiftRight, Nat.shiftRight_eq_div_pow]
  omega

/-- A command for a sector of the drive names that sector. -/
theorem command_sector {absBlock : U32} (hg : (D.hdHw dev).Geometry)
    (habs : absBlock.toNat < (D.hdHw dev).size) :
    (D.command c dev nsect (chs (D.hdHw dev) absBlock).sec (chs (D.hdHw dev) absBlock).head
      (chs (D.hdHw dev) absBlock).cyl cmd).sector D.hdHw = absBlock.toNat := by
  obtain ⟨hsect, hhead, hcyl⟩ := chs_bounds hg habs
  rw [Controller.sector, command_drive hhead, command_head hhead, command_cylinder hcyl,
    command_ports, Drives.written, BitVec.toNat_setWidth, Nat.mod_eq_of_lt (by omega)]
  exact chs_join hg

/-- The controller starts to move the sectors it is told to. -/
theorem command_moves {absBlock : U32} (hg : (D.hdHw dev).Geometry)
    (habs : absBlock.toNat < (D.hdHw dev).size) (hn : nsect.toNat ≤ 255) :
    (D.command c dev nsect (chs (D.hdHw dev) absBlock).sec (chs (D.hdHw dev) absBlock).head
        (chs (D.hdHw dev) absBlock).cyl CMD_READ).job = .read dev absBlock.toNat nsect.toNat ∧
      (D.command c dev nsect (chs (D.hdHw dev) absBlock).sec (chs (D.hdHw dev) absBlock).head
        (chs (D.hdHw dev) absBlock).cyl CMD_WRITE).job =
        .write dev absBlock.toNat nsect.toNat none := by
  have hhead := (chs_bounds hg habs).2.1
  have hcount : (nsect.setWidth 8).toNat = nsect.toNat := by
    rw [BitVec.toNat_setWidth]
    omega
  constructor
  · rw [command_job, Controller.start, command_ports, command_drive hhead, command_sector hg habs]
    show Job.read dev absBlock.toNat (nsect.setWidth 8).toNat = _
    rw [hcount]
  · rw [command_job, Controller.start, command_ports, command_drive hhead, command_sector hg habs]
    show Job.write dev absBlock.toNat (nsect.setWidth 8).toNat none = _
    rw [hcount]

end command

/-! ## What an interrupt has done -/

section interrupt

variable {c c' : Controller} {disks disks' : Disks} {status : BitVec 8} {junk : Sector}
  {dev : Drive} {start left : Nat} {x : Sector}

theorem interrupt_noData (hjob : c.job = .noData)
    (h : c.interrupt disks status junk = some (c', disks')) : disks' = disks := by
  rw [Controller.interrupt, hjob] at h
  cases h
  rfl

theorem interrupt_read (hjob : c.job = .read dev start (left + 1))
    (h : c.interrupt disks status junk = some (c', disks')) :
    disks' = disks ∧ (cmdResult status = false →
      c'.data = disks dev start ∧ c'.job = .read dev (start + 1) left) := by
  rw [Controller.interrupt, hjob] at h
  dsimp only at h
  split at h
  · rename_i hfail
    cases h
    exact ⟨rfl, fun hok => absurd hok (by rw [hfail]; decide)⟩
  · cases h
    exact ⟨rfl, fun _ => ⟨rfl, rfl⟩⟩

theorem interrupt_write (hjob : c.job = .write dev start (left + 1) (some x))
    (h : c.interrupt disks status junk = some (c', disks')) :
    ∃ y, disks' = Function.update disks dev (Function.update (disks dev) start y) ∧
      (cmdResult status = false → y = x ∧ c'.job = .write dev (start + 1) left none) := by
  rw [Controller.interrupt, hjob] at h
  dsimp only at h
  split at h
  · rename_i hfail
    cases h
    exact ⟨junk, rfl, fun hok => absurd hok (by rw [hfail]; decide)⟩
  · cases h
    exact ⟨x, rfl, fun _ => ⟨rfl, rfl⟩⟩

end interrupt

theorem give_job {c : Controller} {dev : Drive} {start left : Nat} {x : Sector}
    (h : c.job = .write dev start left none) :
    (c.give x).job = .write dev start left (some x) := by
  rw [Controller.give, h]

end Driver
end CherryOS
